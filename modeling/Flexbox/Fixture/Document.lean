import Flexbox.Fixture.Token

namespace Flexbox.Fixture

structure Located (β : Type) where
  item : β
  span : Span

inductive PropertyValue
  | number (value : Float32)
  | percent (value : Float32)
  | keyword (word : String)

def PropertyValue.text : PropertyValue → String
  | number x => Scalar.text x
  | percent x => Scalar.text x ++ "%"
  | keyword word => word

structure Property where
  key : Located String
  value : Located PropertyValue

inductive NodeKind
  | container
  /-- A leaf that is as large as its text. -/
  | text (content : String)

structure Declaration where
  kind : NodeKind
  name : Option (Located String)
  properties : List (Located Property)
  children : List Declaration
  span : Span

end Flexbox.Fixture
