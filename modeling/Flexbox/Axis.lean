import Flexbox.Keyword

namespace Flexbox

inductive Side
  | left
  | top
  | right
  | bottom
  deriving DecidableEq, Repr

def Side.edge : Side → Edge
  | .left => .left
  | .top => .top
  | .right => .right
  | .bottom => .bottom

namespace FlexDirection

def isRow : FlexDirection → Bool
  | .row | .rowReverse => true
  | .column | .columnReverse => false

def isColumn (d : FlexDirection) : Bool := !d.isRow

def isReverse : FlexDirection → Bool
  | .rowReverse | .columnReverse => true
  | .row | .column => false

def resolve (d : FlexDirection) (direction : Direction) : FlexDirection :=
  match direction, d with
  | .rtl, .row => .rowReverse
  | .rtl, .rowReverse => .row
  | _, d => d

def cross (d : FlexDirection) (direction : Direction) : FlexDirection :=
  if d.isColumn then FlexDirection.row.resolve direction else .column

def leading : FlexDirection → Side
  | .column => .top
  | .columnReverse => .bottom
  | .row => .left
  | .rowReverse => .right

def trailing : FlexDirection → Side
  | .column => .bottom
  | .columnReverse => .top
  | .row => .right
  | .rowReverse => .left

def dimension (d : FlexDirection) : Dimension := if d.isRow then .width else .height

end FlexDirection

structure Size (β : Type) where
  width : β
  height : β
  deriving BEq, DecidableEq, Repr

namespace Size

variable {β γ : Type}

def both (b : β) : Size β := ⟨b, b⟩

def get (s : Size β) : Dimension → β
  | .width => s.width
  | .height => s.height

def set (s : Size β) (d : Dimension) (b : β) : Size β :=
  match d with
  | .width => { s with width := b }
  | .height => { s with height := b }

def map (f : β → γ) (s : Size β) : Size γ := ⟨f s.width, f s.height⟩

end Size

end Flexbox
