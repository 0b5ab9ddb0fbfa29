import Flexbox.Length

namespace Flexbox

structure Style (α : Type) where
  direction : Direction := .inherit
  flexDirection : FlexDirection := .column
  justifyContent : Justify := .flexStart
  alignContent : Align := .flexStart
  alignItems : Align := .stretch
  alignSelf : Align := .auto
  positionType : PositionType := .relative
  flexWrap : Wrap := .noWrap
  overflow : Overflow := .visible
  display : Display := .flex
  flex : Extent α := .undefined
  flexGrow : Extent α := .undefined
  flexShrink : Extent α := .undefined
  flexBasis : Length α := .auto
  margin : Edges (Length α) := .const .undefined
  position : Edges (Length α) := .const .undefined
  padding : Edges (Length α) := .const .undefined
  border : Edges (Length α) := .const .undefined
  size : Size (Length α) := .both .auto
  minSize : Size (Length α) := .both .undefined
  maxSize : Size (Length α) := .both .undefined
  aspectRatio : Extent α := .undefined
  deriving BEq

namespace Style

variable {α : Type}

def initial : Style α := {}

def web : Style α := { flexDirection := .row, alignContent := .stretch }

def default (webDefaults : Bool) : Style α := if webDefaults then web else initial

end Style

def defaultShrink {α : Type} [Scalar α] (webDefaults : Bool) : α := if webDefaults then 1 else 0

end Flexbox
