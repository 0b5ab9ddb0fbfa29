import Flexbox.Measurement

namespace Flexbox

variable {α : Type}

structure Offsets (α : Type) where
  left : α
  top : α
  right : α
  bottom : α
  deriving BEq

namespace Offsets

def get (o : Offsets α) : Side → α
  | .left => o.left
  | .top => o.top
  | .right => o.right
  | .bottom => o.bottom

def set (o : Offsets α) (side : Side) (x : α) : Offsets α :=
  match side with
  | .left => { o with left := x }
  | .top => { o with top := x }
  | .right => { o with right := x }
  | .bottom => { o with bottom := x }

end Offsets

structure Insets (α : Type) where
  top : α
  bottom : α
  start : α
  finish : α
  deriving BEq

def Insets.onEdge {α : Type} (i : Insets α) (direction : Direction) : Edge → Option α
  | .left => some (if direction == .rtl then i.finish else i.start)
  | .right => some (if direction == .rtl then i.start else i.finish)
  | .top => some i.top
  | .bottom => some i.bottom
  | .start => some i.start
  | .finish => some i.finish
  | .horizontal | .vertical | .all => none

def measurementCapacity : Nat := 16

structure Geometry (α : Type) where
  position : Offsets α
  size : Size (Extent α)
  margin : Insets α
  border : Insets α
  padding : Insets α
  direction : Direction
  /-- The pass in which the flex basis was computed. -/
  basisGeneration : UInt32
  flexBasis : Extent α
  hadOverflow : Bool
  /-- The last pass that visited the node. -/
  generation : UInt32
  lastOwnerDirection : Option Direction
  /-- Remembered measurements, oldest first. -/
  measurements : List (Measurement α)
  measured : Size (Extent α)
  lastLayout : Measurement α
  usedLegacyStretch : Bool
  legacyStretchMatters : Bool
  deriving BEq

namespace Geometry

variable [Scalar α]

def initial : Geometry α where
  position := ⟨0, 0, 0, 0⟩
  size := .both .undefined
  margin := ⟨0, 0, 0, 0⟩
  border := ⟨0, 0, 0, 0⟩
  padding := ⟨0, 0, 0, 0⟩
  direction := .inherit
  basisGeneration := 0
  flexBasis := .undefined
  hadOverflow := false
  generation := 0
  lastOwnerDirection := none
  measurements := []
  measured := .both .undefined
  lastLayout := .blank
  usedLegacyStretch := false
  legacyStretchMatters := false

def measuredSize (g : Geometry α) (d : Dimension) : α := (g.measured.get d).getD 0

def setPosition (g : Geometry α) (side : Side) (x : α) : Geometry α :=
  { g with position := g.position.set side x }

def setMeasured (g : Geometry α) (d : Dimension) (x : Extent α) : Geometry α :=
  { g with measured := g.measured.set d x }

def sameBox (a b : Geometry α) : Bool :=
  a.position == b.position && a.size.width.near b.size.width && a.size.height.near b.size.height &&
    a.margin == b.margin && a.border == b.border && a.padding == b.padding &&
    a.direction == b.direction && a.hadOverflow == b.hadOverflow

end Geometry

end Flexbox
