import Flexbox.Extent

namespace Flexbox.PixelGrid

variable {α : Type} [Scalar α]

inductive Rounding
  | nearest
  | up
  | down
  deriving DecidableEq, Repr

/-- How much the whole part below a scaled number has to grow. A fraction within the tolerance of
0 or 1 counts as the grid line itself, whatever the rounding; halves go up. -/
def carry (fraction : α) (rounding : Rounding) : α :=
  if (Extent.of fraction).near (.of 0) then 0
  else if (Extent.of fraction).near (.of 1) then 1
  else match rounding with
    | .up => 1
    | .down => 0
    | .nearest =>
      let half : α := Scalar.ofDecimal 5 1
      if half < fraction || (Extent.of fraction).near (.of half) then 1 else 0

def fraction (scaled : α) : α :=
  let f := Scalar.fract scaled
  if f < 0 then f + 1 else f

def round (value scale : α) (rounding : Rounding) : α :=
  let scaled := value * scale
  let f := fraction scaled
  (scaled - f + carry f rounding) / scale

def isOff (size scale : α) : Bool :=
  let f := Extent.of (Scalar.fract (size * scale))
  !f.near (.of 0) && !f.near (.of 1)

end Flexbox.PixelGrid
