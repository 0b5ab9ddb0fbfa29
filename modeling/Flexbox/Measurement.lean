import Flexbox.PixelGrid
import Flexbox.Length

namespace Flexbox

variable {α : Type} [Scalar α]

structure Offer (α : Type) where
  size : Extent α
  mode : MeasureMode
  deriving BEq

structure Measurement (α : Type) where
  width : Extent α
  height : Extent α
  widthMode : Option MeasureMode
  heightMode : Option MeasureMode
  computedWidth : α
  computedHeight : α
  deriving BEq

namespace Measurement

def blank : Measurement α := ⟨.of 0, .of 0, none, none, -1, -1⟩

def ofOffers (width height : Offer α) (computedWidth computedHeight : α) : Measurement α :=
  ⟨width.size, height.size, some width.mode, some height.mode, computedWidth, computedHeight⟩

def matchesRequest (m : Measurement α) (width height : Offer α) : Bool :=
  m.width.near width.size && m.height.near height.size &&
    m.widthMode == some width.mode && m.heightMode == some height.mode

end Measurement

structure AxisMeasurement (α : Type) where
  size : Extent α
  mode : Option MeasureMode
  computed : α

def Measurement.horizontal {α : Type} (m : Measurement α) : AxisMeasurement α :=
  ⟨m.width, m.widthMode, m.computedWidth⟩

def Measurement.vertical {α : Type} (m : Measurement α) : AxisMeasurement α :=
  ⟨m.height, m.heightMode, m.computedHeight⟩

namespace AxisMeasurement

def onGrid (scale : α) (size : Extent α) : Extent α :=
  if scale != 0 then size.map fun x => PixelGrid.round x scale .nearest else size

def sameOffer (last : AxisMeasurement α) (scale : α) (offer : Offer α) : Bool :=
  last.mode == some offer.mode && (onGrid scale last.size).near (onGrid scale offer.size)

def exactlyComputed (last : AxisMeasurement α) (mode : MeasureMode) (inner : Extent α) : Bool :=
  mode == .exactly && inner.near (.of last.computed)

def freeAndFits (last : AxisMeasurement α) (mode : MeasureMode) (inner : Extent α) : Bool :=
  mode == .atMost && last.mode == some .undefined &&
    (inner.holds (fun x => last.computed ≤ x) || inner.near (.of last.computed))

def stricterAndFits (last : AxisMeasurement α) (mode : MeasureMode) (inner : Extent α) : Bool :=
  match inner, last.size with
  | .known x, .known bound =>
    last.mode == some .atMost && mode == .atMost && !Scalar.isNaN last.computed && x < bound &&
      (last.computed ≤ x || (Extent.of x).near (.of last.computed))
  | _, _ => false

def answers (last : AxisMeasurement α) (scale margin : α) (offer : Offer α) : Bool :=
  let inner := offer.size - .of margin
  last.sameOffer scale offer || last.exactlyComputed offer.mode inner ||
    last.freeAndFits offer.mode inner || last.stricterAndFits offer.mode inner

end AxisMeasurement

def Measurement.answers {α : Type} [Scalar α] (last : Measurement α) (width height : Offer α)
    (marginRow marginColumn scale : α) : Bool :=
  if last.computedWidth < 0 || last.computedHeight < 0 then false
  else last.horizontal.answers scale marginRow width &&
    last.vertical.answers scale marginColumn height

end Flexbox
