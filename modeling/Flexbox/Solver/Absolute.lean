import Flexbox.Solver.Cross

namespace Flexbox

variable {α : Type} [Scalar α]

namespace Container

/-- The size of an absolute child along one axis if its style settles it: a definite size with
margins, or the space between opposite insets. -/
def absoluteSize (c : Container α) (parent child : Node α) (axis : FlexDirection)
    (axisSize : Extent α) (margin : α) : Extent α :=
  if child.hasDefiniteSize axis axisSize then
    child.preferredSize axis axisSize + Extent.of margin
  else if child.hasLeadingInset axis && child.hasTrailingInset axis then
    let between := parent.measuredSize axis -
      (parent.leadingBorder axis + parent.trailingBorder axis) -
      (child.leadingPosition axis axisSize + child.trailingPosition axis axisSize)
    .of (child.bound axis (.of between) axisSize c.innerWidth)
  else .undefined

/-- Width and height of an absolute child as far as they are settled before its content is
measured. An aspect ratio settles the second from the first. -/
def absoluteSizes (c : Container α) (parent child : Node α) : Size (Extent α) :=
  let marginRow := child.marginFor .row c.innerWidth
  let marginColumn := child.marginFor .column c.innerWidth
  let width := c.absoluteSize parent child .row c.innerWidth marginRow
  let height := c.absoluteSize parent child .column c.innerHeight marginColumn
  match child.style.aspectRatio, width, height with
  | .known ratio, .undefined, .known _ =>
    ⟨widthFor height marginColumn ratio + Extent.of marginRow, height⟩
  | .known ratio, .known _, .undefined =>
    ⟨width, heightFor width marginRow ratio + Extent.of marginColumn⟩
  | _, _, _ => ⟨width, height⟩

def absolutePosition (c : Container α) (parent child : Node α) (axis : FlexDirection)
    (axisSize : Extent α) (centered atEnd : Bool) : Option α :=
  let free := parent.measuredSize axis - child.measuredSize axis
  if child.hasLeadingInset axis then none
  else if child.hasTrailingInset axis then
    some (free - parent.trailingBorder axis - child.trailingMargin axis c.innerWidth -
      child.trailingPosition axis axisSize)
  else if centered then some (Scalar.half free)
  else if atEnd then some free
  else none

end Container

namespace Pass

/-- Measures an absolute child whose size is not settled. Content such as text wraps at the width
of a container whose main axis is vertical. -/
def measureAbsolute (visit : Visitor α) (c : Container α) (widthMode : MeasureMode) (id : NodeId)
    (size : Size (Extent α)) (p : Pass α) : Size (Extent α) × Pass α :=
  let width : Offer α :=
    if !c.isRow && size.width.isUndefined && widthMode != .undefined &&
        c.innerWidth.holds (fun x => 0 < x) then
      ⟨c.innerWidth, .atMost⟩
    else .exact size.width
  let p := visit id
    ⟨width, .exact size.height, c.direction, width.size, size.height, false⟩ p
  let n := p.node id
  (⟨.of (n.outerSize .row c.innerWidth), .of (n.outerSize .column c.innerWidth)⟩, p)

def sizeAbsolute (visit : Visitor α) (c : Container α) (widthMode : MeasureMode) (id : NodeId)
    (p : Pass α) : Size (Extent α) × Pass α :=
  let size := c.absoluteSizes (p.node c.id) (p.node id)
  if size.width.isUndefined || size.height.isUndefined then
    p.measureAbsolute visit c widthMode id size
  else (size, p)

def placeAbsolute (c : Container α) (id : NodeId) (p : Pass α) : Pass α :=
  let parent := p.node c.id
  let child := p.node id
  let justify := parent.style.justifyContent
  let align := parent.alignOf child
  let main := c.absolutePosition parent child c.mainAxis c.innerMain (justify == .center)
    (justify == .flexEnd)
  let cross := c.absolutePosition parent child c.crossAxis c.innerCross (align == .center)
    ((align == .flexEnd) != (parent.style.flexWrap == .wrapReverse))
  (p.setPosition? id c.mainAxis.leading main).setPosition? id c.crossAxis.leading cross

def layAbsolute (visit : Visitor α) (c : Container α) (widthMode : MeasureMode) (p : Pass α)
    (id : NodeId) : Pass α :=
  let (size, p) := p.sizeAbsolute visit c widthMode id
  let p := visit id
    ⟨⟨size.width, .exactly⟩, ⟨size.height, .exactly⟩, c.direction, size.width, size.height, true⟩ p
  p.placeAbsolute c id

def setTrailing (c : Container α) (axis : FlexDirection) (p : Pass α) (id : NodeId) : Pass α :=
  let g := (p.node id).geometry
  let size := (p.node c.id).measuredSize axis
  p.setPosition id axis.trailing
    (size - g.measuredSize axis.dimension - g.position.get axis.leading)

end Pass

end Flexbox
