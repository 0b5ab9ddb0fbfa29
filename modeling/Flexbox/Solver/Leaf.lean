import Flexbox.Solver.Constraint

namespace Flexbox

variable {α : Type} [Scalar α]

namespace Node

def withBoxEdges (n : Node α) (direction : Direction) (ownerWidth : Extent α) : Geometry α :=
  let rowAxis := FlexDirection.row.resolve direction
  let columnAxis := FlexDirection.column.resolve direction
  { n.geometry with
    direction := direction
    margin := {
      start := n.leadingMargin rowAxis ownerWidth
      finish := n.trailingMargin rowAxis ownerWidth
      top := n.leadingMargin columnAxis ownerWidth
      bottom := n.trailingMargin columnAxis ownerWidth }
    border := {
      start := n.leadingBorder rowAxis
      finish := n.trailingBorder rowAxis
      top := n.leadingBorder columnAxis
      bottom := n.trailingBorder columnAxis }
    padding := {
      start := n.leadingPadding rowAxis ownerWidth
      finish := n.trailingPadding rowAxis ownerWidth
      top := n.leadingPadding columnAxis ownerWidth
      bottom := n.trailingPadding columnAxis ownerWidth } }

def contentOffer (n : Node α) (axis : FlexDirection) (offer : Offer α) (width : Extent α) :
    Offer α :=
  { offer with
    size := offer.size.map fun x =>
      Scalar.max (x - n.marginFor axis width - n.frameFor axis width) 0 }

/-- Width and height of a measured leaf before its bounds. An exact offer is taken as it is; on
another axis the content decides, padding and border added. -/
def leafSize (n : Node α) (r : Request α) (content : Size α) : Size (Extent α) :=
  let along (axis : FlexDirection) (offer : Offer α) (size : α) : Extent α :=
    if offer.mode == .exactly then offer.size - Extent.of (n.marginFor axis r.width.size)
    else .of (size + n.frameFor axis r.width.size)
  ⟨along .row r.width content.width, along .column r.height content.height⟩

def boundSize (n : Node α) (r : Request α) (size : Size (Extent α)) : Size α :=
  ⟨n.bound .row size.width r.ownerWidth r.ownerWidth,
    n.bound .column size.height r.ownerHeight r.ownerWidth⟩

def emptySize (n : Node α) (r : Request α) : Size α :=
  let along (axis : FlexDirection) (offer : Offer α) : Extent α :=
    if offer.mode == .exactly then offer.size - Extent.of (n.marginFor axis r.ownerWidth)
    else .of (n.frameFor axis r.ownerWidth)
  n.boundSize r ⟨along .row r.width, along .column r.height⟩

end Node

namespace Offer

def isCollapsed (o : Offer α) : Bool := o.mode == .atMost && o.size.holds fun x => x ≤ 0

end Offer

namespace Request

def isSettled (r : Request α) : Bool :=
  r.width.isCollapsed || r.height.isCollapsed ||
    (r.width.mode == .exactly && r.height.mode == .exactly)

end Request

def Node.settledSize {α : Type} [Scalar α] (n : Node α) (r : Request α) : Size α :=
  let along (axis : FlexDirection) (offer : Offer α) : Extent α :=
    if offer.size.isUndefined || (offer.mode == .atMost && offer.size.holds fun x => x < 0) then
      .of 0
    else offer.size - Extent.of (n.marginFor axis r.ownerWidth)
  n.boundSize r ⟨along .row r.width, along .column r.height⟩

def Node.innerSize {α : Type} [Scalar α] (n : Node α) (axis : FlexDirection)
    (available ownerSize : Extent α) : Extent α :=
  let frame := n.frameFor axis ownerSize
  match available - Extent.of (n.marginFor axis ownerSize) - Extent.of frame with
  | .undefined => .undefined
  | .known inner =>
    let min := (n.style.minSize.get axis.dimension).resolve ownerSize
    let max := (n.style.maxSize.get axis.dimension).resolve ownerSize
    let upper := match max with
      | .known max => Scalar.min inner (max - frame)
      | .undefined => Scalar.cap inner
    .of (Scalar.max upper ((min.map (· - frame)).getD 0))

namespace Pass

def measureLeaf (p : Pass α) (id : NodeId) (measure : Measure α) (r : Request α) : Pass α :=
  let n := p.node id
  if r.width.mode == .exactly && r.height.mode == .exactly then
    let size := n.boundSize r (n.leafSize r ⟨0, 0⟩)
    p.setMeasured id size.width size.height
  else
    let width := n.contentOffer .row r.width r.width.size
    let height := n.contentOffer .column r.height r.width.size
    let size := n.boundSize r (n.leafSize r (measure.size width height))
    let p := p.tell (.measured measure.label width height)
    let p := p.count fun s => { s with measureCallbacks := s.measureCallbacks + 1 }
    p.setMeasured id size.width size.height

end Pass

end Flexbox
