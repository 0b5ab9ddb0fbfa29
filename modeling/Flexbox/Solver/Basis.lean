import Flexbox.Solver.Leaf

namespace Flexbox

variable {α : Type} [Scalar α]

namespace Node

def placed (n : Node α) (direction : Direction) (mainSize crossSize ownerWidth : Extent α) :
    Geometry α :=
  let direction := if n.owner.isSome then direction else .ltr
  let main := n.style.flexDirection.resolve direction
  let cross := main.cross direction
  let shiftMain := n.relativePosition main mainSize
  let shiftCross := n.relativePosition cross crossSize
  n.geometry
    |>.setPosition main.leading (n.leadingMargin main ownerWidth + shiftMain)
    |>.setPosition main.trailing (n.trailingMargin main ownerWidth + shiftMain)
    |>.setPosition cross.leading (n.leadingMargin cross ownerWidth + shiftCross)
    |>.setPosition cross.trailing (n.trailingMargin cross ownerWidth + shiftCross)

end Node

inductive BasisPlan (α : Type)
  /-- The basis of this pass is still right. -/
  | keep
  | take (basis : Extent α)
  /-- The basis is what the child measures. -/
  | measure (width height : Offer α)

namespace Container

def basisIsStale (child : Node α) (generation : UInt32) : Bool :=
  child.geometry.flexBasis.isUndefined || child.geometry.basisGeneration != generation ||
    child.config.hasFeature .webFlexBasis

def heightFor (width : Extent α) (marginRow ratio : α) : Extent α :=
  (width - Extent.of marginRow).map (· / ratio)

def widthFor (height : Extent α) (marginColumn ratio : α) : Extent α :=
  (height - Extent.of marginColumn).map (· * ratio)

def basisOffers (c : Container α) (parent child : Node α) : Offer α × Offer α :=
  let isRow := c.isRow
  let marginRow := child.marginFor .row c.innerWidth
  let marginColumn := child.marginFor .column c.innerWidth
  let rowDefinite := child.hasDefiniteSize .row c.innerWidth
  let columnDefinite := child.hasDefiniteSize .column c.innerHeight
  let width : Offer α :=
    if rowDefinite then ⟨child.preferredSize .row c.innerWidth + Extent.of marginRow, .exactly⟩
    else .none
  let height : Offer α :=
    if columnDefinite then
      ⟨child.preferredSize .column c.innerHeight + Extent.of marginColumn, .exactly⟩
    else .none
  -- A scrolling container does not bound its content on the main axis.
  let scrolls := parent.style.overflow == .scroll
  let width : Offer α :=
    if (!isRow || !scrolls) && width.size.isUndefined && c.innerWidth.isDefined then
      ⟨c.innerWidth, .atMost⟩
    else width
  let height : Offer α :=
    if (isRow || !scrolls) && height.size.isUndefined && c.innerHeight.isDefined then
      ⟨c.innerHeight, .atMost⟩
    else height
  let (width, height) : Offer α × Offer α :=
    match child.style.aspectRatio with
    | .undefined => (width, height)
    | .known ratio =>
      if !isRow && width.mode == .exactly then
        (width, ⟨heightFor width.size marginRow ratio + Extent.of marginColumn, .exactly⟩)
      else if isRow && height.mode == .exactly then
        (⟨widthFor height.size marginColumn ratio + Extent.of marginRow, .exactly⟩, height)
      else (width, height)
  -- Stretched children take the exact cross size of the container.
  let stretches := parent.alignOf child == .stretch
  let (width, height) : Offer α × Offer α :=
    if !isRow && !rowDefinite && c.innerWidth.isDefined && c.widthMode == .exactly && stretches &&
        width.mode != .exactly then
      (⟨c.innerWidth, .exactly⟩, match child.style.aspectRatio with
        | .known ratio => ⟨heightFor c.innerWidth marginRow ratio, .exactly⟩
        | .undefined => height)
    else (width, height)
  let (width, height) : Offer α × Offer α :=
    if isRow && !columnDefinite && c.innerHeight.isDefined && c.heightMode == .exactly &&
        stretches && height.mode != .exactly then
      (match child.style.aspectRatio with
        | .known ratio => ⟨widthFor c.innerHeight marginColumn ratio, .exactly⟩
        | .undefined => width, ⟨c.innerHeight, .exactly⟩)
    else (width, height)
  (child.cap .row c.innerWidth c.innerWidth width,
    child.cap .column c.innerHeight c.innerWidth height)

/-- How the basis of a child comes about: from its flex basis, from its preferred size, or from
its content. -/
def planBasis (c : Container α) (generation : UInt32) (parent child : Node α) : BasisPlan α :=
  let axis : FlexDirection := if c.isRow then .row else .column
  let resolved := child.resolveFlexBasis.resolve c.innerMain
  if resolved.isDefined && c.innerMain.isDefined then
    if basisIsStale child generation then
      .take (resolved.max (.of (child.frameFor c.mainAxis c.innerWidth)))
    else .keep
  else if child.hasDefiniteSize axis c.innerMain then
    .take ((child.preferredSize axis c.innerMain).max (.of (child.frameFor axis c.innerWidth)))
  else
    let (width, height) := c.basisOffers parent child
    .measure width height

def loneFlexible : List (NodeId × Node α) → Option NodeId → Option NodeId
  | [], found => found
  | (id, n) :: rest, found =>
    if !n.isFlexible then loneFlexible rest found
    else if found.isSome || (Extent.of n.resolveGrow).near (.of 0) ||
        (Extent.of n.resolveShrink).near (.of 0) then none
    else loneFlexible rest (some id)

end Container

namespace Pass

def zeroOut : Nat → NodeId → Pass α → Pass α
  | 0, _, p => p
  | fuel + 1, id, p =>
    let p := p.update id fun n =>
      { n with
        geometry := { (Geometry.initial : Geometry α) with size := .both (.of 0) }
        hasNewLayout := true
        isDirty := false }
    let p := p.ownChildren id
    (p.children id).foldl (fun p child => zeroOut fuel child p) p

def setBasis (p : Pass α) (id : NodeId) (basis : Extent α) : Pass α :=
  p.updateGeometry id fun g => { g with basisGeneration := p.generation, flexBasis := basis }

def basisOfChild (visit : Visitor α) (c : Container α) (p : Pass α) (child : NodeId) : Pass α :=
  match c.planBasis p.generation (p.node c.id) (p.node child) with
  | .keep => p
  | .take basis => p.setBasis child basis
  | .measure width height =>
    let p := visit child ⟨width, height, c.direction, c.innerWidth, c.innerHeight, false⟩ p
    let n := p.node child
    p.setBasis child
      (.of (Scalar.max (n.measuredSize c.mainAxis) (n.frameFor c.mainAxis c.innerWidth)))

def placeAtStart (c : Container α) (p : Pass α) (child : NodeId) : Pass α :=
  if c.performLayout then
    p.redraw child fun n =>
      n.placed (n.resolveDirection c.direction) c.innerMain c.innerCross c.innerWidth
  else p

def prepareBasis (visit : Visitor α) (c : Container α) (lone : Option NodeId) (p : Pass α)
    (child : NodeId) : Pass α :=
  if lone == some child then p.setBasis child (.of 0) else p.basisOfChild visit c child

def prepareChild (visit : Visitor α) (c : Container α) (lone : Option NodeId)
    (state : α × Pass α) (child : NodeId) : α × Pass α :=
  let (total, p) := state
  let p := p.update child Node.resolveSize
  if (p.node child).isHidden then (total, p.zeroOut p.depth child)
  else
    let q := p.placeAtStart c child
    if (p.node child).isAbsolute then (total, q)
    else
      let q := q.prepareBasis visit c lone child
      let n := q.node child
      (total + (n.geometry.flexBasis + Extent.of (n.marginFor c.mainAxis c.innerWidth)).getD 0, q)

def basisOfChildren (visit : Visitor α) (c : Container α) (p : Pass α) : α × Pass α :=
  let children := p.children c.id
  let lone :=
    if c.mainMode == .exactly then
      Container.loneFlexible (children.map fun child => (child, p.node child)) none
    else none
  children.foldl (prepareChild visit c lone) (0, p)

end Pass

end Flexbox
