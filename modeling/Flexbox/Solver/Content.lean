import Flexbox.Solver.Cross

namespace Flexbox

variable {α : Type} [Scalar α]

structure LineSpacing (α : Type) where
  leading : α
  extra : α

namespace LineSpacing

def ofAlign (align : Align) (available total : α) (count : Nat) : LineSpacing α :=
  let remaining := available - total
  let spare := total < available
  let lines : α := Scalar.ofNat count
  match align with
  | .flexEnd => ⟨remaining, 0⟩
  | .center => ⟨Scalar.half remaining, 0⟩
  | .stretch => ⟨0, if spare then remaining / lines else 0⟩
  | .spaceAround =>
    if spare then ⟨remaining / (Scalar.ofNat 2 * lines), if 1 < count then remaining / lines else 0⟩
    else ⟨Scalar.half remaining, 0⟩
  | .spaceBetween => ⟨0, if spare && 1 < count then remaining / (lines - 1) else 0⟩
  | .auto | .flexStart | .baseline => ⟨0, 0⟩

end LineSpacing

structure LineExtent (α : Type) where
  height : α
  ascent : α
  descent : α

namespace Pass

def extendLine (c : Container α) (id : NodeId) (e : LineExtent α) (p : Pass α) :
    LineExtent α × Pass α :=
  let child := p.node id
  let e := if child.hasMeasuredSize c.crossAxis then
      { e with height := Scalar.max e.height (child.outerSize c.crossAxis c.innerWidth) }
    else e
  if (p.node c.id).alignOf child == .baseline then
    let ((ascent, descent), p) := p.ascentAndDescent c.innerWidth id
    let ascent := Scalar.max e.ascent ascent
    let descent := Scalar.max e.descent descent
    (⟨Scalar.max e.height (ascent + descent), ascent, descent⟩, p)
  else (e, p)

/-- The extent of line `number` and how many of `children`, which start with it, belong to it.
Children out of flow belong to the line they follow. -/
def measureLine (c : Container α) (number : Nat) :
    List NodeId → LineExtent α → Nat → Pass α → (LineExtent α × Nat) × Pass α
  | [], e, length, p => ((e, length), p)
  | id :: rest, e, length, p =>
    let child := p.node id
    if child.isInFlow then
      if child.line != number then ((e, length), p)
      else
        let (e, p) := p.extendLine c id e
        measureLine c number rest e (length + 1) p
    else measureLine c number rest e (length + 1) p

def restretch (visit : Visitor α) (c : Container α) (height : α) (id : NodeId) (child : Node α)
    (p : Pass α) : Pass α :=
  let measured := child.geometry.measuredSize
  let width :=
    if c.isRow then measured .width + child.marginFor c.mainAxis c.innerWidth else height
  let height :=
    if c.isRow then height else measured .height + child.marginFor c.crossAxis c.innerWidth
  let unchanged := (Extent.of width).near (.of (measured .width)) &&
    (Extent.of height).near (.of (measured .height))
  if !child.hasDefiniteSize c.crossAxis c.innerCross && !unchanged then
    visit id ⟨⟨.of width, .exactly⟩, ⟨.of height, .exactly⟩, c.direction, c.innerWidth,
      c.innerHeight, true⟩ p
  else p

def alignInLine (visit : Visitor α) (c : Container α) (lead : α) (e : LineExtent α) (p : Pass α)
    (id : NodeId) : Pass α :=
  let child := p.node id
  if !child.isInFlow then p
  else
    let side := c.crossAxis.leading
    match (p.node c.id).alignOf child with
    | .flexStart => p.setPosition id side (lead + child.leadingMargin c.crossAxis c.innerWidth)
    | .flexEnd =>
      p.setPosition id side (lead + e.height - child.trailingMargin c.crossAxis c.innerWidth -
        child.measuredSize c.crossAxis)
    | .center =>
      p.setPosition id side (lead + Scalar.half (e.height - child.measuredSize c.crossAxis))
    | .stretch =>
      let p := p.setPosition id side (lead + child.leadingMargin c.crossAxis c.innerWidth)
      p.restretch visit c e.height id child
    | .baseline =>
      let (value, p) := p.baseline id
      p.setPosition id .top (lead + e.ascent - value + child.leadingPosition .column c.innerCross)
    | .auto | .spaceBetween | .spaceAround => p

def alignLines (visit : Visitor α) (c : Container α) (extra : α) :
    Nat → Nat → List NodeId → α → Pass α → Pass α
  | 0, _, _, _, p => p
  | count + 1, number, children, lead, p =>
    let ((e, length), p) := p.measureLine c number children ⟨0, 0, 0⟩ 0
    let e := { e with height := e.height + extra }
    let p := (children.take length).foldl (alignInLine visit c lead e) p
    alignLines visit c extra count (number + 1) (children.drop length) (lead + e.height) p

def alignContent (visit : Visitor α) (c : Container α) (count : Nat) (total leadingFrame : α)
    (p : Pass α) : Pass α :=
  let spacing : LineSpacing α := match c.innerCross with
    | .known available => .ofAlign (p.node c.id).style.alignContent available total count
    | .undefined => ⟨0, 0⟩
  p.alignLines visit c spacing.extra count 0 (p.children c.id) (leadingFrame + spacing.leading)

end Pass

end Flexbox
