import Flexbox.Solver.Justify

namespace Flexbox

variable {α : Type} [Scalar α]

namespace Container

def stretchRequest (c : Container α) (innerMain : Extent α) (lineCross : α) (child : Node α) :
    Request α :=
  let main := Extent.of (child.measuredSize c.mainAxis)
  let cross : Extent α := match child.style.aspectRatio with
    | .known ratio =>
      let size := main.getD 0
      .of (child.marginFor c.crossAxis c.innerWidth +
        if c.isRow then size / ratio else size * ratio)
    | .undefined => .of lineCross
  let main := main + Extent.of (child.marginFor c.mainAxis c.innerWidth)
  let mainOffer := child.cap c.mainAxis innerMain c.innerWidth ⟨main, .exactly⟩
  let crossOffer := child.cap c.crossAxis c.innerCross c.innerWidth ⟨cross, .exactly⟩
  c.request c.direction (.exact mainOffer.size) (.exact crossOffer.size) true

def crossLead (align : Align) (leadingAuto trailingAuto : Bool) (room lead : α) : α :=
  if leadingAuto && trailingAuto then lead + Scalar.max (Scalar.half room) 0
  else if trailingAuto then lead
  else if leadingAuto then lead + Scalar.max room 0
  else match align with
    | .flexStart => lead
    | .center => lead + Scalar.half room
    | _ => lead + room

end Container

structure CrossPlan (α : Type) where
  innerMain : Extent α
  /-- Cross size that children are aligned in. -/
  room : Extent α
  lineCross : α
  before : α
  leadingFrame : α

namespace Pass

def placeAbsoluteCross (c : Container α) (p : Pass α) (id : NodeId) : Pass α :=
  let n := p.node id
  let border := (p.node c.id).leadingBorder c.crossAxis
  let margin := n.leadingMargin c.crossAxis c.innerWidth
  p.setPosition id c.crossAxis.leading
    (if n.hasLeadingInset c.crossAxis then
        n.leadingPosition c.crossAxis c.innerCross + border + margin
      else border + margin)

def placeItemCross (visit : Visitor α) (c : Container α) (plan : CrossPlan α) (p : Pass α)
    (id : NodeId) : Pass α :=
  let parent := p.node c.id
  let child := p.node id
  let align := parent.alignOf child
  let leadingAuto := (child.leadingMarginValue c.crossAxis).isAuto
  let trailingAuto := (child.trailingMarginValue c.crossAxis).isAuto
  let stretches := align == .stretch && !leadingAuto && !trailingAuto
  let p :=
    if stretches && !child.hasDefiniteSize c.crossAxis c.innerCross then
      visit id (c.stretchRequest plan.innerMain plan.lineCross child) p
    else p
  let lead :=
    if stretches then plan.leadingFrame
    else
      let room := plan.room.getD 0 - child.outerSize c.crossAxis c.innerWidth
      Container.crossLead align leadingAuto trailingAuto room plan.leadingFrame
  p.shiftBy id c.crossAxis.leading fun x => x + plan.before + lead

def placeChildCross (visit : Visitor α) (c : Container α) (plan : CrossPlan α) (p : Pass α)
    (id : NodeId) : Pass α :=
  let child := p.node id
  if child.isHidden then p
  else if child.isAbsolute then p.placeAbsoluteCross c id
  else p.placeItemCross visit c plan id

def alignLine (visit : Visitor α) (c : Container α) (plan : CrossPlan α) (children : List NodeId)
    (p : Pass α) : Pass α :=
  children.foldl (placeChildCross visit c plan) p

end Pass

end Flexbox
