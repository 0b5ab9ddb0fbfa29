import Flexbox.Solver.Flexing
import Flexbox.Solver.Baseline

namespace Flexbox

variable {α : Type} [Scalar α]

structure Spacing (α : Type) where
  leading : α
  between : α

namespace Spacing

def ofJustify (justify : Justify) (free : α) (items : Nat) : Spacing α :=
  let count : α := Scalar.ofNat items
  match justify with
  | .flexStart => ⟨0, 0⟩
  | .center => ⟨Scalar.half free, 0⟩
  | .flexEnd => ⟨free, 0⟩
  | .spaceBetween => ⟨0, if 1 < items then Scalar.max free 0 / (count - 1) else 0⟩
  | .spaceEvenly =>
    let between := free / (count + 1)
    ⟨between, between⟩
  | .spaceAround =>
    let between := free / count
    ⟨Scalar.half between, between⟩

end Spacing

namespace Container

def spaceToSpread (c : Container α) (n : Node α) (mainMode : MeasureMode) (innerMain : Extent α)
    (free : α) : α :=
  if mainMode == .atMost && 0 < free then
    match (n.style.minSize.get c.mainAxis.dimension).resolve c.ownerMain with
    | .known least =>
      let inner := least - n.leadingFrame c.mainAxis c.ownerWidth -
        n.trailingFrame c.mainAxis c.ownerWidth
      let occupied := innerMain.getD 0 - free
      Scalar.max (inner - occupied) 0
    | .undefined => 0
  else free

def autoMargins (c : Container α) (children : List (Node α)) : Nat :=
  (children.filter fun n => n.style.positionType == .relative).foldl (fun count n =>
    count + (if (n.leadingMarginValue c.mainAxis).isAuto then 1 else 0) +
      (if (n.trailingMarginValue c.mainAxis).isAuto then 1 else 0)) 0

end Container

structure JustifyState (α : Type) where
  mainSize : α
  crossSize : α
  ascent : α
  descent : α
  pass : Pass α

structure JustifyPlan (α : Type) where
  innerMain : Extent α
  spacing : Spacing α
  marginShare : α
  leadingBorder : α
  onBaseline : Bool
  /-- Main sizes were not computed and the bases stand for them. -/
  skipsFlex : Bool

namespace Pass

def placeAbsoluteMain (c : Container α) (plan : JustifyPlan α) (id : NodeId) (p : Pass α) :
    Pass α :=
  let n := p.node id
  if !c.performLayout then p
  else if n.hasLeadingInset c.mainAxis then
    p.setPosition id c.mainAxis.leading
      (n.leadingPosition c.mainAxis plan.innerMain + plan.leadingBorder +
        n.leadingMargin c.mainAxis c.innerWidth)
  else p.shiftBy id c.mainAxis.leading fun x => x + plan.leadingBorder + plan.spacing.leading

def placeItemMain (c : Container α) (plan : JustifyPlan α) (s : JustifyState α) (id : NodeId) :
    JustifyState α :=
  let n := s.pass.node id
  let mainSize :=
    if (n.leadingMarginValue c.mainAxis).isAuto then s.mainSize + plan.marginShare else s.mainSize
  let p := if c.performLayout then
      s.pass.shiftBy id c.mainAxis.leading fun x => x + mainSize
    else s.pass
  let mainSize :=
    if (n.trailingMarginValue c.mainAxis).isAuto then mainSize + plan.marginShare else mainSize
  if plan.skipsFlex then
    { s with
      mainSize := mainSize + (plan.spacing.between + n.marginFor c.mainAxis c.innerWidth +
        n.geometry.flexBasis.getD 0)
      crossSize := c.innerCross.getD 0
      pass := p }
  else
    let mainSize := mainSize + (plan.spacing.between + n.outerSize c.mainAxis c.innerWidth)
    if plan.onBaseline then
      let ((ascent, descent), p) := p.ascentAndDescent c.innerWidth id
      { s with
        mainSize := mainSize
        ascent := Scalar.max s.ascent ascent
        descent := Scalar.max s.descent descent
        pass := p }
    else
      { s with
        mainSize := mainSize
        crossSize := Scalar.max s.crossSize (n.outerSize c.crossAxis c.innerWidth)
        pass := p }

def placeChildMain (c : Container α) (plan : JustifyPlan α) (s : JustifyState α) (id : NodeId) :
    JustifyState α :=
  let n := s.pass.node id
  if n.isHidden then s
  else if n.isAbsolute then { s with pass := s.pass.placeAbsoluteMain c plan id }
  else placeItemMain c plan s id

def justifyLine (c : Container α) (mainMode : MeasureMode) (innerMain : Extent α)
    (children : List NodeId) (line : Line α) (p : Pass α) : Line α × Pass α :=
  let n := p.node c.id
  let free := c.spaceToSpread n mainMode innerMain line.space.free
  let autoMargins := c.autoMargins (children.map p.node)
  let spacing : Spacing α :=
    if autoMargins == 0 then .ofJustify n.style.justifyContent free line.items.length else ⟨0, 0⟩
  let plan : JustifyPlan α :=
    { innerMain := innerMain
      spacing := spacing
      marginShare := if 0 < autoMargins then free / Scalar.ofNat autoMargins else 0
      leadingBorder := n.leadingBorder c.mainAxis
      onBaseline := p.hasBaselineChildren c.id
      skipsFlex := !c.performLayout && c.crossMode == .exactly }
  let s := children.foldl (placeChildMain c plan)
    ⟨n.leadingFrame c.mainAxis c.ownerWidth + spacing.leading, 0, 0, 0, p⟩
  ({ line with
      space := { line.space with free := free }
      mainSize := s.mainSize + n.trailingFrame c.mainAxis c.ownerWidth
      crossSize := if plan.onBaseline then s.ascent + s.descent else s.crossSize }, s.pass)

end Pass

end Flexbox
