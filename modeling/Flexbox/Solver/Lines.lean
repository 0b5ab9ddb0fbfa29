import Flexbox.Solver.Content
import Flexbox.Solver.Absolute

namespace Flexbox

variable {α : Type} [Scalar α]

structure LinesState (α : Type) where
  /-- Space on the main axis; a bound that a line meets stays in force for the lines after it. -/
  innerMain : Extent α
  count : Nat
  totalCross : α
  maxMain : α
  pass : Pass α

structure LinesPlan (α : Type) where
  mainMode : MeasureMode
  /-- The bases together exceed the space. -/
  overflows : Bool
  minInnerMain : Extent α
  maxInnerMain : Extent α
  leadingFrameCross : α
  frameCross : α

namespace Container

structure LineSpan (α : Type) where
  innerMain : Extent α
  byContent : Bool

def lineSpan (plan : LinesPlan α) (innerMain : Extent α) (consumed : α) : LineSpan α :=
  if plan.mainMode == .exactly then ⟨innerMain, false⟩
  else if plan.minInnerMain.isDefined && (Extent.of consumed).lt plan.minInnerMain then
    ⟨plan.minInnerMain, false⟩
  else if plan.maxInnerMain.isDefined && (Extent.of consumed).gt plan.maxInnerMain then
    ⟨plan.maxInnerMain, false⟩
  else ⟨innerMain, true⟩

def freeSpace (innerMain : Extent α) (byContent : Bool) (consumed : α) : α :=
  match innerMain, byContent with
  | .known available, false => available - consumed
  | _, _ => if consumed < 0 then -consumed else 0

def ofRequest (n : Node α) (id : NodeId) (direction : Direction) (r : Request α) : Container α :=
  let mainAxis := n.style.flexDirection.resolve direction
  { id := id
    direction := direction
    mainAxis := mainAxis
    crossAxis := mainAxis.cross direction
    ownerWidth := r.ownerWidth
    ownerHeight := r.ownerHeight
    innerWidth := n.innerSize .row r.width.size r.ownerWidth
    innerHeight := n.innerSize .column r.height.size r.ownerHeight
    widthMode := r.width.mode
    heightMode := r.height.mode
    performLayout := r.performLayout }

def linesPlan (c : Container α) (n : Node α) (totalBasis : α) : LinesPlan α :=
  let innerBound (length : Length α) : Extent α :=
    length.resolve c.ownerMain - Extent.of (n.frameFor c.mainAxis c.ownerWidth)
  let overflows := c.mainMode != .undefined && (Extent.of totalBasis).gt c.innerMain
  let wraps := n.style.flexWrap != .noWrap
  { mainMode := if wraps && overflows && c.mainMode == .atMost then .exactly else c.mainMode
    overflows := overflows
    minInnerMain := innerBound (n.style.minSize.get c.mainAxis.dimension)
    maxInnerMain := innerBound (n.style.maxSize.get c.mainAxis.dimension)
    leadingFrameCross := n.leadingFrame c.crossAxis c.ownerWidth
    frameCross := n.frameFor c.crossAxis c.ownerWidth }

def boundCross (c : Container α) (n : Node α) (frame cross : α) : α :=
  n.bound c.crossAxis (.of (cross + frame)) c.ownerCross c.ownerWidth - frame

end Container

namespace Pass

/-- Collects the line at the front of `children` and flexes it; also returns the space on the main
axis that the line has. -/
def flexFront (visit : Visitor α) (c : Container α) (plan : LinesPlan α) (children : List NodeId)
    (s : LinesState α) : (Line α × Extent α) × Pass α :=
  let (line, p) := s.pass.collectLine c s.innerMain children s.count
  let legacy := (p.node c.id).config.legacyStretch
  let span := Container.lineSpan plan s.innerMain line.consumed
  let p := p.updateGeometryIf (span.byContent && legacy) c.id fun g =>
    { g with usedLegacyStretch := true }
  let free := Container.freeSpace span.innerMain (span.byContent && !legacy) line.consumed
  let line := { line with space := { line.space with free := free } }
  -- Measuring with an exact cross size needs no flexing.
  let skipsFlex := !c.performLayout && c.crossMode == .exactly
  let (line, p) :=
    if skipsFlex then (line, p) else p.flexLine visit c span.innerMain plan.overflows line
  let clips := (p.node c.id).style.overflow != .visible
  ((line, span.innerMain), p.updateGeometryIf (clips && line.space.free < 0) c.id fun g =>
    { g with hadOverflow := true })

def layLine (visit : Visitor α) (c : Container α) (plan : LinesPlan α) (children : List NodeId)
    (s : LinesState α) : Nat × LinesState α :=
  let ((line, innerMain), p) := flexFront visit c plan children s
  let lineChildren := children.take line.length
  let (line, p) := p.justifyLine c plan.mainMode innerMain lineChildren line
  let n := p.node c.id
  let room : Extent α :=
    if c.crossMode == .exactly then c.innerCross
    else .of (c.boundCross n plan.frameCross line.crossSize)
  let crossSize := c.boundCross n plan.frameCross
    (if n.style.flexWrap == .noWrap && c.crossMode == .exactly then
        c.innerCross.getD line.crossSize
      else line.crossSize)
  let p := if c.performLayout then
      p.alignLine visit c ⟨innerMain, room, crossSize, s.totalCross, plan.leadingFrameCross⟩
        lineChildren
    else p
  (line.length,
    { innerMain := innerMain
      count := s.count + 1
      totalCross := s.totalCross + crossSize
      maxMain := Scalar.max s.maxMain line.mainSize
      pass := p })

/-- Lays out the lines of `children`. Every line takes at least one child, so `fuel` need not
exceed their number. -/
def layLines (visit : Visitor α) (c : Container α) (plan : LinesPlan α) :
    Nat → List NodeId → LinesState α → LinesState α
  | 0, _, s => s
  | _, [], s => s
  | fuel + 1, children, s =>
    let (length, s) := layLine visit c plan children s
    layLines visit c plan fuel (children.drop length) s

end Pass

namespace Container

/-- The size of a container on one axis: what was offered unless its content of size `content`
decides, which under a bound it does up to the bound if the container scrolls. -/
def finalSize (c : Container α) (n : Node α) (axis : FlexDirection) (mode : MeasureMode)
    (offered inner ownerSize : Extent α) (frame content : α) : α :=
  match mode, n.style.overflow with
  | .undefined, _ | .atMost, .visible | .atMost, .hidden =>
    n.bound axis (.of content) ownerSize c.ownerWidth
  | .atMost, .scroll =>
    let fitting := (inner + Extent.of frame).min (n.clamp axis (.of content) ownerSize)
    (fitting.max (.of frame)).getD frame
  | .exactly, _ =>
    let axis : FlexDirection := if axis.isRow then .row else .column
    n.bound axis (offered - Extent.of (n.marginFor axis c.ownerWidth)) ownerSize c.ownerWidth

def finalSizes (c : Container α) (n : Node α) (plan : LinesPlan α) (r : Request α)
    (innerMain : Extent α) (maxMain totalCross : α) : α × α :=
  let offered (axis : FlexDirection) : Extent α :=
    if axis.isRow then r.width.size else r.height.size
  let frameMain := n.frameFor c.mainAxis r.ownerWidth
  let frameCross := n.frameFor c.crossAxis r.ownerWidth
  (c.finalSize n c.mainAxis plan.mainMode (offered c.mainAxis) innerMain c.ownerMain frameMain
      maxMain,
    c.finalSize n c.crossAxis c.crossMode (offered c.crossAxis) c.innerCross c.ownerCross frameCross
      (totalCross + frameCross))

end Container

namespace Pass

def reverseLines (c : Container α) (crossSize : α) (p : Pass α) : Pass α :=
  (p.children c.id).foldl (fun p child =>
    let n := p.node child
    if n.style.positionType == .relative then
      p.shiftBy child c.crossAxis.leading fun x => crossSize - x - n.measuredSize c.crossAxis
    else p) p

def setTrailings (c : Container α) (p : Pass α) : Pass α :=
  if c.mainAxis.isReverse || c.crossAxis.isReverse then
    (p.children c.id).foldl (fun p child =>
      if (p.node child).isHidden then p
      else
        let p := if c.mainAxis.isReverse then p.setTrailing c c.mainAxis child else p
        if c.crossAxis.isReverse then p.setTrailing c c.crossAxis child else p) p
  else p

def placeRest (visit : Visitor α) (c : Container α) (mainMode : MeasureMode) (crossSize : α)
    (p : Pass α) : Pass α :=
  let p := if (p.node c.id).style.flexWrap == .wrapReverse then p.reverseLines c crossSize else p
  let widthMode := if c.isRow then mainMode else c.crossMode
  let p := (p.children c.id).foldl (fun p child =>
    if (p.node child).isAbsolute then p.layAbsolute visit c widthMode child else p) p
  p.setTrailings c

def spreadLines (visit : Visitor α) (c : Container α) (leadingFrame : α) (s : LinesState α) :
    Pass α :=
  if c.performLayout && (1 < s.count || s.pass.hasBaselineChildren c.id) then
    s.pass.alignContent visit c s.count s.totalCross leadingFrame
  else s.pass

def layLinesAndSize (visit : Visitor α) (c : Container α) (plan : LinesPlan α) (r : Request α)
    (p : Pass α) : Pass α :=
  let children := p.children c.id
  let s := layLines visit c plan children.length children ⟨c.innerMain, 0, 0, 0, p⟩
  let p := spreadLines visit c plan.leadingFrameCross s
  let (mainSize, crossSize) :=
    c.finalSizes (p.node c.id) plan r s.innerMain s.maxMain s.totalCross
  let p := if c.isRow then p.setMeasured c.id mainSize crossSize
    else p.setMeasured c.id crossSize mainSize
  if c.performLayout then p.placeRest visit c plan.mainMode crossSize else p

def layContainer (visit : Visitor α) (id : NodeId) (direction : Direction) (r : Request α)
    (p : Pass α) : Pass α :=
  let p := (p.ownChildren id).updateGeometry id fun g => { g with hadOverflow := false }
  let n := p.node id
  let c := Container.ofRequest n id direction r
  let (totalBasis, p) := p.basisOfChildren visit c
  p.layLinesAndSize visit c (c.linesPlan n totalBasis) r

end Pass

end Flexbox
