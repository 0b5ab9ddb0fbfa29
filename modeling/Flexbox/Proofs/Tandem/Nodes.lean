import Flexbox.Proofs.Mirror.Axes
import Mathlib.Algebra.GroupWithZero.Nat
import Mathlib.Data.List.Basic

namespace Flexbox

variable {α : Type}

def Direction.turn (e : Bool) (d : Direction) : Direction := bif e then d.mirror else d

def Side.turn (e : Bool) (s : Side) : Side := bif e then s.mirror else s

def FlexDirection.turn (e : Bool) (d : FlexDirection) : FlexDirection := bif e then d.mirror else d

def Style.turn {α : Type} (e : Bool) (s : Style α) : Style α := bif e then s.mirror else s

def Request.mirror {α : Type} (r : Request α) : Request α :=
  { r with ownerDirection := r.ownerDirection.mirror }

def Request.turn {α : Type} (e : Bool) (r : Request α) : Request α :=
  { r with ownerDirection := r.ownerDirection.turn e }

/-- The container as a pass sees it that looks at the mirror image if `e`. -/
def Container.turn {α : Type} (e : Bool) (c : Container α) : Container α :=
  { c with
    direction := c.direction.turn e
    mainAxis := c.mainAxis.turn e
    crossAxis := c.crossAxis.turn e }

theorem Side.turn_top (e : Bool) : Side.top.turn e = .top := by
  cases e <;> rfl

namespace FlexDirection

variable (e : Bool) (axis : FlexDirection)

theorem turn_column : FlexDirection.column.turn e = .column := by
  cases e <;> rfl

@[simp] theorem turn_isRow : (axis.turn e).isRow = axis.isRow := by
  cases e <;> cases axis <;> rfl

@[simp] theorem turn_dimension : (axis.turn e).dimension = axis.dimension := by
  cases e <;> cases axis <;> rfl

@[simp] theorem turn_leading : (axis.turn e).leading = axis.leading.turn e := by
  cases e <;> cases axis <;> rfl

end FlexDirection

namespace Container

variable (e : Bool) (c : Container α)

@[simp] theorem turn_id : (c.turn e).id = c.id := rfl

@[simp] theorem turn_direction : (c.turn e).direction = c.direction.turn e := rfl

@[simp] theorem turn_mainAxis : (c.turn e).mainAxis = c.mainAxis.turn e := rfl

@[simp] theorem turn_crossAxis : (c.turn e).crossAxis = c.crossAxis.turn e := rfl

@[simp] theorem turn_isRow : (c.turn e).isRow = c.isRow := c.mainAxis.turn_isRow e

@[simp] theorem turn_innerMain : (c.turn e).innerMain = c.innerMain := by
  rw [innerMain, turn_isRow]
  rfl

@[simp] theorem turn_innerCross : (c.turn e).innerCross = c.innerCross := by
  rw [innerCross, turn_isRow]
  rfl

@[simp] theorem turn_ownerMain : (c.turn e).ownerMain = c.ownerMain := by
  rw [ownerMain, turn_isRow]
  rfl

@[simp] theorem turn_ownerCross : (c.turn e).ownerCross = c.ownerCross := by
  rw [ownerCross, turn_isRow]
  rfl

@[simp] theorem turn_mainMode : (c.turn e).mainMode = c.mainMode := by
  rw [mainMode, turn_isRow]
  rfl

@[simp] theorem turn_crossMode : (c.turn e).crossMode = c.crossMode := by
  rw [crossMode, turn_isRow]
  rfl

@[simp] theorem turn_innerWidth : (c.turn e).innerWidth = c.innerWidth := rfl

@[simp] theorem turn_innerHeight : (c.turn e).innerHeight = c.innerHeight := rfl

@[simp] theorem turn_ownerWidth : (c.turn e).ownerWidth = c.ownerWidth := rfl

@[simp] theorem turn_widthMode : (c.turn e).widthMode = c.widthMode := rfl

@[simp] theorem turn_heightMode : (c.turn e).heightMode = c.heightMode := rfl

@[simp] theorem turn_performLayout : (c.turn e).performLayout = c.performLayout := rfl

@[simp] theorem turn_request (direction : Direction) (main cross : Offer α) (performLayout : Bool) :
    (c.turn e).request (direction.turn e) main cross performLayout =
      (c.request direction main cross performLayout).turn e := by
  simp only [request, turn_isRow]
  rfl

end Container

namespace Node

variable {e : Bool} {n m parent parent' : Node α}

/-- The number of automatic margins along an axis. -/
def autoCount (n : Node α) (axis : FlexDirection) : Nat :=
  (if (n.leadingMarginValue axis).isAuto then 1 else 0) +
    (if (n.trailingMarginValue axis).isAuto then 1 else 0)

/-- The other node is this one, or its image if `e`, with whatever the solver wrote on it and
whatever children it has. -/
def Faces (e : Bool) (n m : Node α) : Prop :=
  m = { n with
    style := n.style.turn e
    children := m.children
    geometry := m.geometry
    sharedCount := m.sharedCount
    line := m.line
    resolvedSize := m.resolvedSize
    hasNewLayout := m.hasNewLayout
    isDirty := m.isDirty }

theorem Faces.refl (n : Node α) : n.Faces false n := rfl

theorem Faces.same {β : Type} (h : n.Faces e m) (f : Node α → β)
    (hf : ∀ e (m : Node α), f { n with
      style := n.style.turn e
      children := m.children
      geometry := m.geometry
      sharedCount := m.sharedCount
      line := m.line
      resolvedSize := m.resolvedSize
      hasNewLayout := m.hasNewLayout
      isDirty := m.isDirty } = f n) : f m = f n := by
  rw [h]
  exact hf e m

section

variable (h : n.Faces e m)

include h

theorem Faces.config : m.config = n.config := h.same Node.config fun _ _ => rfl

theorem Faces.style : m.style = n.style.turn e := by
  rw [h]

theorem Faces.isHidden : m.isHidden = n.isHidden :=
  h.same Node.isHidden fun e _ => by cases e <;> rfl

theorem Faces.isAbsolute : m.isAbsolute = n.isAbsolute :=
  h.same Node.isAbsolute fun e _ => by cases e <;> rfl

theorem Faces.isInFlow : m.isInFlow = n.isInFlow :=
  h.same Node.isInFlow fun e _ => by cases e <;> rfl

theorem Faces.positionType : m.style.positionType = n.style.positionType :=
  h.same (fun n => n.style.positionType) fun e _ => by cases e <;> rfl

theorem Faces.aspectRatio : m.style.aspectRatio = n.style.aspectRatio :=
  h.same (fun n => n.style.aspectRatio) fun e _ => by cases e <;> rfl

theorem Faces.flexWrap : m.style.flexWrap = n.style.flexWrap :=
  h.same (fun n => n.style.flexWrap) fun e _ => by cases e <;> rfl

theorem Faces.overflow : m.style.overflow = n.style.overflow :=
  h.same (fun n => n.style.overflow) fun e _ => by cases e <;> rfl

theorem Faces.justifyContent : m.style.justifyContent = n.style.justifyContent :=
  h.same (fun n => n.style.justifyContent) fun e _ => by cases e <;> rfl

theorem Faces.alignContent : m.style.alignContent = n.style.alignContent :=
  h.same (fun n => n.style.alignContent) fun e _ => by cases e <;> rfl

theorem Faces.minSize : m.style.minSize = n.style.minSize :=
  h.same (fun n => n.style.minSize) fun e _ => by cases e <;> rfl

theorem Faces.maxSize : m.style.maxSize = n.style.maxSize :=
  h.same (fun n => n.style.maxSize) fun e _ => by cases e <;> rfl

end

theorem Faces.alignOf (h : parent.Faces e parent') (hn : n.Faces e m) :
    parent'.alignOf m = parent.alignOf n := by
  rw [h, hn]
  cases e <;> rfl

variable [Scalar α]

section

variable (h : n.Faces e m)

include h

theorem Faces.isFlexible : m.isFlexible = n.isFlexible :=
  h.same Node.isFlexible fun e _ => by cases e <;> rfl

theorem Faces.resolveGrow : m.resolveGrow = n.resolveGrow :=
  h.same Node.resolveGrow fun e _ => by cases e <;> rfl

theorem Faces.resolveShrink : m.resolveShrink = n.resolveShrink :=
  h.same Node.resolveShrink fun e _ => by cases e <;> rfl

theorem Faces.resolveFlexBasis : m.resolveFlexBasis = n.resolveFlexBasis :=
  h.same Node.resolveFlexBasis fun e _ => by cases e <;> rfl

end

section Axis

variable (h : n.Faces e m) (axis : FlexDirection)

include h

section

omit [Scalar α]

theorem Faces.leadingMarginValue :
    m.leadingMarginValue (axis.turn e) = n.leadingMarginValue axis := by
  rw [h]
  cases e <;> cases axis <;> rfl

theorem Faces.trailingMarginValue :
    m.trailingMarginValue (axis.turn e) = n.trailingMarginValue axis := by
  rw [h]
  cases e <;> cases axis <;> rfl

theorem Faces.autoCount : m.autoCount (axis.turn e) = n.autoCount axis := by
  rw [Node.autoCount, h.leadingMarginValue, h.trailingMarginValue, Node.autoCount]

end

theorem Faces.leadingMargin (width : Extent α) :
    m.leadingMargin (axis.turn e) width = n.leadingMargin axis width := by
  rw [h]
  cases e <;> cases axis <;> rfl

theorem Faces.trailingMargin (width : Extent α) :
    m.trailingMargin (axis.turn e) width = n.trailingMargin axis width := by
  rw [h]
  cases e <;> cases axis <;> rfl

theorem Faces.marginFor (width : Extent α) :
    m.marginFor (axis.turn e) width = n.marginFor axis width := by
  rw [Node.marginFor, h.leadingMargin, h.trailingMargin]
  rfl

theorem Faces.leadingBorder : m.leadingBorder (axis.turn e) = n.leadingBorder axis := by
  rw [h]
  cases e <;> cases axis <;> rfl

theorem Faces.trailingBorder : m.trailingBorder (axis.turn e) = n.trailingBorder axis := by
  rw [h]
  cases e <;> cases axis <;> rfl

theorem Faces.leadingFrame (width : Extent α) :
    m.leadingFrame (axis.turn e) width = n.leadingFrame axis width := by
  rw [h]
  cases e <;> cases axis <;> rfl

theorem Faces.trailingFrame (width : Extent α) :
    m.trailingFrame (axis.turn e) width = n.trailingFrame axis width := by
  rw [h]
  cases e <;> cases axis <;> rfl

theorem Faces.frameFor (width : Extent α) :
    m.frameFor (axis.turn e) width = n.frameFor axis width := by
  rw [Node.frameFor, h.leadingFrame, h.trailingFrame]
  rfl

section

omit [Scalar α]

theorem Faces.leadingInset : m.leadingInset (axis.turn e) = n.leadingInset axis := by
  rw [h]
  cases e <;> cases axis <;> rfl

theorem Faces.trailingInset : m.trailingInset (axis.turn e) = n.trailingInset axis := by
  rw [h]
  cases e <;> cases axis <;> rfl

theorem Faces.hasLeadingInset : m.hasLeadingInset (axis.turn e) = n.hasLeadingInset axis := by
  rw [Node.hasLeadingInset, h.leadingInset, Node.hasLeadingInset]

theorem Faces.hasTrailingInset : m.hasTrailingInset (axis.turn e) = n.hasTrailingInset axis := by
  rw [Node.hasTrailingInset, h.trailingInset, Node.hasTrailingInset]

end

theorem Faces.leadingPosition (size : Extent α) :
    m.leadingPosition (axis.turn e) size = n.leadingPosition axis size := by
  rw [Node.leadingPosition, h.leadingInset, Node.leadingPosition]

theorem Faces.trailingPosition (size : Extent α) :
    m.trailingPosition (axis.turn e) size = n.trailingPosition axis size := by
  rw [Node.trailingPosition, h.trailingInset, Node.trailingPosition]

theorem Faces.clamp (value size : Extent α) :
    m.clamp (axis.turn e) value size = n.clamp axis value size := by
  rw [Node.clamp, h.minSize, h.maxSize, FlexDirection.turn_dimension]
  rfl

theorem Faces.bound (value size width : Extent α) :
    m.bound (axis.turn e) value size width = n.bound axis value size width := by
  rw [Node.bound, h.clamp, h.frameFor, Node.bound]

theorem Faces.cap (ownerSize ownerWidth : Extent α) (offer : Offer α) :
    m.cap (axis.turn e) ownerSize ownerWidth offer = n.cap axis ownerSize ownerWidth offer := by
  rw [Node.cap, h.maxSize, h.marginFor, FlexDirection.turn_dimension]
  rfl

theorem Faces.outerSize (hm : m.geometry.measured = n.geometry.measured) (width : Extent α) :
    m.outerSize (axis.turn e) width = n.outerSize axis width := by
  rw [Node.outerSize, h.marginFor, Node.measuredSize, Geometry.measuredSize, hm,
    FlexDirection.turn_dimension]
  rfl

theorem Faces.clampedBasis (hb : m.geometry.flexBasis = n.geometry.flexBasis)
    (ownerMain : Extent α) :
    m.clampedBasis (axis.turn e) ownerMain = n.clampedBasis axis ownerMain := by
  rw [Node.clampedBasis, h.clamp, hb, Node.clampedBasis]

end Axis

theorem measuredSize_turn (hm : m.geometry.measured = n.geometry.measured) (axis : FlexDirection) :
    m.measuredSize (axis.turn e) = n.measuredSize axis := by
  rw [measuredSize, Geometry.measuredSize, hm, FlexDirection.turn_dimension]
  rfl

theorem hasDefiniteSize_turn (hs : m.resolvedSize = n.resolvedSize) (axis : FlexDirection)
    (size : Extent α) : m.hasDefiniteSize (axis.turn e) size = n.hasDefiniteSize axis size := by
  rw [hasDefiniteSize, hs, FlexDirection.turn_dimension]
  rfl

theorem hasDefiniteSize_same (hs : m.resolvedSize = n.resolvedSize) :
    m.hasDefiniteSize = n.hasDefiniteSize := by
  funext axis size
  rw [hasDefiniteSize, hs]
  rfl

theorem preferredSize_same (hs : m.resolvedSize = n.resolvedSize) :
    m.preferredSize = n.preferredSize := by
  funext axis size
  rw [preferredSize, hs]
  rfl

/-- What two nodes come to along an axis is the same, whichever side it starts from. -/
structure Level (n m : Node α) : Prop where
  margins : ∀ axis width, m.marginFor axis width = n.marginFor axis width
  frames : ∀ axis width, m.frameFor axis width = n.frameFor axis width
  borders : ∀ axis, m.leadingBorder axis + m.trailingBorder axis =
    n.leadingBorder axis + n.trailingBorder axis
  insets : ∀ axis, (m.hasLeadingInset axis && m.hasTrailingInset axis) =
    (n.hasLeadingInset axis && n.hasTrailingInset axis)
  places : ∀ axis size, m.leadingPosition axis size + m.trailingPosition axis size =
    n.leadingPosition axis size + n.trailingPosition axis size

theorem Faces.level (h : n.Faces false m) : n.Level m where
  margins axis width := h.marginFor axis width
  frames axis width := h.frameFor axis width
  borders axis := by rw [← h.leadingBorder axis, ← h.trailingBorder axis]; rfl
  insets axis := by rw [← h.hasLeadingInset axis, ← h.hasTrailingInset axis]; rfl
  places axis size := by rw [← h.leadingPosition axis, ← h.trailingPosition axis]; rfl

section

variable (h : n.Faces e m) (hl : n.Level m)

include h hl

theorem Faces.bound_same (axis : FlexDirection) (value size width : Extent α) :
    m.bound axis value size width = n.bound axis value size width := by
  rw [Node.bound, Node.clamp, h.minSize, h.maxSize, hl.frames]
  rfl

theorem Faces.cap_same (axis : FlexDirection) (ownerSize ownerWidth : Extent α) (offer : Offer α) :
    m.cap axis ownerSize ownerWidth offer = n.cap axis ownerSize ownerWidth offer := by
  rw [Node.cap, h.maxSize, hl.margins]
  rfl

end

end Node

namespace Container

variable {e : Bool} {c : Container α} {n m parent parent' : Node α}
  {f g : NodeId → Node α} {xs : List NodeId}

/-- The automatic margins of a line are counted child by child. -/
theorem autoMargins_eq (c : Container α) (ns : List (Node α)) : c.autoMargins ns =
    ((ns.filter fun n => n.style.positionType == .relative).map (·.autoCount c.mainAxis)).sum := by
  rw [List.sum_eq_foldl, List.foldl_map]
  exact congrArg (fun f => List.foldl f 0 _) (funext₂ fun _ _ => Nat.add_assoc ..)

theorem autoMargins_turn {keep : NodeId → Bool}
    (h : ∀ x ∈ xs, keep x = true → (f x).Faces e (g x))
    (hno : ∀ x ∈ xs, keep x = false →
      (f x).isAbsolute = true ∨ (f x).hasAutoMargin c.mainAxis = false) :
    (c.turn e).autoMargins ((xs.filter keep).map g) = c.autoMargins (xs.map f) := by
  rw [autoMargins_eq, autoMargins_eq]
  induction xs with
  | nil => rfl
  | cons x xs ih =>
    have ih := ih (fun y hy => h y (by simp [hy])) fun y hy => hno y (by simp [hy])
    cases hkeep : keep x with
    | true =>
      have hx := h x (by simp) hkeep
      simp only [List.filter_cons, hkeep, if_true, List.map_cons, hx.positionType]
      split
      · rw [List.map_cons, List.map_cons, List.sum_cons, List.sum_cons, ih, turn_mainAxis,
          hx.autoCount]
      · exact ih
    | false =>
      rw [List.filter_cons_of_neg (by simp [hkeep]), ih, List.map_cons, List.filter_cons]
      split
      · rename_i hrelative
        have hauto := (hno x (by simp) hkeep).resolve_left
          (by simp [Node.isAbsolute, eq_of_beq hrelative])
        simp only [Node.hasAutoMargin, Bool.or_eq_false_iff] at hauto
        rw [List.map_cons, List.sum_cons, Node.autoCount, hauto.1, hauto.2]
        simp
      · rfl

variable [Scalar α]

theorem loneFlexible_turn (h : ∀ x ∈ xs, (f x).Faces e (g x)) (found : Option NodeId) :
    loneFlexible (xs.map fun x => (x, g x)) found =
      loneFlexible (xs.map fun x => (x, f x)) found := by
  induction xs generalizing found with
  | nil => rfl
  | cons x xs ih =>
    have hx := h x (by simp)
    have ih := ih fun y hy => h y (by simp [hy])
    simp only [List.map_cons, loneFlexible, hx.isFlexible, hx.resolveGrow, hx.resolveShrink, ih]

theorem flexItem_turn (hn : n.Faces e m) (hb : m.geometry.flexBasis = n.geometry.flexBasis)
    (innerMain : Extent α) (id : NodeId) :
    (c.turn e).flexItem innerMain id m = c.flexItem innerMain id n := by
  simp only [flexItem, turn_mainAxis, turn_ownerMain, turn_innerWidth, hn.clampedBasis _ hb,
    hn.bound, hn.resolveGrow, hn.resolveShrink]

theorem basisIsStale_of_keep {generation : UInt32}
    (h : c.planBasis generation parent n = .keep) : basisIsStale n generation = false := by
  by_contra hstale
  simp only [planBasis, Bool.not_eq_false] at h hstale
  simp only [hstale, if_true] at h
  repeat' split at h
  all_goals cases h

section

variable (hp : parent.Faces e parent')

include hp

section

variable (hn : n.Faces e m) (hs : m.resolvedSize = n.resolvedSize)

include hn hs

theorem stretchesChild_turn :
    (c.turn e).stretchesChild parent' m = c.stretchesChild parent n := by
  simp only [stretchesChild, Node.hasAutoMargin, turn_crossAxis, turn_innerCross,
    Node.hasDefiniteSize_turn hs, hp.alignOf hn, hn.leadingMarginValue, hn.trailingMarginValue]

theorem crossOffer_turn (size : α) (overflows : Bool) :
    (c.turn e).crossOffer parent' m size overflows = c.crossOffer parent n size overflows := by
  simp only [crossOffer, turn_crossAxis, turn_innerCross, turn_innerWidth, turn_isRow,
    turn_crossMode, hn.marginFor, hp.flexWrap, hn.aspectRatio, Node.hasDefiniteSize_turn hs,
    stretchesChild_turn hp hn hs, hs, FlexDirection.turn_dimension]

theorem basisOffers_turn (hl : n.Level m) :
    (c.turn e).basisOffers parent' m = c.basisOffers parent n := by
  simp only [basisOffers, turn_isRow, turn_innerWidth, turn_innerHeight, turn_widthMode,
    turn_heightMode, hl.margins, Node.hasDefiniteSize_same hs, Node.preferredSize_same hs,
    hp.overflow, hn.aspectRatio, hp.alignOf hn, hn.cap_same hl]

theorem planBasis_turn (hl : n.Level m) {generation generation' : UInt32}
    (hstale : basisIsStale m generation' = basisIsStale n generation) :
    (c.turn e).planBasis generation' parent' m = c.planBasis generation parent n := by
  simp only [planBasis, turn_isRow, turn_innerMain, turn_mainAxis, turn_innerWidth,
    hn.resolveFlexBasis, hstale, hn.frameFor, hl.frames, Node.hasDefiniteSize_same hs,
    Node.preferredSize_same hs, basisOffers_turn hp hn hs hl]

end

theorem spaceToSpread_turn (mainMode : MeasureMode) (innerMain : Extent α) (free : α) :
    (c.turn e).spaceToSpread parent' mainMode innerMain free =
      c.spaceToSpread parent mainMode innerMain free := by
  simp only [spaceToSpread, turn_mainAxis, turn_ownerMain, turn_ownerWidth, hp.minSize,
    hp.leadingFrame, hp.trailingFrame, FlexDirection.turn_dimension]

theorem boundCross_turn (frame cross : α) :
    (c.turn e).boundCross parent' frame cross = c.boundCross parent frame cross := by
  simp only [boundCross, turn_crossAxis, turn_ownerCross, turn_ownerWidth, hp.bound]

theorem linesPlan_turn (total : α) :
    (c.turn e).linesPlan parent' total = c.linesPlan parent total := by
  simp only [linesPlan, turn_mainAxis, turn_crossAxis, turn_ownerMain, turn_ownerWidth,
    turn_mainMode, turn_innerMain, hp.frameFor, hp.leadingFrame, hp.flexWrap, hp.minSize,
    hp.maxSize, FlexDirection.turn_dimension]

theorem finalSizes_turn (hl : parent.Level parent') (plan : LinesPlan α) (r : Request α)
    (innerMain : Extent α) (maxMain totalCross : α) :
    (c.turn e).finalSizes parent' plan (r.turn e) innerMain maxMain totalCross =
      c.finalSizes parent plan r innerMain maxMain totalCross := by
  simp only [finalSizes, finalSize, turn_mainAxis, turn_crossAxis, turn_ownerMain, turn_ownerCross,
    turn_ownerWidth, turn_innerCross, turn_crossMode, hp.frameFor, hp.bound, hp.bound_same hl,
    hp.clamp, hl.margins, hp.overflow, FlexDirection.turn_isRow, Request.turn]

section

variable (hn : n.Faces e m) (hpm : parent'.geometry.measured = parent.geometry.measured)

include hn hpm

theorem absolutePosition_turn (hm : m.geometry.measured = n.geometry.measured)
    (axis : FlexDirection) (size : Extent α) (centered atEnd : Bool) :
    (c.turn e).absolutePosition parent' m (axis.turn e) size centered atEnd =
      c.absolutePosition parent n axis size centered atEnd := by
  simp only [absolutePosition, turn_innerWidth, Node.measuredSize_turn hpm,
    Node.measuredSize_turn hm, hn.hasLeadingInset, hn.hasTrailingInset, hp.trailingBorder,
    hn.trailingMargin, hn.trailingPosition]

omit hp in
theorem absoluteSizes_turn (hs : m.resolvedSize = n.resolvedSize) (hl : n.Level m)
    (hpl : parent.Level parent') :
    (c.turn e).absoluteSizes parent' m = c.absoluteSizes parent n := by
  have hsize : ∀ axis size margin, (c.turn e).absoluteSize parent' m axis size margin =
      c.absoluteSize parent n axis size margin := by
    intro axis size margin
    simp only [absoluteSize, turn_innerWidth, Node.hasDefiniteSize_same hs,
      Node.preferredSize_same hs, Node.measuredSize, Geometry.measuredSize, hpm, hpl.borders,
      hl.insets, hl.places, hn.bound_same hl]
  simp only [absoluteSizes, turn_innerWidth, turn_innerHeight, hl.margins, hsize, hn.aspectRatio]

end

end

theorem stretchRequest_turn (hn : n.Faces e m) (hm : m.geometry.measured = n.geometry.measured)
    (innerMain : Extent α) (lineCross : α) :
    (c.turn e).stretchRequest innerMain lineCross m =
      (c.stretchRequest innerMain lineCross n).turn e := by
  simp only [stretchRequest, turn_mainAxis, turn_crossAxis, turn_innerCross, turn_innerWidth,
    turn_isRow, turn_direction, turn_request, Node.measuredSize_turn hm, hn.aspectRatio,
    hn.marginFor, hn.cap]

end Container

namespace Line

variable [Scalar α] {e : Bool} {c : Container α} {xs : List NodeId}
  {f g : NodeId → Node α} {keep : NodeId → Bool}

def spanning (line : Line α) (length : Nat) : Line α := { line with length := length }

section

variable (h : ∀ x ∈ xs, keep x = true → (f x).Faces e (g x))
  (hb : ∀ x ∈ xs, keep x = true → (f x).isInFlow = true →
    (g x).geometry.flexBasis = (f x).geometry.flexBasis)
  (hskip : ∀ x ∈ xs, keep x = false → (f x).isInFlow = false)

include h hb hskip

theorem fill_turn (wraps : Bool) (ownerMain innerMain : Extent α) (line : Line α) (length : Nat) :
    ∃ k, (fill c wraps ownerMain innerMain (xs.map fun x => (x, f x)) line).length =
        line.length + k ∧
      fill (c.turn e) wraps ownerMain innerMain ((xs.filter keep).map fun x => (x, g x))
          (line.spanning length) =
        (fill c wraps ownerMain innerMain (xs.map fun x => (x, f x)) line).spanning
          (length + ((xs.take k).filter keep).length) := by
  induction xs generalizing line length with
  | nil => exact ⟨0, rfl, rfl⟩
  | cons x xs ih =>
    have ih := ih (fun y hy => h y (by simp [hy])) (fun y hy => hb y (by simp [hy]))
      fun y hy => hskip y (by simp [hy])
    -- One child more is passed by, on both sides or on one alone.
    have hmore : ∀ next : Line α, next.length = line.length + 1 → ∀ length',
        length' = length + ([x].filter keep).length →
        ∃ k, (fill c wraps ownerMain innerMain (xs.map fun x => (x, f x)) next).length =
            line.length + k ∧
          fill (c.turn e) wraps ownerMain innerMain ((xs.filter keep).map fun x => (x, g x))
              (next.spanning length') =
            (fill c wraps ownerMain innerMain (xs.map fun x => (x, f x)) next).spanning
              (length + (((x :: xs).take k).filter keep).length) := by
      rintro next hnext _ rfl
      obtain ⟨k, hlength, hfill⟩ := ih next (length + ([x].filter keep).length)
      have htake : ((x :: xs).take (k + 1)).filter keep =
          [x].filter keep ++ (xs.take k).filter keep := by
        rw [← List.filter_append]
        rfl
      refine ⟨k + 1, by omega, ?_⟩
      rw [hfill, htake, List.length_append, Nat.add_assoc]
    cases hkeep : keep x with
    | false =>
      rw [List.filter_cons_of_neg (by simp [hkeep]), List.map_cons, fill,
        hskip x (by simp) hkeep]
      exact hmore line.skip rfl length (by simp [hkeep])
    | true =>
      have hx := h x (by simp) hkeep
      have hone : length + 1 = length + ([x].filter keep).length := by
        simp [hkeep]
      rw [List.filter_cons_of_pos hkeep, List.map_cons, List.map_cons, fill, fill, hx.isInFlow]
      cases hflow : (f x).isInFlow with
      | false => exact hmore line.skip rfl _ hone
      | true =>
        have hbasis := hb x (by simp) hkeep hflow
        have hitems : (line.spanning length).items = line.items := rfl
        have hconsumed : (line.spanning length).consumed = line.consumed := rfl
        simp only [Bool.not_true, Bool.false_eq_true, if_false, Container.turn_mainAxis,
          Container.turn_innerWidth, hx.marginFor, hx.clampedBasis _ hbasis, hitems, hconsumed]
        split
        · exact ⟨0, rfl, rfl⟩
        · have hadd : ∀ basis margin, (line.spanning length).add x (g x) basis margin =
              (line.add x (f x) basis margin).spanning (length + 1) := by
            intro basis margin
            simp only [add, spanning, hx.isFlexible, hx.resolveGrow, hx.resolveShrink, hbasis]
          rw [hadd]
          exact hmore _ rfl _ hone

theorem collect_turn (wraps : Bool) (ownerMain innerMain : Extent α) :
    collect (c.turn e) wraps ownerMain innerMain ((xs.filter keep).map fun x => (x, g x)) =
      (collect c wraps ownerMain innerMain (xs.map fun x => (x, f x))).spanning
        ((xs.take (collect c wraps ownerMain innerMain (xs.map fun x => (x, f x))).length).filter
          keep).length := by
  obtain ⟨k, hlength, hsame⟩ := fill_turn (c := c) h hb hskip wraps ownerMain innerMain empty 0
  obtain rfl : Line.length _ = k := hlength.trans (Nat.zero_add k)
  unfold collect
  rw [show (empty : Line α) = empty.spanning 0 from rfl, hsame, Nat.zero_add]
  rfl

end

end Line

end Flexbox
