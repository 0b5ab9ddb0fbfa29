import Flexbox.Proofs.Sizing.Boxes
import Flexbox.Proofs.Mirror.Passes

namespace Flexbox

variable {α : Type} [Scalar α]

open Scalar (IsNumber IsFinite Lawful)

namespace Offer

variable {o : Offer α} {x : α}

def Sound (o : Offer α) : Prop := o.size = .undefined → o.mode = .undefined

def Firm (o : Offer α) : Prop := o.mode = .exactly ∧ ∃ x, o.size = .known x ∧ IsNumber x

instance (o : Offer α) : Decidable o.Sound :=
  decidable_of_iff (o.size.isDefined = true ∨ o.mode = .undefined) <| by
    unfold Sound
    cases o.size <;> simp [Extent.isDefined]

omit [Scalar α] in
theorem sound_of_known (h : o.size = .known x) : o.Sound := fun hu => by
  rw [h] at hu
  cases hu

theorem Firm.sound (h : o.Firm) : o.Sound := by
  obtain ⟨-, x, hx, -⟩ := h
  exact sound_of_known hx

omit [Scalar α] in
theorem exact_sound (size : Extent α) : (Offer.exact size).Sound := by
  cases size with
  | undefined => exact fun _ => rfl
  | known x => exact sound_of_known rfl

theorem exact_firm (hx : IsNumber x) : (Offer.exact (.known x)).Firm :=
  ⟨rfl, x, rfl, hx⟩

omit [Scalar α] in
theorem Sound.known (h : o.Sound) (hm : o.mode = .exactly) : ∃ x, o.size = .known x := by
  cases hs : o.size with
  | undefined =>
    have hmode := h hs
    rw [hm] at hmode
    cases hmode
  | known x => exact ⟨x, rfl⟩

theorem of_firm (hx : IsNumber x) : (⟨.of x, .exactly⟩ : Offer α).Firm :=
  ⟨rfl, x, Extent.of_number hx, hx⟩

end Offer

namespace Extent

variable {x y : α}

omit [Scalar α] in
theorem isDefined_iff {e : Extent α} : e.isDefined = true ↔ ∃ x, e = .known x := by
  cases e <;> simp [isDefined]

theorem add_of [Lawful α] (hy : IsFinite y) : Extent.known x + Extent.of y = .known (x + y) := by
  rw [Extent.of_number (Lawful.finite_number hy)]
  rfl

theorem sub_of [Lawful α] (hy : IsFinite y) : Extent.known x - Extent.of y = .known (x - y) := by
  rw [Extent.of_number (Lawful.finite_number hy)]
  rfl

end Extent

namespace Offer

variable {o : Offer α}

theorem Firm.less [Lawful α] {margin : α} (ho : o.Firm) (hm : IsFinite margin) :
    ∃ x, o.size - Extent.of margin = .known x ∧ IsNumber x := by
  obtain ⟨-, x, hx, hn⟩ := ho
  exact ⟨x - margin, by rw [hx, Extent.sub_of hm], Lawful.sub_number hn hm⟩

theorem Firm.settles (ho : o.Firm) :
    ¬ (o.size.isUndefined || (o.mode == .atMost && o.size.holds fun x => x < 0)) = true := by
  obtain ⟨hm, x, hx, -⟩ := ho
  simp [hm, hx, Extent.isUndefined, Extent.isDefined]

end Offer

namespace Node

variable {n : Node α} {d : Dimension} {M : α} {axis : FlexDirection}
  {size width : Extent α} {o : Offer α}

/-- The margins of every axis have a finite sum when percentages are taken of `width`. -/
def Balanced (n : Node α) (width : Extent α) : Prop :=
  ∀ axis : FlexDirection, IsFinite (n.marginFor axis width)

def Degenerate (n : Node α) : Prop :=
  ∃ ratio, n.style.aspectRatio = .known ratio ∧ (¬ IsFinite ratio ∨ (ratio == 0) = true)

/-- The preferred size is what the style makes of it. -/
def IsSized (n : Node α) : Prop := n.resolvedSize = n.resolveSize.resolvedSize

theorem IsSized.congr {m : Node α} (h : n.IsSized) (hstyle : m.style = n.style)
    (hsize : m.resolvedSize = n.resolvedSize) : m.IsSized := by
  unfold IsSized Node.resolveSize at *
  rw [hsize, hstyle]
  exact h

/-- An offer to the node on the axis of a dimension, before its upper bound is applied. -/
structure Guides (n : Node α) (d : Dimension) (o : Offer α) : Prop where
  sound : o.Sound
  pinned : ∀ M, n.Pinned d M → o.mode = .exactly

structure Suits (n : Node α) (d : Dimension) (o : Offer α) : Prop where
  sound : ¬ n.Degenerate → o.Sound
  pinned : ∀ M, n.Pinned d M → o.Firm

theorem Pinned.resolved (h : n.Pinned d M) (hr : n.IsSized) :
    n.resolvedSize.get d = .points M := by
  obtain ⟨m, hm, hsame⟩ := h.same
  have hlength : (Length.points M == Length.points m) = true := hsame
  rw [hr]
  cases d with
  | width =>
    change (if (!(n.style.maxSize.get .width).isUndefined &&
      n.style.maxSize.get .width == n.style.minSize.get .width) = true then _ else _) = _
    rw [h.upper, hm, hlength]
    rfl
  | height =>
    change (if (!(n.style.maxSize.get .height).isUndefined &&
      n.style.maxSize.get .height == n.style.minSize.get .height) = true then _ else _) = _
    rw [h.upper, hm, hlength]
    rfl

theorem Pinned.definite (h : n.Pinned axis.dimension M) (hr : n.IsSized) (size : Extent α) :
    n.hasDefiniteSize axis size = true := by
  rw [hasDefiniteSize, h.resolved hr]
  exact decide_eq_true h.nonneg

variable [Lawful α]

theorem Pinned.preferred (h : n.Pinned axis.dimension M) (hr : n.IsSized) (size : Extent α) :
    n.preferredSize axis size = .known M := by
  rw [preferredSize, h.resolved hr]
  exact Extent.of_number h.number

theorem preferred_of_definite (h : n.hasDefiniteSize axis size = true) :
    ∃ x, n.preferredSize axis size = .known x := by
  unfold hasDefiniteSize at h
  unfold preferredSize
  split at h
  · cases h
  · cases h
  · rename_i x hx
    rw [hx]
    exact ⟨x, Extent.of_number (Lawful.le_number (of_decide_eq_true h)).2⟩
  · rename_i x hx
    rw [hx]
    obtain ⟨y, hy⟩ := Extent.isDefined_iff.mp (Bool.and_eq_true_iff.mp h).2
    rw [hy]
    exact ⟨_, rfl⟩

omit [Lawful α] in
theorem cap_sound (ho : o.Sound) : (n.cap axis size width o).Sound := by
  unfold cap
  dsimp only
  split
  · split
    · rename_i hmax
      obtain ⟨x, hx⟩ := Extent.isDefined_iff.mp (Bool.and_eq_true_iff.mp hmax).1
      exact Offer.sound_of_known hx
    · exact ho
  · split
    · rename_i hmax
      obtain ⟨x, hx⟩ := Extent.isDefined_iff.mp (Bool.and_eq_true_iff.mp hmax).1
      exact Offer.sound_of_known hx
    · exact ho
  · split
    · rename_i hmax
      obtain ⟨x, hx⟩ := Extent.isDefined_iff.mp hmax
      exact Offer.sound_of_known hx
    · exact ho

theorem Capped.cap_firm (h : n.Capped axis.dimension M) (size : Extent α) (hw : n.Balanced width)
    (ho : o.mode = .exactly) : (n.cap axis size width o).Firm := by
  have hsum := Lawful.add_number h.number (hw axis)
  have hmax : (n.style.maxSize.get axis.dimension).resolve size +
      Extent.of (n.marginFor axis width) = .known (M + n.marginFor axis width) := by
    rw [h.max_resolve, Extent.add_of (hw axis)]
  unfold cap
  simp only [hmax, ho, Extent.isDefined, Bool.true_and]
  split
  · exact ⟨rfl, _, rfl, hsum⟩
  · rename_i hlt
    cases hs : o.size with
    | undefined =>
      rw [hs] at hlt
      exact absurd rfl hlt
    | known x =>
      rw [hs, Bool.not_eq_true', Bool.not_eq_false, Extent.lt_known] at hlt
      exact ⟨ho, x, hs, (Lawful.le_number (Scalar.lt_le hlt)).1⟩

omit [Lawful α] in
theorem suits_of_firm (h : o.Firm) : n.Suits d o := ⟨fun _ => h.sound, fun _ _ => h⟩

theorem Guides.cap (axis : FlexDirection) (size : Extent α) (h : n.Guides axis.dimension o)
    (hw : n.Balanced width) :
    n.Suits axis.dimension (n.cap axis size width o) :=
  ⟨fun _ => cap_sound h.sound, fun M hM => hM.cap_firm size hw (h.pinned M hM)⟩

def preferredOffer (n : Node α) (axis : FlexDirection) (size width : Extent α) : Offer α :=
  if n.hasDefiniteSize axis size then
    ⟨n.preferredSize axis size + Extent.of (n.marginFor axis width), .exactly⟩
  else .none

/-- The space of the container in place of an offer without a size. -/
def boundedOffer (bounds : Bool) (inner : Extent α) (o : Offer α) : Offer α :=
  if bounds && o.size.isUndefined && inner.isDefined then ⟨inner, .atMost⟩ else o

theorem preferredOffer_guides (axis : FlexDirection) (size : Extent α) (hr : n.IsSized)
    (hw : n.Balanced width) :
    n.Guides axis.dimension (n.preferredOffer axis size width) := by
  unfold preferredOffer
  split
  · rename_i hdef
    obtain ⟨x, hx⟩ := preferred_of_definite hdef
    refine ⟨Offer.sound_of_known (x := x + n.marginFor axis width) ?_, fun _ _ => rfl⟩
    rw [hx, Extent.add_of (hw axis)]
  · rename_i hdef
    exact ⟨fun _ => rfl, fun M hM => absurd (hM.definite hr size) hdef⟩

omit [Lawful α] in
theorem boundedOffer_guides (h : n.Guides d o) (bounds : Bool) (inner : Extent α) :
    n.Guides d (boundedOffer bounds inner o) := by
  unfold boundedOffer
  split
  · rename_i hb
    simp only [Bool.and_eq_true] at hb
    obtain ⟨x, hx⟩ := Extent.isDefined_iff.mp hb.2
    refine ⟨Offer.sound_of_known hx, fun M hM => ?_⟩
    have hu : o.size = .undefined := by
      cases ho : o.size with
      | undefined => rfl
      | known y => simp [ho, Extent.isUndefined, Extent.isDefined] at hb
    have hmode := h.sound hu
    rw [h.pinned M hM] at hmode
    cases hmode
  · exact h

theorem rootOffer_suits (hr : n.IsSized) (hw : n.Balanced width) :
    n.Suits axis.dimension (n.rootOffer axis size width) := by
  unfold rootOffer
  split
  · rename_i hdef
    obtain ⟨x, hx⟩ := preferred_of_definite hdef
    refine ⟨fun _ => Offer.sound_of_known (x := x + n.marginFor axis width) ?_, fun M hM =>
      ⟨rfl, M + n.marginFor axis width, ?_, Lawful.add_number hM.number (hw axis)⟩⟩
    · rw [hx, Extent.add_of (hw axis)]
    · rw [hM.preferred hr, Extent.add_of (hw axis)]
  · rename_i hdef
    refine ⟨fun _ => ?_, fun M hM => absurd (hM.definite hr size) hdef⟩
    dsimp only
    split
    · rename_i hmax
      obtain ⟨x, hx⟩ := Extent.isDefined_iff.mp hmax
      exact Offer.sound_of_known hx
    · exact Offer.exact_sound size

end Node

namespace Container

variable {c : Container α} {parent n : Node α}

def ratioOffers (c : Container α) (n : Node α) (width height : Offer α) : Offer α × Offer α :=
  match n.style.aspectRatio with
  | .undefined => (width, height)
  | .known ratio =>
    if !c.isRow && width.mode == .exactly then
      (width, ⟨heightFor width.size (n.marginFor .row c.innerWidth) ratio +
        Extent.of (n.marginFor .column c.innerWidth), .exactly⟩)
    else if c.isRow && height.mode == .exactly then
      (⟨widthFor height.size (n.marginFor .column c.innerWidth) ratio +
        Extent.of (n.marginFor .row c.innerWidth), .exactly⟩, height)
    else (width, height)

/-- Offers of a column to a child that takes its whole width. -/
def stretchedWidth (c : Container α) (parent n : Node α) (width height : Offer α) :
    Offer α × Offer α :=
  if !c.isRow && !n.hasDefiniteSize .row c.innerWidth && c.innerWidth.isDefined &&
      c.widthMode == .exactly && parent.alignOf n == .stretch && width.mode != .exactly then
    (⟨c.innerWidth, .exactly⟩, match n.style.aspectRatio with
      | .known ratio => ⟨heightFor c.innerWidth (n.marginFor .row c.innerWidth) ratio, .exactly⟩
      | .undefined => height)
  else (width, height)

/-- Offers of a row to a child that takes its whole height. -/
def stretchedHeight (c : Container α) (parent n : Node α) (width height : Offer α) :
    Offer α × Offer α :=
  if c.isRow && !n.hasDefiniteSize .column c.innerHeight && c.innerHeight.isDefined &&
      c.heightMode == .exactly && parent.alignOf n == .stretch && height.mode != .exactly then
    (match n.style.aspectRatio with
      | .known ratio => ⟨widthFor c.innerHeight (n.marginFor .column c.innerWidth) ratio, .exactly⟩
      | .undefined => width, ⟨c.innerHeight, .exactly⟩)
  else (width, height)

variable [Lawful α] {width height : Offer α} {size : Extent α} {margin M x mainSize : α}

theorem heightFor_known (hs : size = .known x) (hm : IsFinite margin) (ratio : α) :
    heightFor size margin ratio = .known ((x - margin) / ratio) := by
  rw [heightFor, hs, Extent.sub_of hm]
  rfl

theorem widthFor_known (hs : size = .known x) (hm : IsFinite margin) (ratio : α) :
    widthFor size margin ratio = .known ((x - margin) * ratio) := by
  rw [widthFor, hs, Extent.sub_of hm]
  rfl

theorem ratioOffers_guides (hw : n.Balanced c.innerWidth) (h : n.Guides .width width)
    (h' : n.Guides .height height) :
    n.Guides .width (c.ratioOffers n width height).1 ∧
      n.Guides .height (c.ratioOffers n width height).2 := by
  unfold ratioOffers
  split
  · exact ⟨h, h'⟩
  rename_i ratio _
  split
  · rename_i hm
    simp only [Bool.and_eq_true, beq_iff_eq] at hm
    obtain ⟨x, hx⟩ := h.sound.known hm.2
    have hsize := Extent.add_of (x := (x - n.marginFor .row c.innerWidth) / ratio) (hw .column)
    rw [← heightFor_known hx (hw .row)] at hsize
    exact ⟨h, Offer.sound_of_known hsize, fun _ _ => rfl⟩
  split
  · rename_i hm
    simp only [Bool.and_eq_true, beq_iff_eq] at hm
    obtain ⟨x, hx⟩ := h'.sound.known hm.2
    have hsize := Extent.add_of (x := (x - n.marginFor .column c.innerWidth) * ratio) (hw .row)
    rw [← widthFor_known hx (hw .column)] at hsize
    exact ⟨⟨Offer.sound_of_known hsize, fun _ _ => rfl⟩, h'⟩
  · exact ⟨h, h'⟩

theorem stretchedWidth_guides (parent : Node α) (hw : n.Balanced c.innerWidth)
    (h : n.Guides .width width) (h' : n.Guides .height height) :
    n.Guides .width (c.stretchedWidth parent n width height).1 ∧
      n.Guides .height (c.stretchedWidth parent n width height).2 := by
  unfold stretchedWidth
  split
  · rename_i hs
    simp only [Bool.and_eq_true, Bool.not_eq_true'] at hs
    obtain ⟨⟨⟨⟨⟨-, hdef⟩, hinner⟩, -⟩, -⟩, -⟩ := hs
    obtain ⟨x, hx⟩ := Extent.isDefined_iff.mp hinner
    refine ⟨⟨Offer.sound_of_known hx, fun _ _ => rfl⟩, ?_⟩
    dsimp only
    split
    · exact ⟨Offer.sound_of_known (heightFor_known hx (hw .row) _), fun _ _ => rfl⟩
    · exact h'
  · exact ⟨h, h'⟩

theorem stretchedHeight_guides (parent : Node α) (hw : n.Balanced c.innerWidth)
    (h : n.Guides .width width) (h' : n.Guides .height height) :
    n.Guides .width (c.stretchedHeight parent n width height).1 ∧
      n.Guides .height (c.stretchedHeight parent n width height).2 := by
  unfold stretchedHeight
  split
  · rename_i hs
    simp only [Bool.and_eq_true, Bool.not_eq_true'] at hs
    obtain ⟨⟨⟨⟨⟨-, hdef⟩, hinner⟩, -⟩, -⟩, -⟩ := hs
    obtain ⟨x, hx⟩ := Extent.isDefined_iff.mp hinner
    refine ⟨?_, Offer.sound_of_known hx, fun _ _ => rfl⟩
    dsimp only
    split
    · exact ⟨Offer.sound_of_known (widthFor_known hx (hw .column) _), fun _ _ => rfl⟩
    · exact h
  · exact ⟨h, h'⟩

theorem basisOffers_suits (parent : Node α) (hr : n.IsSized) (hw : n.Balanced c.innerWidth) :
    n.Suits .width (c.basisOffers parent n).1 ∧ n.Suits .height (c.basisOffers parent n).2 := by
  have hwidth := Node.boundedOffer_guides (Node.preferredOffer_guides .row c.innerWidth hr hw)
    (!c.isRow || !parent.style.overflow == .scroll) c.innerWidth
  have hheight := Node.boundedOffer_guides (Node.preferredOffer_guides .column c.innerHeight hr hw)
    (c.isRow || !parent.style.overflow == .scroll) c.innerHeight
  obtain ⟨h₁, h₁'⟩ := ratioOffers_guides hw hwidth hheight
  obtain ⟨h₂, h₂'⟩ := stretchedWidth_guides parent hw h₁ h₁'
  obtain ⟨h₃, h₃'⟩ := stretchedHeight_guides parent hw h₂ h₂'
  exact ⟨Node.Guides.cap .row _ h₃ hw, Node.Guides.cap .column _ h₃' hw⟩

def Upright (c : Container α) : Prop := c.crossAxis.isRow = !c.mainAxis.isRow

omit [Lawful α] in
theorem request_suits (hc : c.Upright) {main cross : Offer α} (direction : Direction)
    (performLayout : Bool) (hm : n.Suits c.mainAxis.dimension main)
    (hx : n.Suits c.crossAxis.dimension cross) :
    n.Suits .width (c.request direction main cross performLayout).width ∧
      n.Suits .height (c.request direction main cross performLayout).height := by
  unfold Upright at hc
  unfold FlexDirection.dimension at hm hx
  rw [hc] at hx
  cases hrow : c.mainAxis.isRow with
  | true =>
    rw [hrow] at hm hx
    simp only [request, isRow, hrow, if_true]
    exact ⟨hm, hx⟩
  | false =>
    rw [hrow] at hm hx
    simp only [request, isRow, hrow, Bool.false_eq_true, if_false]
    exact ⟨hx, hm⟩

theorem crossOffer_sound (hw : n.Balanced c.innerWidth) (hm : IsNumber mainSize) (overflows : Bool)
    (hd : ¬ n.Degenerate) : (c.crossOffer parent n mainSize overflows).Sound := by
  unfold crossOffer
  dsimp only
  split
  · rename_i ratio hratio
    have hsize : IsNumber (if c.isRow then mainSize / ratio else mainSize * ratio) := by
      have hfin : IsFinite ratio := Decidable.by_contra fun hno => hd ⟨ratio, hratio, Or.inl hno⟩
      have hzero : (ratio == 0) = false := Bool.eq_false_iff.mpr fun h0 =>
        hd ⟨ratio, hratio, Or.inr h0⟩
      split
      · exact Lawful.div_number hm hfin hzero
      · exact Lawful.mul_number hm hfin hzero
    have hsum := Extent.add_of (x := if c.isRow then mainSize / ratio else mainSize * ratio)
      (hw c.crossAxis)
    rw [← Extent.of_number hsize] at hsum
    exact Offer.sound_of_known hsum
  split
  · intro hu
    dsimp only at hu ⊢
    rw [hu]
    simp [Extent.isUndefined, Extent.isDefined]
  split
  · rename_i hs
    simp only [Bool.and_eq_true] at hs
    obtain ⟨x, hx⟩ := Extent.isDefined_iff.mp hs.1.1.1
    exact Offer.sound_of_known hx
  · intro hu
    dsimp only at hu ⊢
    rw [hu]
    rfl

theorem crossOffer_exactly (hr : n.IsSized) (hw : n.Balanced c.innerWidth) (mainSize : α)
    (overflows : Bool) (h : n.Pinned c.crossAxis.dimension M) :
    (c.crossOffer parent n mainSize overflows).mode = .exactly := by
  unfold crossOffer
  dsimp only
  split
  · rfl
  rw [if_pos (h.definite hr c.innerCross), h.resolved hr]
  have hsize : (Length.points M).resolve c.innerCross +
      Extent.of (n.marginFor c.crossAxis c.innerWidth) =
        .known (M + n.marginFor c.crossAxis c.innerWidth) := by
    rw [show (Length.points M).resolve c.innerCross = .known M from Extent.of_number h.number,
      Extent.add_of (hw c.crossAxis)]
  rw [hsize]
  rfl

theorem itemRequest_suits (parent : Node α) (hc : c.Upright) (hr : n.IsSized)
    (hw : n.Balanced c.innerWidth) (hm : IsNumber mainSize) (innerMain : Extent α)
    (overflows : Bool) (direction : Direction) (performLayout : Bool) :
    let r := c.request direction
      (n.cap c.mainAxis innerMain c.innerWidth
        ⟨.of (mainSize + n.marginFor c.mainAxis c.innerWidth), .exactly⟩)
      (n.cap c.crossAxis c.innerCross c.innerWidth (c.crossOffer parent n mainSize overflows))
      performLayout
    n.Suits .width r.width ∧ n.Suits .height r.height := by
  have hsum := Lawful.add_number hm (hw c.mainAxis)
  refine request_suits hc direction performLayout (Node.Guides.cap _ _
    ⟨Offer.sound_of_known (Extent.of_number hsum), fun _ _ => rfl⟩ hw)
    ⟨fun hd => ?_, fun M hM => ?_⟩
  · exact Node.cap_sound (crossOffer_sound hw hm overflows hd)
  · exact hM.cap_firm _ hw (crossOffer_exactly hr hw mainSize overflows hM)

theorem stretchRequest_suits (hc : c.Upright) (hw : n.Balanced c.innerWidth) (innerMain : Extent α)
    (lineCross : α) :
    n.Suits .width (c.stretchRequest innerMain lineCross n).width ∧
      n.Suits .height (c.stretchRequest innerMain lineCross n).height := by
  have hexact : ∀ (axis : FlexDirection) (size offered : Extent α),
      n.Suits axis.dimension
        (.exact (n.cap axis size c.innerWidth ⟨offered, .exactly⟩).size) := by
    intro axis size offered
    refine ⟨fun _ => Offer.exact_sound _, fun M hM => ?_⟩
    obtain ⟨-, x, hx, hn⟩ := hM.cap_firm (o := ⟨offered, .exactly⟩) size hw rfl
    rw [hx]
    exact Offer.exact_firm hn
  exact request_suits hc c.direction true (hexact _ _ _) (hexact _ _ _)

theorem absoluteSize_pinned (c : Container α) (parent : Node α) (hr : n.IsSized)
    (axis : FlexDirection) (h : n.Pinned axis.dimension M) (axisSize : Extent α)
    (hm : IsFinite margin) :
    c.absoluteSize parent n axis axisSize margin = .known (M + margin) := by
  rw [absoluteSize, if_pos (h.definite hr axisSize), h.preferred hr, Extent.add_of hm]

theorem absoluteSizes_pinned (hr : n.IsSized) (hw : n.Balanced c.innerWidth) {d : Dimension}
    (h : n.Pinned d M) : ∃ x, (c.absoluteSizes parent n).get d = .known x ∧ IsNumber x := by
  unfold absoluteSizes
  dsimp only
  cases d with
  | width =>
    have hsize := absoluteSize_pinned c parent hr .row h c.innerWidth (hw .row)
    refine ⟨M + n.marginFor .row c.innerWidth, ?_, Lawful.add_number h.number (hw .row)⟩
    rw [hsize]
    split
    · rename_i hu _
      cases hu
    · rfl
    · rfl
  | height =>
    have hsize := absoluteSize_pinned c parent hr .column h c.innerHeight (hw .column)
    refine ⟨M + n.marginFor .column c.innerWidth, ?_, Lawful.add_number h.number (hw .column)⟩
    rw [hsize]
    split
    · rfl
    · rename_i hu
      cases hu
    · rfl

end Container

end Flexbox
