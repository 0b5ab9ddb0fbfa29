import Flexbox.Proofs.Sizing.Lines

namespace Flexbox

variable {α : Type}

open Scalar (IsNumber IsFinite Lawful)

theorem LineSpacing.extra_nonneg {α : Type} [Scalar α] [Lawful α] (align : Align)
    (available total : α) {count : Nat} (hpos : 0 < count) (hfew : count ≤ 2 ^ 32) :
    0 ≤ (LineSpacing.ofAlign align available total count).extra := by
  have hzero : (0 : α) ≤ 0 := Scalar.le_refl Scalar.zero_number
  have hshare : total < available → 0 ≤ (available - total) / (Scalar.ofNat count : α) := by
    intro hlt
    obtain ⟨hcount, hfinite⟩ := Lawful.count_pos (α := α) hpos hfew
    exact Lawful.div_nonneg (Lawful.sub_nonneg (Scalar.lt_le hlt) (Or.inl hlt)) hcount hfinite
  cases align with
  | flexEnd | center | auto | flexStart | baseline => exact hzero
  | stretch =>
    simp only [ofAlign]
    split
    · rename_i hlt
      exact hshare hlt
    · exact hzero
  | spaceAround =>
    simp only [ofAlign]
    split
    · rename_i hlt
      dsimp only
      split
      · exact hshare hlt
      · exact hzero
    · exact hzero
  | spaceBetween =>
    simp only [ofAlign]
    split
    · rename_i hboth
      simp only [Bool.and_eq_true, decide_eq_true_eq] at hboth
      obtain ⟨hlt, hmany⟩ := hboth
      obtain ⟨hcount, hfinite⟩ := Lawful.count_pred_pos (α := α) hmany hfew
      exact Lawful.div_nonneg (Lawful.sub_nonneg (Scalar.lt_le hlt) (Or.inl hlt)) hcount hfinite
    · exact hzero

namespace Container

variable {c : Container α} {r : Request α}

/-- The container is what a request makes of a node. -/
structure Serves (c : Container α) (r : Request α) : Prop where
  ownerWidth : c.ownerWidth = r.ownerWidth
  widthMode : c.widthMode = r.width.mode
  heightMode : c.heightMode = r.height.mode
  performLayout : c.performLayout = r.performLayout

theorem Serves.offer (hs : c.Serves r) (axis : FlexDirection) :
    r.offer axis.dimension = ⟨if axis.isRow then r.width.size else r.height.size,
      if axis.isRow then c.widthMode else c.heightMode⟩ := by
  unfold FlexDirection.dimension
  cases axis.isRow with
  | true =>
    simp only [if_true, hs.widthMode]
    rfl
  | false =>
    simp only [Bool.false_eq_true, if_false, hs.heightMode]
    rfl

variable [Scalar α] {n : Node α} {loose : Prop}

theorem ofRequest_serves (n : Node α) (x : NodeId) (direction : Direction) (r : Request α) :
    (ofRequest n x direction r).Serves r := ⟨rfl, rfl, rfl, rfl⟩

theorem ofRequest_upright (n : Node α) (x : NodeId) (direction : Direction) (r : Request α) :
    (ofRequest n x direction r).Upright := by
  unfold Upright ofRequest FlexDirection.cross FlexDirection.isColumn
  dsimp only
  generalize n.style.flexDirection.resolve direction = axis
  cases axis <;> cases direction <;> rfl

variable [Lawful α]

theorem finalSizes_fits (hs : c.Serves r) (hc : c.Upright) (m : Node α) (totalBasis : α)
    (innerMain : Extent α) {maxMain totalCross : α} (hmain : IsNumber maxMain)
    (hcross : ∀ M, n.Capped c.crossAxis.dimension M → 0 ≤ totalCross)
    (hfirm : ∀ d M, n.Pinned d M → loose ∨ (r.offer d).Firm)
    (hw : loose ∨ n.Balanced r.ownerWidth) :
    n.Fits loose c.mainAxis.dimension
        (c.finalSizes n (c.linesPlan m totalBasis) r innerMain maxMain totalCross).1 ∧
      n.Fits loose c.crossAxis.dimension
        (c.finalSizes n (c.linesPlan m totalBasis) r innerMain maxMain totalCross).2 := by
  have hoffer : ∀ axis M, n.Pinned (FlexDirection.dimension axis) M →
      loose ∨ (r.offer axis.dimension).Firm ∧ n.Balanced c.ownerWidth := by
    intro axis M hM
    rcases hfirm _ M hM with hl | ho
    · exact Or.inl hl
    · rw [hs.ownerWidth]
      exact hw.imp_right fun hw => ⟨ho, hw⟩
  have hmode : c.mainMode = if c.mainAxis.isRow then c.widthMode else c.heightMode := rfl
  have hmode' : c.crossMode = if c.crossAxis.isRow then c.widthMode else c.heightMode := by
    unfold crossMode isRow
    rw [hc]
    cases c.mainAxis.isRow <;> rfl
  refine ⟨finalSize_fits _ _ (by rw [hs.ownerWidth]) (fun _ _ => hmain) fun M hM => ?_,
    finalSize_fits _ _ (by rw [hs.ownerWidth]) (fun M hM => ?_) fun M hM => ?_⟩
  · refine (hoffer _ M hM).imp_right fun hfirm => ⟨?_, hfirm.2⟩
    have ho := hfirm.1
    rw [hs.offer, ← hmode] at ho
    -- An exact offer stays exact whether or not the lines wrap.
    have hexact : (c.linesPlan m totalBasis).mainMode = c.mainMode := by
      rw [linesPlan, show c.mainMode = .exactly from ho.1]
      simp
    rw [hexact]
    exact ho
  · exact Lawful.add_number (Lawful.le_number (hcross M hM)).2
      (hM.frame_finite c.crossAxis r.ownerWidth rfl)
  · refine (hoffer _ M hM).imp_right fun hfirm => ⟨?_, hfirm.2⟩
    have ho := hfirm.1
    rw [hs.offer, ← hmode'] at ho
    exact ho

end Container

namespace Pass

variable [Scalar α] [Lawful α] {b p q : Pass α} {B D : Set NodeId} {h : Nat} {x : NodeId}
  {c : Container α} {v : Visitor α} {r : Request α} {n : Node α}

theorem extendLine_goes (hc : Hosting b B D h c p) (e : LineExtent α) (he : 0 ≤ e.height) :
    Goes b B D h p (p.extendLine c x e).2 ∧ 0 ≤ (p.extendLine c x e).1.height := by
  have hmore : ∀ {a : α} (y : α), 0 ≤ a → 0 ≤ Scalar.max a y := fun y ha =>
    Lawful.le_trans ha (Scalar.le_max_left (Lawful.le_number ha).2)
  unfold extendLine
  dsimp only
  generalize hext : (if (p.node x).hasMeasuredSize c.crossAxis then
    { e with height := Scalar.max e.height ((p.node x).outerSize c.crossAxis c.innerWidth) }
      else e) = ext
  have hheight : 0 ≤ ext.height := by
    rw [← hext]
    split
    · exact hmore _ he
    · exact he
  split
  · exact ⟨baselineWithin_goes _ hc.kept, hmore _ hheight⟩
  · exact ⟨.refl hc.kept, hheight⟩

theorem measureLine_goes (xs : List NodeId) (hc : Hosting b B D h c p) (number : Nat)
    (e : LineExtent α) (he : 0 ≤ e.height) (length : Nat) :
    Goes b B D h p (p.measureLine c number xs e length).2 ∧
      0 ≤ (p.measureLine c number xs e length).1.1.height := by
  induction xs generalizing e length p with
  | nil => exact ⟨.refl hc.kept, he⟩
  | cons x xs ih =>
    rw [measureLine]
    dsimp only
    split
    · split
      · exact ⟨.refl hc.kept, he⟩
      · obtain ⟨hgo, hheight⟩ := extendLine_goes hc e he
        obtain ⟨hgo', hheight'⟩ := ih (hgo.hosting hc) _ hheight (length + 1)
        exact ⟨hgo.trans hgo', hheight'⟩
    · exact ih hc e he (length + 1)

section

variable (hv : Sizes b B D h v)

include hv

theorem restretch_goes (hc : Staged b B D h c p) (hx : x ∈ b.children c.id) {height : α}
    (hh : 0 ≤ height) {n : Node α} (hn : Node.SameCore (p.node x) n)
    (hm : ∀ d, IsNumber (n.geometry.measuredSize d)) :
    Goes b B D h p (p.restretch v c height x n) := by
  unfold restretch
  refine ite_goes (fun _ => ?_) fun _ => .refl hc.kept
  refine hv.visit (hc.member hx) hc.kept (hc.sized x hx) (hc.asked hx fun hbal => ?_)
  have hnum := (Lawful.le_number hh).2
  have hsum : ∀ d axis, IsNumber (n.geometry.measuredSize d + n.marginFor axis c.innerWidth) :=
    fun d axis => Lawful.add_number (hm d) (hn.balanced.mpr hbal axis)
  refine ⟨Node.suits_of_firm (Offer.of_firm ?_), Node.suits_of_firm (Offer.of_firm ?_)⟩
  all_goals split
  · exact hsum _ _
  · exact hnum
  · exact hnum
  · exact hsum _ _

theorem alignInLine_goes (lead : α) {e : LineExtent α} (he : 0 ≤ e.height)
    (hc : Staged b B D h c p) (hx : x ∈ b.children c.id) :
    Goes b B D h p (p.alignInLine v c lead e x) := by
  have hmem := (hc.member hx).mem
  unfold alignInLine
  dsimp only
  refine ite_goes (fun _ => .refl hc.kept) fun _ => ?_
  have hset : ∀ a, Goes b B D h p (p.setPosition x c.crossAxis.leading a) := fun a =>
    hc.kept.setPosition hmem _ a
  split
  · exact hset _
  · exact hset _
  · exact hset _
  · refine (hset _).trans (restretch_goes hv ((hset _).staged hc) hx he ?_
      (hc.kept.measuredSize hmem))
    rw [setPosition, updateGeometry, node_update_self (hc.kept.live x hmem)]
    rfl
  · have hbase : Goes b B D h p (p.baseline x).2 := baselineWithin_goes _ hc.kept
    exact hbase.trans (hbase.kept.setPosition hmem _ _)
  all_goals exact .refl hc.kept

theorem alignLines_goes {extra : α} (hextra : 0 ≤ extra) (count number : Nat) {xs : List NodeId}
    (lead : α) (hc : Staged b B D h c p) (hx : ∀ x ∈ xs, x ∈ b.children c.id) :
    Goes b B D h p (p.alignLines v c extra count number xs lead) := by
  induction count generalizing number xs lead p with
  | zero => exact .refl hc.kept
  | succ count ih =>
    obtain ⟨hgo, hheight⟩ := measureLine_goes xs hc.toHosting number ⟨0, 0, 0⟩
      (Scalar.le_refl Scalar.zero_number) 0
    rw [alignLines]
    generalize p.measureLine c number xs ⟨0, 0, 0⟩ 0 = measured at hgo hheight ⊢
    obtain ⟨⟨e, length⟩, q⟩ := measured
    dsimp only at hgo hheight ⊢
    have hq := hgo.staged hc
    have hall := hgo.trans (walk_goes (fun q => q) (l := xs.take length)
      (f := alignInLine v c lead { e with height := e.height + extra }) hq.kept fun u x hx' hg =>
        alignInLine_goes hv lead (Lawful.add_nonneg hheight hextra) (hg.staged hq)
          (hx x (List.mem_of_mem_take hx')))
    exact hall.trans (ih (number + 1) _ (hall.staged hc)
      fun x hx' => hx x (List.mem_of_mem_drop hx'))

theorem alignContent_goes {count : Nat} (hfew : count ≤ 2 ^ 32) (total leadingFrame : α)
    (hc : Staged b B D h c p) : Goes b B D h p (p.alignContent v c count total leadingFrame) := by
  cases count with
  | zero => exact .refl hc.kept
  | succ count =>
    unfold alignContent
    dsimp only
    rw [hc.children]
    refine alignLines_goes hv ?_ _ _ _ hc fun _ hx => hx
    split
    · exact LineSpacing.extra_nonneg _ _ _ (Nat.succ_pos count) hfew
    · exact Scalar.le_refl Scalar.zero_number

end

theorem absoluteSizes_suits (parent : Node α) (hs : n.IsSized) (hbal : n.Balanced c.innerWidth)
    (d : Dimension) : n.Suits d (.exact ((c.absoluteSizes parent n).get d)) := by
  refine ⟨fun _ => Offer.exact_sound _, fun M hM => ?_⟩
  obtain ⟨a, ha, hnum⟩ := Container.absoluteSizes_pinned hs hbal hM
  rw [ha]
  exact Offer.exact_firm hnum

/-- The offer on the width under which an absolute child is measured. -/
def absoluteOffer (c : Container α) (widthMode : MeasureMode) (width : Extent α) : Offer α :=
  if !c.isRow && width.isUndefined && widthMode != .undefined &&
      c.innerWidth.holds (fun x => 0 < x) then
    ⟨c.innerWidth, .atMost⟩
  else .exact width

omit [Lawful α] in
theorem absoluteOffer_suits (widthMode : MeasureMode) {width : Extent α} {d : Dimension}
    (hw : n.Suits d (.exact width)) : n.Suits d (absoluteOffer c widthMode width) := by
  unfold absoluteOffer
  split
  · rename_i hcond
    simp only [Bool.and_eq_true] at hcond
    obtain ⟨⟨⟨-, hundefined⟩, -⟩, hholds⟩ := hcond
    refine ⟨fun _ => ?_, fun M hM => ?_⟩
    · cases hinner : c.innerWidth with
      | undefined => simp [hinner, Extent.holds] at hholds
      | known w => exact Offer.sound_of_known rfl
    · obtain ⟨-, a, ha, -⟩ := hw.pinned M hM
      simp [show width = .known a from ha, Extent.isUndefined, Extent.isDefined] at hundefined
  · exact hw

theorem sizeAbsolute_goes (hv : Sizes b B D h v) (widthMode : MeasureMode)
    (hc : Staged b B D h c p) (hx : x ∈ b.children c.id) :
    Goes b B D h p (p.sizeAbsolute v c widthMode x).2 ∧
      ((b.node x).Balanced c.innerWidth → ∀ d,
        (b.node x).Suits d ⟨(p.sizeAbsolute v c widthMode x).1.get d, .exactly⟩) := by
  have hmem := hc.member hx
  have hs := hc.sized x hx
  unfold sizeAbsolute
  dsimp only
  split
  · have hasked : Asked b p x ⟨absoluteOffer c widthMode
          (c.absoluteSizes (p.node c.id) (p.node x)).width,
        .exact (c.absoluteSizes (p.node c.id) (p.node x)).height, c.direction,
        (absoluteOffer c widthMode (c.absoluteSizes (p.node c.id) (p.node x)).width).size,
        (c.absoluteSizes (p.node c.id) (p.node x)).height, false⟩ :=
      hc.asked hx fun hbal => ⟨absoluteOffer_suits widthMode
        (absoluteSizes_suits (p.node c.id) hs hbal .width),
        absoluteSizes_suits (p.node c.id) hs hbal .height⟩
    have hgo := hv.visit hmem hc.kept hs hasked
    refine ⟨hgo, fun hbal d => ?_⟩
    have houter : ∀ axis : FlexDirection, IsNumber (((p.measureAbsolute v c widthMode x
        (c.absoluteSizes (p.node c.id) (p.node x))).2.node x).outerSize axis c.innerWidth) :=
      fun axis => Lawful.add_number (hgo.kept.measuredSize hmem.mem axis.dimension)
        ((hgo.kept.core hmem.mem).balanced.mpr hbal axis)
    cases d with
    | width => exact Node.suits_of_firm (Offer.of_firm (houter .row))
    | height => exact Node.suits_of_firm (Offer.of_firm (houter .column))
  · rename_i hknown
    refine ⟨.refl hc.kept, fun hbal d => ?_⟩
    have hbal' := (hc.kept.core hmem.mem).balanced.mpr hbal
    have hdefined : ∃ a, (c.absoluteSizes (p.node c.id) (p.node x)).get d = .known a := by
      rw [← Extent.isDefined_iff]
      cases d <;> simp_all [Extent.isUndefined, Size.get]
    obtain ⟨a, ha⟩ := hdefined
    refine ⟨fun _ => Offer.sound_of_known ha, fun M hM => ⟨rfl, ?_⟩⟩
    exact Container.absoluteSizes_pinned hs hbal' ((hc.kept.core hmem.mem).symm.pinned hM)

theorem layAbsolute_goes (hv : Sizes b B D h v) (widthMode : MeasureMode)
    (hc : Staged b B D h c p) (hx : x ∈ b.children c.id) :
    Goes b B D h p (p.layAbsolute v c widthMode x) := by
  have hmem := hc.member hx
  obtain ⟨hgo, hsuits⟩ := sizeAbsolute_goes hv widthMode hc hx
  unfold layAbsolute
  generalize p.sizeAbsolute v c widthMode x = sized at hgo hsuits ⊢
  obtain ⟨size, q⟩ := sized
  dsimp only at hgo hsuits ⊢
  have hq := hgo.staged hc
  have hasked : Asked b q x ⟨⟨size.width, .exactly⟩, ⟨size.height, .exactly⟩, c.direction,
      size.width, size.height, true⟩ := by
    refine hq.asked hx fun hbal => ?_
    have hcore := hq.kept.core hmem.mem
    have hall := hsuits (hcore.balanced.mp hbal)
    exact ⟨hcore.suits (hall .width), hcore.suits (hall .height)⟩
  have hgo' := hv.visit hmem hq.kept (hq.sized x hx) hasked
  exact (hgo.trans hgo').trans (hgo'.kept.works c.id (placeAbsolute_works hmem.mem))

theorem placeRest_goes (hv : Sizes b B D h v) (mainMode : MeasureMode) (crossSize : α)
    (hc : Staged b B D h c p) : Goes b B D h p (p.placeRest v c mainMode crossSize) := by
  unfold placeRest
  dsimp only
  have hrev : Goes b B D h p (if (p.node c.id).style.flexWrap == .wrapReverse then
      p.reverseLines c crossSize else p) :=
    ite_goes (fun _ => hc.kept.works c.id (reverseLines_works crossSize hc.inside))
      fun _ => .refl hc.kept
  generalize (if (p.node c.id).style.flexWrap == .wrapReverse then
    p.reverseLines c crossSize else p) = q at hrev ⊢
  generalize (if c.isRow then mainMode else c.crossMode) = widthMode
  rw [(hrev.hosting hc.toHosting).children]
  have hall := hrev.trans (walk_goes (fun q => q) (l := b.children c.id)
    (f := fun p child => if (p.node child).isAbsolute then
      p.layAbsolute v c widthMode child else p) hrev.kept fun u x hx hg => ite_goes
        (fun _ => layAbsolute_goes hv widthMode ((hrev.trans hg).staged hc) hx)
        fun _ => .refl hg.kept)
  exact hall.trans (hall.kept.works c.id (setTrailings_works (hall.hosting hc.toHosting).inside))

theorem layLinesAndSize_goes (hv : Sizes b B D h v) (hc : Staged b B D h c p)
    (hno : ¬ Deep b h c.id) (hserves : c.Serves r) (hn : Node.SameCore (b.node c.id) n)
    (totalBasis : α)
    (hfirm : ∀ d M, (b.node c.id).Pinned d M → Exempt b D p.trail c.id ∨ (r.offer d).Firm)
    (hw : Exempt b D p.trail c.id ∨ (b.node c.id).Balanced r.ownerWidth) :
    Goes b B D h p (p.layLinesAndSize v c (c.linesPlan n totalBasis) r) ∧
      ((p.layLinesAndSize v c (c.linesPlan n totalBasis) r).node c.id).IsMeasured := by
  have hplan : (c.linesPlan n totalBasis).frameCross =
      (b.node c.id).frameFor c.crossAxis c.ownerWidth := by
    rw [hn]
    rfl
  obtain ⟨hlines, hcount⟩ := layLines_goes hv hplan (fun _ hx => hx) 0 (b.children c.id).length
    (s := ⟨c.innerMain, 0, 0, 0, p⟩) hc
    ⟨le_rfl, Scalar.zero_number, fun _ _ => Scalar.le_refl Scalar.zero_number⟩
  unfold layLinesAndSize
  dsimp only
  rw [hc.children]
  generalize layLines v c _ _ _ _ = s at hlines hcount ⊢
  have hfew : s.count ≤ 2 ^ 32 := by
    have := hcount.few
    have := hc.kept.scene.few c.id hc.mem
    omega
  have hspread : Goes b B D h s.pass
      (spreadLines v c (c.linesPlan n totalBasis).leadingFrameCross s) :=
    ite_goes (fun _ => alignContent_goes hv hfew _ _ (hlines.staged hc)) fun _ => .refl hlines.kept
  generalize spreadLines v c _ s = q at hspread ⊢
  have hq := hlines.trans hspread
  have hmono := fun hl : Exempt b D p.trail c.id => hl.mono hq.more
  obtain ⟨hmain, hcross⟩ := Container.finalSizes_fits hserves hc.upright n totalBasis s.innerMain
    hcount.main hcount.cross (fun d M hM => (hfirm d M hM).imp_left hmono) (hw.imp_left hmono)
  have hfaces := (hq.kept.core hc.mem).faces
  rw [show c.finalSizes (q.node c.id) _ r _ _ _ = _ from
    Container.finalSizes_turn (e := false) hfaces hfaces.level _ r _ _ _]
  generalize c.finalSizes _ _ r s.innerMain s.maxMain s.totalCross = sizes at hmain hcross ⊢
  have hsized : Goes b B D h q (if c.isRow then q.setMeasured c.id sizes.1 sizes.2
        else q.setMeasured c.id sizes.2 sizes.1) ∧
      ((if c.isRow then q.setMeasured c.id sizes.1 sizes.2
        else q.setMeasured c.id sizes.2 sizes.1).node c.id).IsMeasured := by
    have hup := hc.upright
    unfold Container.Upright at hup
    unfold FlexDirection.dimension at hmain hcross
    rw [hup] at hcross
    unfold Container.isRow
    cases hrow : c.mainAxis.isRow with
    | true =>
      rw [hrow] at hmain hcross
      exact hq.kept.setMeasured hc.mem hmain hcross
    | false =>
      rw [hrow] at hmain hcross
      exact hq.kept.setMeasured hc.mem hcross hmain
  generalize (if c.isRow then q.setMeasured c.id sizes.1 sizes.2
    else q.setMeasured c.id sizes.2 sizes.1) = u at hsized ⊢
  have hu := hq.trans hsized.1
  split
  · have hrest := placeRest_goes hv (c.linesPlan n totalBasis).mainMode sizes.2 (hu.staged hc)
    exact ⟨hu.trans hrest, hrest.measured c.id hc.mem hno hsized.2⟩
  · exact ⟨hu, hsized.2⟩

end Pass

end Flexbox
