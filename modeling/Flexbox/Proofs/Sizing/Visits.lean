import Flexbox.Proofs.Sizing.Containers

namespace Flexbox

variable {α : Type} [Scalar α]

open Scalar (IsNumber IsFinite Lawful)

theorem Measurement.blank_answers {α : Type} [Scalar α] [Lawful α] (width height : Offer α)
    (marginRow marginColumn scale : α) :
    Measurement.blank.answers width height marginRow marginColumn scale = false :=
  if_pos (Bool.or_eq_true_iff.mpr (Or.inl (decide_eq_true Lawful.neg_one_lt)))

namespace Node

variable {o n : Node α} {loose shown : Prop} {r : Request α}

theorem remembered?_cases [Lawful α] {source : Source} {entry : Measurement α}
    (hr : n.remembered? r = some source) (he : n.geometry.entry? source = some entry) :
    (entry = n.geometry.lastLayout ∧ n.geometry.lastLayout ≠ .blank) ∨
      (entry ∈ n.geometry.measurements ∧ (r.performLayout = true → n.measure.isSome = true)) := by
  have hamong : ∀ accepts, (n.geometry.measurements.findIdx? accepts).map Source.measurement =
      some source → entry ∈ n.geometry.measurements := by
    intro accepts hm
    obtain ⟨i, -, rfl⟩ := Option.map_eq_some_iff.mp hm
    exact List.mem_of_getElem? he
  unfold remembered? at hr
  dsimp only at hr
  split at hr
  · rename_i hmeasure
    split at hr
    · rename_i hfits
      cases hr
      refine Or.inl ⟨(Option.some.inj he).symm, fun hb => ?_⟩
      rw [hb, Measurement.blank_answers] at hfits
      cases hfits
    · exact Or.inr ⟨hamong _ hr, fun _ => hmeasure⟩
  · split at hr
    · split at hr
      · rename_i hsame
        cases hr
        refine Or.inl ⟨(Option.some.inj he).symm, fun hb => ?_⟩
        rw [hb, blank_matchesRequest] at hsame
        cases hsame
      · cases hr
    · rename_i hno
      exact Or.inr ⟨hamong _ hr, fun hl => absurd hl hno⟩

theorem Tidy.entry [Lawful α] (ht : Tidy loose shown o n) {source : Source}
    {entry : Measurement α} (hr : n.remembered? r = some source)
    (he : n.geometry.entry? source = some entry) : FitsEntry loose o entry := by
  rcases remembered?_cases hr he with ⟨rfl, hb⟩ | ⟨hmem, -⟩
  · exact ht.last hb
  · exact ht.memory entry hmem

theorem Tidy.refreshed (ht : Tidy loose shown o n) (generation : UInt32) (direction : Direction) :
    Tidy loose shown o (n.refreshed generation direction) := by
  unfold Node.refreshed
  split
  · exact ⟨ht.core.trans rfl, ht.measured, nofun, fun hb => absurd rfl hb, ht.size, ht.basis⟩
  · exact ht

theorem Tidy.restored (ht : Tidy loose shown o n) {entry : Measurement α}
    (he : FitsEntry loose o entry) (r : Request α) (generation : UInt32) :
    Tidy loose shown o (n.restored entry r generation) := by
  have hmeasured : ∀ d x, (⟨.of entry.computedWidth, .of entry.computedHeight⟩ :
      Size (Extent α)).get d = .known x → Fits loose o d x := by
    intro d x hx
    cases d with
    | width =>
      obtain ⟨rfl, -⟩ := Extent.of_eq_known hx
      exact he .width
    | height =>
      obtain ⟨rfl, -⟩ := Extent.of_eq_known hx
      exact he .height
  refine ⟨ht.core.trans rfl, hmeasured, ht.memory, ht.last, fun hs => ?_, ht.basis⟩
  unfold Node.restored answered
  dsimp only
  split
  · exact hmeasured
  · exact ht.size hs

theorem restored_isMeasured {entry : Measurement α} (he : FitsEntry loose o entry) (r : Request α)
    (generation : UInt32) : (n.restored entry r generation).IsMeasured := by
  intro d
  cases d with
  | width => exact ⟨entry.computedWidth, Extent.of_number (he .width).number⟩
  | height => exact ⟨entry.computedHeight, Extent.of_number (he .height).number⟩

omit [Scalar α] in
theorem answered_hasSize (hm : n.IsMeasured) (generation : UInt32)
    (hs : r.performLayout = true ∨ n.HasSize) : (n.answered r generation).HasSize := by
  intro d
  simp only [answered]
  split
  · exact hm d
  · rename_i hl
    exact hs.resolve_left hl d

theorem restored_hasSize {entry : Measurement α} (he : FitsEntry loose o entry)
    (generation : UInt32) (hs : r.performLayout = true ∨ n.HasSize) :
    (n.restored entry r generation).HasSize :=
  answered_hasSize (n := { n with geometry := n.geometry.restore entry })
    (restored_isMeasured (n := n) he r generation) generation hs

theorem Tidy.remembered (ht : Tidy loose shown o n) (hm : n.IsMeasured) (r : Request α) :
    FitsEntry loose o (Measurement.ofOffers r.width r.height (n.geometry.measured.width.getD (-1))
      (n.geometry.measured.height.getD (-1))) := by
  obtain ⟨width, hwidth⟩ := hm .width
  obtain ⟨height, hheight⟩ := hm .height
  have hw := ht.measured .width width hwidth
  have hh := ht.measured .height height hheight
  simp only [Size.get] at hwidth hheight
  rw [hwidth, hheight]
  intro d
  cases d with
  | width => exact hw
  | height => exact hh

theorem Tidy.computed (ht : Tidy loose shown o n) (hm : n.IsMeasured) (r : Request α)
    (generation : UInt32) : Tidy loose shown o (n.computed r generation) := by
  have hentry := ht.remembered hm r
  have hroom : ∀ m ∈ n.geometry.roomForOne, FitsEntry loose o m := by
    intro m hmem
    unfold Geometry.roomForOne at hmem
    split at hmem
    · cases hmem
    · exact ht.memory m hmem
  have hcore := ht.core.trans (computed_core n r generation)
  unfold Node.computed remembering directed Geometry.remember answered at hcore ⊢
  by_cases hl : r.performLayout = true
  · simp only [hl, if_true] at hcore ⊢
    exact ⟨hcore, ht.measured, hroom, fun _ => hentry, fun _ => ht.measured, ht.basis⟩
  · simp only [hl, Bool.false_eq_true, if_false] at hcore ⊢
    refine ⟨hcore, ht.measured, fun m hmem => ?_, ht.last, ht.size, ht.basis⟩
    rcases List.mem_append.mp hmem with hmem | hmem
    · exact hroom m hmem
    · rw [List.mem_singleton.mp hmem]
      exact hentry

theorem computed_lastLayout (hl : ¬ r.performLayout = true) (generation : UInt32) :
    (n.computed r generation).geometry.lastLayout = n.geometry.lastLayout := by
  unfold Node.computed remembering directed Geometry.remember answered
  simp only [hl, Bool.false_eq_true, if_false]

theorem computed_hasSize (hm : n.IsMeasured) (generation : UInt32)
    (hs : r.performLayout = true ∨ n.HasSize) : (n.computed r generation).HasSize := by
  rw [computed_eq]
  exact answered_hasSize hm generation hs

end Node

namespace Pass

variable {b p q : Pass α} {B D : Set NodeId} {h : Nat} {x : NodeId}
  {v : Visitor α} {r : Request α}

/-- A request was made whose offers on pinned axes are firm, if there is no excuse. -/
structure Posed (b : Pass α) (D : Set NodeId) (p : Pass α) (x : NodeId) (r : Request α) : Prop where
  visited : ∃ u ∈ p.trail, u.node = x ∧ u.request = r
  firm : ∀ d M, (b.node x).Pinned d M → Exempt b D p.trail x ∨ (r.offer d).Firm

theorem Goes.posed (hg : Goes b B D h p q) (hp : Posed b D p x r) : Posed b D q x r := by
  obtain ⟨u, hu, hvisit⟩ := hp.visited
  exact ⟨⟨u, hg.more u hu, hvisit⟩, fun d M hM =>
    (hp.firm d M hM).imp_left fun hl => hl.mono hg.more⟩

theorem Asked.posed (ha : Asked b p x r) (source : Source) :
    Posed b D (p.record ⟨x, r, source⟩) x r :=
  ⟨⟨_, List.mem_cons_self, rfl, rfl⟩, fun d M hM => (ha.firm source d M hM).imp_left Or.inr⟩

theorem Posed.owner (hp : Posed b D p x r) :
    Exempt b D p.trail x ∨ (b.node x).Balanced r.ownerWidth := by
  obtain ⟨u, hu, rfl, rfl⟩ := hp.visited
  by_cases hbal : (b.node u.node).Balanced u.request.ownerWidth
  · exact Or.inr hbal
  · exact Or.inl (Or.inr (Or.inl ⟨_, .owner hu rfl, hbal⟩))

theorem Posed.offered (hp : Posed b D p x r) :
    Exempt b D p.trail x ∨ (b.node x).Balanced r.width.size := by
  obtain ⟨u, hu, rfl, rfl⟩ := hp.visited
  by_cases hbal : (b.node u.node).Balanced u.request.width.size
  · exact Or.inr hbal
  · exact Or.inl (Or.inr (Or.inr ⟨u, hu, rfl, hbal⟩))

omit [Scalar α] in
theorem sizedBelow_of_leaf (hleaf : b.children x = []) : SizedBelow b D x p := by
  intro y _ hb
  obtain ⟨z, hz, -⟩ := Relation.TransGen.head'_iff.mp hb
  rw [hleaf] at hz
  cases hz

theorem Goes.served (hg : Goes b B D h p q) (hs : Served p x q) : SizedFrom b D x q := by
  obtain ⟨run, u, htrail, hu, hfull⟩ := hs.asked
  obtain ⟨run', htrail', hrun⟩ := hg.trail
  obtain rfl := List.append_cancel_right (htrail.symm.trans htrail')
  have hnode : u.node = x := by simpa using List.find?_some hu
  exact hnode ▸ hrun u (List.mem_of_find?_eq_some hu) hfull

variable [Lawful α]

theorem layContainer_measures (hv : Sizes b B D h v) (direction : Direction) (hk : Kept b B D p)
    (hx : x ∈ B) (hd : Deep b (h + 1) x) (hno : ¬ Deep b h x) (hp : Posed b D p x r) :
    Goes b B D h p (p.layContainer v x direction r) ∧
      ((p.layContainer v x direction r).node x).IsMeasured := by
  unfold layContainer
  rw [hk.ownChildren hx]
  have hclear : Goes b B D h p (p.updateGeometry x fun g => { g with hadOverflow := false }) :=
    hk.write hx
  dsimp only
  generalize p.updateGeometry x _ = q at hclear ⊢
  have hcore := hclear.kept.core hx
  obtain ⟨u, hu, hux, hur⟩ := hp.visited
  have hq : Hosting b B D h (Container.ofRequest (q.node x) x direction r) q := by
    refine ⟨hclear.kept, hx, hd, Container.ofRequest_upright _ _ _ _, u, hclear.more u hu, hux, ?_⟩
    rw [hur]
    change (q.node x).innerSize .row r.width.size r.ownerWidth = _
    rw [hcore]
    rfl
  obtain ⟨hbases, hstaged⟩ := basisOfChildren_goes hv hq
  have hall := (hclear.trans hbases).posed hp
  obtain ⟨hgo, hmeasured⟩ := layLinesAndSize_goes hv hstaged hno
    (Container.ofRequest_serves _ _ _ _) hcore
    (q.basisOfChildren v (Container.ofRequest (q.node x) x direction r)).1 hall.firm hall.owner
  exact ⟨(hclear.trans hbases).trans hgo, hmeasured⟩

/-- Each child that is displayed was asked for a full layout last, and so all below it has a
size. -/
theorem layContainer_goes (hv : Sizes b B D h v) (direction : Direction) (hk : Kept b B D p)
    (hx : x ∈ B) (hd : Deep b (h + 1) x) (hno : ¬ Deep b h x) (hp : Posed b D p x r) :
    Goes b B D h p (p.layContainer v x direction r) ∧
      ((p.layContainer v x direction r).node x).IsMeasured ∧
      (r.performLayout = true → SizedBelow b D x (p.layContainer v x direction r)) := by
  obtain ⟨hgo, hmeasured⟩ := layContainer_measures hv direction hk hx hd hno hp
  refine ⟨hgo, hmeasured, fun hl y hy hbelow => ?_⟩
  obtain ⟨z, hz, hzy⟩ := Relation.TransGen.head'_iff.mp hbelow
  have hshown : (b.node z).isHidden = false := Bool.eq_false_iff.mpr fun hhid =>
    hk.scene.apart x hx z hz hhid y hy hzy
  exact hgo.served (layContainer_served hv.attentive hk.sound (hk.grounded hx hd) hl _
    (by rwa [hgo.kept.children hx])
    (by rwa [hgo.kept.isHidden (hk.ground.closed x hx z hz)])) y hy hzy

theorem measureLeaf_goes (measure : Measure α) (hk : Kept b B D p) (hx : x ∈ B)
    (hp : Posed b D p x r) :
    Goes b B D h p (p.measureLeaf x measure r) ∧
      ((p.measureLeaf x measure r).node x).IsMeasured := by
  have hleaf : ∀ content, (b.node x).FitsBoth (Exempt b D p.trail x)
      ((p.node x).boundSize r ((p.node x).leafSize r content)) := by
    intro content
    rw [hk.core hx]
    exact Node.leafSize_fits hp.firm hp.offered content
  unfold measureLeaf
  dsimp only
  split
  · exact hk.setMeasured hx (hleaf _ .width) (hleaf _ .height)
  · have hgo : ∀ e, Goes b B D h p ((p.tell e).count fun s =>
        { s with measureCallbacks := s.measureCallbacks + 1 }) := fun e =>
      (hk.tell e).trans ((hk.tell (h := h) e).kept.count _)
    obtain ⟨hset, hmeasured⟩ :=
      (hgo _).kept.setMeasured (h := h) hx (hleaf _ .width) (hleaf _ .height)
    exact ⟨(hgo _).trans hset, hmeasured⟩

theorem layNode_goes (hv : Sizes b B D h v) (hk : Kept b B D p) (hx : x ∈ B)
    (hd : Deep b (h + 1) x) (hno : ¬ Deep b h x) (hp : Posed b D p x r) :
    Goes b B D h p (p.layNode v x r) ∧ ((p.layNode v x r).node x).IsMeasured ∧
      (r.performLayout = true → SizedBelow b D x (p.layNode v x r)) := by
  have hcount := fun f => hk.count (h := h) f
  have hq : Goes b B D h p (p.edged x r) := (hcount _).trans ((hcount _).kept.write hx)
  rw [layNode_eq]
  generalize p.edged x r = q at hq ⊢
  generalize (p.node x).resolveDirection r.ownerDirection = direction
  unfold layInside
  have hpose := hq.posed hp
  have hcore := hq.kept.core hx
  have hset : ∀ {size : Size α}, (b.node x).FitsBoth (Exempt b D q.trail x) size →
      (r.performLayout = true → b.children x = []) →
      Goes b B D h p (q.setMeasured x size.width size.height) ∧
        ((q.setMeasured x size.width size.height).node x).IsMeasured ∧
        (r.performLayout = true → SizedBelow b D x (q.setMeasured x size.width size.height)) := by
    intro size hfits hleaf
    obtain ⟨hgo, hmeasured⟩ := hq.kept.setMeasured hx (hfits .width) (hfits .height)
    exact ⟨hq.trans hgo, hmeasured, fun hl => sizedBelow_of_leaf (hleaf hl)⟩
  split
  · rename_i measure hmeasure
    obtain ⟨hgo, hmeasured⟩ := measureLeaf_goes measure hq.kept hx hpose
    refine ⟨hq.trans hgo, hmeasured, fun _ => sizedBelow_of_leaf (hk.scene.leaf x hx ?_)⟩
    rw [hcore] at hmeasure
    exact Option.isSome_iff_exists.mpr ⟨measure, hmeasure⟩
  split
  · rename_i hempty
    refine hset ?_ fun _ => ?_
    · rw [hcore]
      exact Node.emptySize_fits hpose.firm hpose.owner
    · rw [← hq.kept.children hx]
      exact List.isEmpty_iff.mp hempty
  split
  · rename_i hsettled
    refine hset ?_ fun hl => ?_
    · rw [hcore]
      exact Node.settledSize_fits hpose.firm hpose.owner
    · rw [hl] at hsettled
      cases hsettled
  · obtain ⟨hgo, hrest⟩ := layContainer_goes hv direction hq.kept hx hd hno hpose
    exact ⟨hq.trans hgo, hrest⟩

omit [Lawful α] in
theorem Asked.refresh (ha : Asked b p x r) {direction : Direction} :
    Asked b (p.refresh x direction) x r := by
  have htrail : (p.refresh x direction).trail = p.trail := by
    unfold Pass.refresh
    split <;> rfl
  constructor
  · rw [htrail]
    exact ha.proper
  · rw [htrail]
    exact ha.firm

omit [Lawful α] in
theorem Kept.refresh (hk : Kept b B D p) (hx : x ∈ B) (direction : Direction) :
    Goes b B D h p (p.refresh x direction) := by
  have hsame : ∀ n : Node α,
      (n.refreshed p.generation direction).geometry.size = n.geometry.size ∧
      (n.refreshed p.generation direction).geometry.measured = n.geometry.measured ∧
      (n.refreshed p.generation direction).style = n.style ∧
      (n.refreshed p.generation direction).resolvedSize = n.resolvedSize := by
    intro n
    unfold Node.refreshed
    split <;> exact ⟨rfl, rfl, rfl, rfl⟩
  obtain ⟨hsize, hmeasured, hstyle, hresolved⟩ := hsame (p.node x)
  rw [refresh_eq (hk.live x hx)]
  refine hk.update hx (fun n => n.refreshed_core _ _) ((hk.tidy x hx).refreshed _ _) (fun hl => ?_)
    (fun _ hs => ?_) (fun hs => hs.congr hstyle hresolved) (Or.inr fun hm => ?_)
  · refine hk.inner x hx fun hb => hl ?_
    unfold Node.refreshed
    split
    · rfl
    · exact hb
  · unfold Node.HasSize
    rw [hsize]
    exact hs
  · unfold Node.IsMeasured
    rw [hmeasured]
    exact hm

omit [Scalar α] [Lawful α] in
theorem SizedBelow.from (hs : SizedBelow b D x p) (hx : (p.node x).HasSize) :
    SizedFrom b D x p := by
  intro y hy hb
  rcases Relation.reflTransGen_iff_eq_or_transGen.mp hb with rfl | hb
  · exact hx
  · exact hs y hy hb

theorem compute_goes (hv : Sizes b B D h v) (hk : Kept b B D p) (hx : x ∈ B)
    (hd : Deep b (h + 1) x) (hno : ¬ Deep b h x) (ha : Asked b p x r) :
    Goes b B D (h + 1) p ((p.compute v x r).finish x r) := by
  have hrec : Kept b B D (p.record ⟨x, r, .computed⟩) := hk.record hx (ha.proper .computed)
  obtain ⟨hlay, hmeasured, hbelow⟩ := layNode_goes hv hrec hx hd hno (ha.posed .computed)
  have hfinish := compute_finish_eq (p := p) (v := v) (r := r) rfl (hlay.kept.live x hx)
  rw [hfinish]
  generalize (p.record ⟨x, r, .computed⟩).layNode v x r = q at hlay hmeasured hbelow ⊢
  have hwrite : Goes b B D h q (q.update x fun n => n.computed r q.generation) := by
    refine hlay.kept.update hx (fun n => Node.computed_core n r _)
      ((hlay.kept.tidy x hx).computed hmeasured r _) (fun hl => ?_)
      (fun _ hs => Node.computed_hasSize hmeasured _ (Or.inr hs))
      (fun hs => ?_) (Or.inr fun hm => ?_)
    · by_cases hl' : r.performLayout = true
      · exact hbelow hl'
      · rw [Node.computed_lastLayout hl'] at hl
        exact hlay.kept.inner x hx hl
    all_goals rw [Node.computed_eq]
    · exact hs.congr rfl rfl
    · exact hm
  have hsize : r.performLayout = true →
      ((q.update x fun n => n.computed r q.generation).node x).HasSize := by
    intro hl
    rw [node_update_self (hlay.kept.live x hx)]
    exact Node.computed_hasSize hmeasured _ (Or.inl hl)
  have hend := hwrite.kept.count (h := h) fun s => { s with
    maxMeasureCache := max s.maxMeasureCache ((q.node x).geometry.roomForOne.length + 1) }
  refine (Goes.recorded ((hlay.trans hwrite).trans hend) fun hl => ?_).mono (Nat.le_succ h)
  exact hend.sizedFrom ((hwrite.sizedBelow (hbelow hl)).from (hsize hl))

theorem restore_goes (hk : Kept b B D p) (hx : Member b B h x) (ha : Asked b p x r)
    {source : Source} (hr : (p.node x).remembered? r = some source) :
    Goes b B D h p ((p.restore x r source).finish x r) := by
  obtain ⟨entry, he⟩ := Node.entry?_of_remembered? hr
  have hbelow : r.performLayout = true → SizedBelow b D x p := by
    intro hl
    rcases Node.remembered?_cases hr he with ⟨-, hb⟩ | ⟨-, hmeasure⟩
    · exact hk.inner x hx.mem hb
    · refine sizedBelow_of_leaf (hk.scene.leaf x hx.mem ?_)
      have hsome := hmeasure hl
      rw [hk.core hx.mem] at hsome
      exact hsome
  have hrec : Kept b B D (p.record ⟨x, r, source⟩) := hk.record hx.mem (ha.proper source)
  have hentry := (hrec.tidy x hx.mem).entry hr he
  rw [restore_finish_eq (hk.live x hx.mem) he]
  have hwrite : Goes b B D h (p.record ⟨x, r, source⟩)
      ((p.record ⟨x, r, source⟩).update x fun n => n.restored entry r p.generation) :=
    hrec.update hx.mem (fun _ => rfl) ((hrec.tidy x hx.mem).restored hentry r _)
      (hrec.inner x hx.mem) (fun _ hs => Node.restored_hasSize hentry _ (Or.inr hs))
      (fun hs => hs.congr rfl rfl) (Or.inl hx.deep)
  have hend := hwrite.kept.count (h := h) fun s =>
    if r.performLayout then { s with cachedLayouts := s.cachedLayouts + 1 }
    else { s with cachedMeasures := s.cachedMeasures + 1 }
  refine Goes.recorded (hwrite.trans hend) fun hl => hend.sizedFrom (SizedBelow.from
    (hwrite.sizedBelow (hbelow hl)) ?_)
  rw [node_update_self (hrec.live x hx.mem)]
  exact Node.restored_hasSize hentry _ (Or.inl hl)

theorem visit_goes (b : Pass α) (B D : Set NodeId) (h : Nat) {fuel : Nat} (hf : h < fuel)
    (hx : Member b B h x) (hk : Kept b B D p) (hs : (p.node x).IsSized) (ha : Asked b p x r) :
    Goes b B D h p (visit fuel x r p).2 := by
  induction h generalizing fuel x r p with
  | zero => cases hx.deep
  | succ h ih =>
    by_cases hd : Deep b h x
    · exact (ih (Nat.lt_of_succ_lt hf) ⟨hx.mem, hd⟩ hk hs ha).mono (Nat.le_succ h)
    · obtain ⟨fuel, rfl⟩ := exists_pred hf
      have hlow := Nat.lt_of_succ_lt_succ hf
      have hn := node_eq (hk.live x hx.mem)
      have href : Goes b B D (h + 1) p (p.refresh x r.ownerDirection) := hk.refresh hx.mem _
      have hnode := node_refresh hn r.ownerDirection
      have hasked : Asked b (p.refresh x r.ownerDirection) x r := ha.refresh
      cases hr : ((p.node x).refreshed p.generation r.ownerDirection).remembered? r with
      | some source =>
        rw [visit_of_remembered hn hr]
        exact href.trans (restore_goes href.kept hx hasked (by rw [hnode]; exact hr))
      | none =>
        rw [visit_of_forgotten hn hr]
        exact href.trans (compute_goes ⟨visit_attentive (Nat.zero_lt_of_lt hlow), ih hlow⟩
          href.kept hx.mem hx.deep hd hasked)

end Pass

end Flexbox
