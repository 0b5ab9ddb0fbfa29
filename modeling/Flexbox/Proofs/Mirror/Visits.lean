import Flexbox.Proofs.Mirror.Containers

namespace Flexbox

variable {α : Type} [Scalar α]

namespace Node

variable {n m : Node α}

theorem Reflects.refreshed (h : n.Reflects m) (generation : UInt32) (direction : Direction) :
    (n.refreshed generation direction).Reflects (m.refreshed generation direction.mirror) := by
  unfold Node.refreshed
  rw [h.isOutdated]
  obtain ⟨left, right, count, rfl⟩ := h
  split
  · exact ⟨left, right, count, rfl⟩
  · exact ⟨left, right, count, rfl⟩

theorem Reflects.computed (h : n.Reflects m) (r : Request α) (generation : UInt32) :
    (n.computed r generation).Reflects (m.computed r.mirror generation) := by
  obtain ⟨left, right, count, rfl⟩ := h
  obtain ⟨width, height, direction, ownerWidth, ownerHeight, performLayout⟩ := r
  cases performLayout with
  | false => exact ⟨left, right, count, rfl⟩
  | true => exact ⟨left, right, count, rfl⟩

theorem Reflects.restored (h : n.Reflects m) (entry : Measurement α) (r : Request α)
    (generation : UInt32) :
    (n.restored entry r generation).Reflects (m.restored entry r.mirror generation) := by
  obtain ⟨left, right, count, rfl⟩ := h
  exact ⟨left, right, count, rfl⟩

end Node

namespace Pass

variable {S : Set NodeId} {h : Nat} {p p' q q' : Pass α} {x : NodeId}
  {v v' : Visitor α} {r : Request α}

variable [Std.Commutative (fun a b : α => a + b)] {fuel : Nat}

theorem measureLeaf_onward (measure : Measure α) (r : Request α) (hm : Mirrored S p p')
    (hx : x ∈ S) (hl : p.tree.Live x) :
    Onward S h p p' (p.measureLeaf x measure r) (p'.measureLeaf x measure r.mirror) := by
  have hn := hm.node x hx hl
  have hu := hm.undirected x hx hl
  have hbound : ∀ size, (p'.node x).boundSize r.mirror size = (p.node x).boundSize r size :=
    hn.boundSize hu r
  have hleaf : ∀ content, (p'.node x).leafSize r.mirror content = (p.node x).leafSize r content :=
    hn.leafSize hu r
  unfold measureLeaf
  dsimp only
  simp only [Request.mirror_width, Request.mirror_height, hbound, hleaf, hn.contentOffer hu]
  split
  · exact hm.setMeasured hx hl _ _
  · have htell := hm.tell (h := h)
    generalize hwidth : (p.node x).contentOffer .row r.width r.width.size = width
    generalize hheight : (p.node x).contentOffer .column r.height r.width.size = height
    have hcount := (htell (.measured measure.label width height)
      (.measured measure.label width height)).trans
        ((htell _ _).mirrored.count (f := fun s =>
          { s with measureCallbacks := s.measureCallbacks + 1 }) fun _ => le_rfl)
    exact hcount.trans (hcount.mirrored.setMeasured hx (hcount.moves.live hm.sound hl) _ _)

omit [Std.Commutative (fun a b : α => a + b)] in
/-- The node takes its direction here, so nothing above it is redirected later. -/
theorem edged_onward (hr : r.ownerDirection = .ltr) (hm : Mirrored S p p') (hx : x ∈ S)
    (hl : p.tree.Live x) (hd : (p.tree.unfold h x).isSome) :
    Onward S h p p' (p.edged x r) (p'.edged x r.mirror) ∧
      ((p.edged x r).node x).geometry.direction = .ltr := by
  have hn := hm.node x hx hl
  have hu := hm.undirected x hx hl
  unfold edged
  rw [Request.mirror_performLayout, Request.mirror_ownerDirection, Request.mirror_ownerWidth, hr,
    Node.resolveDirection_undirected hu .ltr nofun,
    Node.resolveDirection_undirected (hn.undirected hu) Direction.ltr.mirror nofun]
  generalize hq : p.count _ = q
  generalize hq' : p'.count _ = q'
  have hcount : Onward S h p p' q q' := hq ▸ hq' ▸ hm.count fun s => by split <;> exact le_rfl
  have hshape : q.tree = p.tree := hq ▸ rfl
  rw [← hshape] at hl hd
  have hn := hcount.mirrored.node x hx hl
  refine ⟨hcount.trans (hcount.mirrored.update hx hl (fun _ => rfl) (fun _ => rfl)
    (hn.withBoxEdges r.ownerWidth) (fun _ _ hlead => hlead) (hcount.mirrored.memory x hx hl)
    (Or.inl hd)), ?_⟩
  rw [redraw, node_update_self hl]
  rfl

theorem layNode_onward (hv : Mirrors S h v v') (hr : r.ownerDirection = .ltr)
    (hm : Mirrored S p p') (hx : x ∈ S) (hl : p.tree.Live x)
    (hd : (p.tree.unfold (h + 1) x).isSome) (hhigh : ¬ (p.tree.unfold h x).isSome) :
    Onward S (h + 1) p p' (p.layNode v x r) (p'.layNode v' x r.mirror) ∧
      ((p.layNode v x r).node x).geometry.direction = .ltr ∧
      (r.performLayout = true → Imaged (p.layNode v x r) (p'.layNode v' x r.mirror) x) := by
  obtain ⟨hdraw, hltr⟩ := edged_onward hr hm hx hl hd
  have hn := hm.node x hx hl
  have hu := hm.undirected x hx hl
  rw [layNode_eq, layNode_eq, Request.mirror_ownerDirection, hr,
    Node.resolveDirection_undirected hu .ltr nofun,
    Node.resolveDirection_undirected (hn.undirected hu) Direction.ltr.mirror nofun]
  generalize p.edged x r = u at hdraw hltr ⊢
  generalize p'.edged x r.mirror = u' at hdraw ⊢
  unfold layInside
  have hlu := hdraw.moves.live hm.sound hl
  rw [← hdraw.moves.unfold hm.sound hl] at hd hhigh
  have hn := hdraw.mirrored.node x hx hlu
  have hu := hdraw.mirrored.undirected x hx hlu
  have hempty : (u'.node x).emptySize r.mirror = (u.node x).emptySize r := hn.emptySize hu r
  have hsettled : (u'.node x).settledSize r.mirror = (u.node x).settledSize r := hn.settledSize hu r
  have hsettles : r.mirror.isSettled = r.isSettled := rfl
  rw [hn.same Node.measure fun _ _ _ => rfl, hn.children, hempty, hsettled, hsettles,
    Request.mirror_performLayout]
  have hstill : ∀ {w w'}, Onward S h u u' w w' → (w.node x).geometry.direction = .ltr :=
    fun ho => by rw [ho.still x hx hlu hhigh, hltr]
  have hmono : ∀ {w w'}, Onward S h u u' w w' → Onward S (h + 1) p p' w w' :=
    fun ho => hdraw.trans (ho.mono (Nat.le_succ h))
  cases hmeasure : (u.node x).measure with
  | some measure =>
    have hleaf := measureLeaf_onward (h := h) measure r hdraw.mirrored hx hlu
    have hnone := hdraw.mirrored.sound.arena.leaf (node_eq hlu) (by rw [hmeasure]; rfl)
    have himaged : Imaged u u' x := imaged_of_childless hlu hnone
    exact ⟨hmono hleaf, hstill hleaf, fun _ => hleaf.imaged x hx hlu himaged⟩
  | none =>
    dsimp only
    have hset := fun width height => hdraw.mirrored.setMeasured (h := h) hx hlu width height
    by_cases hnone : (u.node x).children.isEmpty = true
    · simp only [hnone, if_true]
      have himaged : Imaged u u' x := imaged_of_childless hlu (List.isEmpty_iff.mp hnone)
      exact ⟨hmono (hset _ _), hstill (hset _ _), fun _ => (hset _ _).imaged x hx hlu himaged⟩
    simp only [hnone, Bool.false_eq_true, if_false]
    by_cases hsettles : (!r.performLayout && r.isSettled) = true
    · simp only [hsettles, if_true]
      refine ⟨hmono (hset _ _), hstill (hset _ _), fun hlayout => ?_⟩
      simp [hlayout] at hsettles
    · simp only [hsettles, Bool.false_eq_true, if_false]
      obtain ⟨ho, hi⟩ := layContainer_onward hv r hdraw.mirrored hx hlu hd hhigh hltr
      exact ⟨hmono ho, hstill ho, hi⟩

omit [Std.Commutative (fun a b : α => a + b)] in
theorem Mirrored.refresh (hm : Mirrored S p p') (hx : x ∈ S) (hl : p.tree.Live x)
    (direction : Direction) :
    Onward S h p p' (p.refresh x direction) (p'.refresh x direction.mirror) := by
  have hkeeps : ∀ n : Node α, (n.refreshed p.generation direction).geometry.position =
      n.geometry.position ∧
      (n.refreshed p.generation direction).geometry.direction = n.geometry.direction := by
    intro n
    unfold Node.refreshed
    split <;> exact ⟨rfl, rfl⟩
  have hkeeps' : ((p'.node x).refreshed p.generation direction.mirror).geometry.position =
      (p'.node x).geometry.position := by
    unfold Node.refreshed
    split <;> rfl
  rw [refresh_eq hl, refresh_eq (hm.live' hl), hm.generation]
  refine hm.update hx hl (fun n => n.refreshed_core _ _) (fun n => n.refreshed_core _ _)
    ((hm.node x hx hl).refreshed _ _) (fun z _ hlead => ?_) (fun hne => ?_)
    (Or.inr (hkeeps _).2)
  · unfold Node.Leads at hlead ⊢
    rw [hkeeps', (hkeeps _).1, hlead]
  · refine hm.memory x hx hl fun hb => hne ?_
    unfold Node.refreshed
    split
    · rfl
    · exact hb

theorem compute_onward (hv : Mirrors S h v v') (hr : r.ownerDirection = .ltr)
    (hm : Mirrored S p p') (hx : x ∈ S) (hl : p.tree.Live x)
    (hd : (p.tree.unfold (h + 1) x).isSome) (hhigh : ¬ (p.tree.unfold h x).isSome) :
    Onward S (h + 1) p p' ((p.compute v x r).finish x r)
        ((p'.compute v' x r.mirror).finish x r.mirror) ∧
      (((p.compute v x r).finish x r).node x).geometry.direction = .ltr := by
  have hrec := hm.record (h := h + 1) (v := ⟨x, r, .computed⟩) hx ⟨x, r.mirror, .computed⟩
  obtain ⟨hlaid, hltr, hi⟩ := layNode_onward hv hr hrec.mirrored hx hl hd hhigh
  have hlu := hlaid.moves.live hrec.mirrored.sound hl
  rw [compute_finish_eq rfl hlu, compute_finish_eq rfl (hlaid.mirrored.live' hlu)]
  generalize (p.record ⟨x, r, .computed⟩).layNode v x r = u at *
  generalize (p'.record ⟨x, r.mirror, .computed⟩).layNode v' x r.mirror = u' at *
  have hmu := hlaid.mirrored
  have hn := hmu.node x hx hlu
  rw [hmu.generation, hn.same (fun n => n.geometry.roomForOne.length) fun _ _ _ => rfl]
  have hwrite : Onward S (h + 1) u u' (u.update x fun n => n.computed r u.generation)
      (u'.update x fun n => n.computed r.mirror u.generation) := by
    refine hmu.update hx hlu (fun n => n.computed_core _ _) (fun n => n.computed_core _ _)
      (hn.computed r _) (fun z _ hlead => ?_) (fun hne => ?_) (Or.inr ?_)
    · rw [Node.computed_eq, Node.computed_eq (u'.node x)]
      exact hlead
    · by_cases hlayout : r.performLayout = true
      · exact hi hlayout
      · refine hmu.memory x hx hlu fun hb => hne ?_
        simpa [Node.computed, Node.answered, Node.remembering, Node.directed, Geometry.remember,
          hlayout] using hb
    · rw [Node.computed_eq]
  have hcount := hwrite.mirrored.count (h := h + 1) (f := fun s => { s with
    maxMeasureCache := max s.maxMeasureCache ((u.node x).geometry.roomForOne.length + 1) })
    fun _ => le_max_left _ _
  have hend := hwrite.trans hcount
  refine ⟨(hrec.trans hlaid).trans hend, ?_⟩
  change ((u.update x fun n => n.computed r u.generation).node x).geometry.direction = .ltr
  rw [node_update_self hlu, Node.computed_eq]
  exact hltr

omit [Std.Commutative (fun a b : α => a + b)] in
theorem restore_onward (r : Request α) (hm : Mirrored S p p') (hx : x ∈ S) (hl : p.tree.Live x)
    {source : Source} {entry : Measurement α}
    (he : (p.node x).geometry.entry? source = some entry) :
    Onward S h p p' ((p.restore x r source).finish x r)
      ((p'.restore x r.mirror source).finish x r.mirror) := by
  have he' : (p'.node x).geometry.entry? source = some entry := by
    rw [(hm.node x hx hl).same (fun n => n.geometry.entry? source) fun _ _ _ => by
      cases source <;> rfl, he]
  have hrec := hm.record (h := h) (v := ⟨x, r, source⟩) hx ⟨x, r.mirror, source⟩
  rw [restore_finish_eq hl he, restore_finish_eq (hm.live' hl) he', hm.generation,
    Request.mirror_performLayout]
  have hlu : (p.record ⟨x, r, source⟩).tree.Live x := hl
  generalize p.record ⟨x, r, source⟩ = u at hrec hlu ⊢
  generalize p'.record ⟨x, r.mirror, source⟩ = u' at hrec ⊢
  have hmu := hrec.mirrored
  have hwrite : Onward S h u u' (u.update x fun n => n.restored entry r p.generation)
      (u'.update x fun n => n.restored entry r.mirror p.generation) :=
    hmu.update hx hlu (fun _ => rfl) (fun _ => rfl) ((hmu.node x hx hlu).restored entry r _)
      (fun _ _ hlead => hlead) (hmu.memory x hx hlu) (Or.inr rfl)
  exact (hrec.trans hwrite).trans (hwrite.mirrored.count fun s => by split <;> exact le_rfl)

theorem visit_mirrored
    (hv : Mirrors S h (fun x r (p : Pass α) => (visit fuel x r p).2)
      (fun x r p => (visit fuel x r p).2))
    (hr : r.ownerDirection = .ltr) (hm : Mirrored S p p') (hx : x ∈ S) (hl : p.tree.Live x)
    (hd : (p.tree.unfold (h + 1) x).isSome) (hhigh : ¬ (p.tree.unfold h x).isSome) :
    (visit (fuel + 1) x r.mirror p').1 = (visit (fuel + 1) x r p).1 ∧
      Onward S (h + 1) p p' (visit (fuel + 1) x r p).2 (visit (fuel + 1) x r.mirror p').2 ∧
      ((visit (fuel + 1) x r p).1 = true →
        ((visit (fuel + 1) x r p).2.node x).geometry.direction = .ltr) := by
  have hfind := node_eq hl
  have hfind' := node_eq (hm.live' hl)
  have href := hm.refresh (h := h + 1) hx hl r.ownerDirection
  have hlq := href.moves.live hm.sound hl
  have hnode := node_refresh hfind r.ownerDirection
  have hsame : ((p'.node x).refreshed p'.generation r.mirror.ownerDirection).remembered? r.mirror =
      ((p.node x).refreshed p.generation r.ownerDirection).remembered? r := by
    have hu := href.mirrored.undirected x hx hlq
    rw [hnode] at hu
    rw [hm.generation, Request.mirror_ownerDirection]
    exact ((hm.node x hx hl).refreshed _ _).remembered? hu r
  cases hrem : ((p.node x).refreshed p.generation r.ownerDirection).remembered? r with
  | some source =>
    rw [visit_of_remembered hfind hrem, visit_of_remembered hfind' (hsame.trans hrem)]
    obtain ⟨entry, he⟩ := Node.entry?_of_remembered? hrem
    rw [← hnode] at he
    exact ⟨rfl, href.trans (restore_onward r href.mirrored hx hlq he), nofun⟩
  | none =>
    rw [visit_of_forgotten hfind hrem, visit_of_forgotten hfind' (hsame.trans hrem)]
    rw [← href.moves.unfold hm.sound hl] at hd hhigh
    obtain ⟨ho, hltr⟩ := compute_onward hv hr href.mirrored hx hlq hd hhigh
    exact ⟨rfl, href.trans ho, fun _ => hltr⟩

theorem visit_onward (S : Set NodeId) (h : Nat) (hf : h < fuel) (hr : r.ownerDirection = .ltr)
    (hm : Mirrored S p p') (hx : x ∈ S) (hl : p.tree.Live x) (hd : (p.tree.unfold h x).isSome) :
    (visit fuel x r.mirror p').1 = (visit fuel x r p).1 ∧
      Onward S h p p' (visit fuel x r p).2 (visit fuel x r.mirror p').2 ∧
      ((visit fuel x r p).1 = true →
        ((visit fuel x r p).2.node x).geometry.direction = .ltr) := by
  induction h generalizing fuel x r p p' with
  | zero => cases hd
  | succ h ih =>
    by_cases hdeep : (p.tree.unfold h x).isSome
    · obtain ⟨hflag, ho, hlast⟩ := ih (Nat.lt_of_succ_lt hf) hr hm hx hl hdeep
      exact ⟨hflag, ho.mono (Nat.le_succ h), hlast⟩
    · obtain ⟨fuel, rfl⟩ := exists_pred hf
      have hlow := Nat.lt_of_succ_lt_succ hf
      exact visit_mirrored ⟨visit_attentive (Nat.zero_lt_of_lt hlow),
        fun _ _ _ _ hm hx hl hd hr => (ih hlow hr hm hx hl hd).2.1⟩ hr hm hx hl hd hdeep

end Pass

end Flexbox
