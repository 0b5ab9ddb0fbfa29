import Flexbox.Proofs.Cleaning

namespace Flexbox

variable {α : Type}

namespace Chore

/-- The child that a chore is done to. -/
def child? : Chore α → Option NodeId
  | .note | .report | .heed _ => none
  | .settle x | .place x | .number x _ | .clear x | .ask x _ => some x

/-- A note on the container itself. -/
def isNote : Chore α → Bool
  | .note | .heed _ => true
  | _ => false

end Chore

/-- Both nodes have the same style, are sized by it alike and are on the same line. -/
def Node.SameRole {α : Type} (n m : Node α) : Prop :=
  m = { n with
    geometry := m.geometry
    children := m.children
    sharedCount := m.sharedCount
    hasNewLayout := m.hasNewLayout }

theorem Node.SameRole.trans {α : Type} {n m k : Node α} (h : SameRole n m) (h' : SameRole m k) :
    SameRole n k := by
  unfold SameRole at *
  rw [h'] at *
  rw [h]

namespace Pass

variable {p q u : Pass α} {id x y : NodeId} {n : Node α} {v : Visitor α}
  {P : Chore α → Prop} {t : Chore α}

theorem About.child_ne {xs : List NodeId} (h : About xs t) (hno : x ∉ xs) :
    t.child? ≠ some x := by
  cases t with
  | note | report | heed => nofun
  | settle | place | number | clear | ask =>
    rintro ⟨⟩
    exact hno h

theorem Admitted.territory (hs : p.tree.Sound) (hx : p.tree.Live x) :
    Admitted (p.tree.territory x) p x :=
  ⟨hs, Tree.territory_domain hs.arena x, Tree.mem_territory_self _ _, hx⟩

/-- A container that has all its children for itself and is not below any of them. -/
structure Nested (p : Pass α) (id : NodeId) : Prop extends Household p id where
  grounded : p.tree.Grounded id

section

variable (h : Nested p id)

include h

theorem Nested.nodup : (p.children id).Nodup := by
  rw [children_eq h.live, Tree.childrenOf_eq (node_eq h.live)]
  exact h.sound.arena.nodup (node_eq h.live)

theorem Nested.not_belongsTo (hx : x ∈ p.children id) : ¬ p.tree.BelongsTo id x := fun hb => by
  rw [children_eq h.live] at hx
  exact h.grounded.not_reached hx (hb.reaches h.sound.arena)

theorem Nested.ne (hx : x ∈ p.children id) : x ≠ id := fun he => h.not_belongsTo hx (he ▸ .refl)

theorem Nested.siblings (hy : y ∈ p.children id) (hx : x ∈ p.children id) (hne : y ≠ x) :
    ¬ p.tree.BelongsTo y x := by
  intro hb
  rcases Relation.ReflTransGen.cases_head hb with he | ⟨z, hz, hb⟩
  · exact hne he
  · rw [children_eq h.live] at hy
    obtain rfl := Option.some.inj ((h.owned y hy).symm.trans hz)
    exact h.not_belongsTo hx hb

end

/-- The node is not visited, and its role is what it was. -/
structure Still (x : NodeId) (p q : Pass α) : Prop where
  role : ∀ {n}, p.tree.find? x = some n → ∃ m, q.tree.find? x = some m ∧ n.SameRole m
  trail : ∃ run, q.trail = run ++ p.trail ∧ ∀ u ∈ run, u.node ≠ x

theorem Still.of_eq (ht : q.tree.find? x = p.tree.find? x) (hq : q.trail = p.trail) :
    Still x p q :=
  ⟨fun hn => ⟨_, ht.trans hn, rfl⟩, [], hq, by simp⟩

theorem Still.node (h : Still x p q) (hl : p.tree.Live x) : (p.node x).SameRole (q.node x) := by
  obtain ⟨m, hm, hrole⟩ := h.role (node_eq hl)
  rwa [node_of_find? hm]

theorem Still.update {f : Node α → Node α} (hf : ∀ n, Node.SameRole n (f n)) :
    Still x p (p.update x f) := by
  refine ⟨fun hn => ⟨_, ?_, hf _⟩, [], rfl, by simp⟩
  rw [Pass.update, Tree.find?_update_self, hn]
  rfl

theorem Still.updateGeometry (p : Pass α) (x : NodeId) (f : Geometry α → Geometry α) :
    Still x p (p.updateGeometry x f) :=
  .update fun _ => rfl

theorem Still.count (p : Pass α) (x : NodeId) (f : Stats → Stats) : Still x p (p.count f) :=
  .of_eq rfl rfl

theorem Still.trans (h : Still x p q) (h' : Still x q u) : Still x p u := by
  obtain ⟨run, htrail, hrun⟩ := h.trail
  obtain ⟨run', htrail', hrun'⟩ := h'.trail
  refine ⟨fun hn => ?_, run' ++ run, by rw [htrail', htrail, List.append_assoc], fun w hw => ?_⟩
  · obtain ⟨m, hm, hrole⟩ := h.role hn
    obtain ⟨k, hk, hrole'⟩ := h'.role hm
    exact ⟨k, hk, hrole.trans hrole'⟩
  · exact (List.mem_append.mp hw).elim (hrun' w) (hrun w)

variable [Scalar α]

theorem Moves.still (h : Moves {x}ᶜ p q) (hs : p.tree.Sound) : Still x p q := by
  refine ⟨fun hn => ?_, h.trail⟩
  obtain ⟨j, hj⟩ := h.untouched hs (by simp) hn
  exact ⟨_, hj, rfl⟩

theorem Moves.beside (h : Moves (p.tree.territory x) p q) (hy : p.tree.Live y)
    (hno : ¬ p.tree.BelongsTo y x) : Moves {y}ᶜ p q :=
  h.mono fun _ hz he => Tree.not_mem_territory hy hno (he ▸ hz)

/-- A visitor that leaves those alone that do not belong to the node it visits. -/
structure Discreet (v : Visitor α) : Prop where
  moves : Mover Set.univ v
  spares : ∀ {p x y} r, p.tree.Sound → p.tree.Live x → p.tree.Live y → ¬ p.tree.BelongsTo y x →
    Moves {y}ᶜ p (v x r p)

theorem visit_discreet (fuel : Nat) :
    Discreet (α := α) fun x r p => (visit fuel x r p).2 where
  moves _ r _ hp := visit_moves fuel r hp
  spares r hs hx hy hno := (visit_moves fuel r (Admitted.territory hs hx)).beside hy hno

section

variable (h : Nested p id) (hv : Discreet v)

include h

theorem Nested.moves (hm : Moves Set.univ p q) : Nested q id :=
  ⟨h.toHousehold.moves hm, hm.grounded h.sound h.grounded⟩

include hv

/-- A chore passes by the container if it leaves no note, and each child but the one it is for. -/
theorem Nested.beside (ht : About (p.children id) t) (hd : Does v id t p q)
    (hy : y = id ∧ t.isNote = false ∨ y ∈ p.children id ∧ t.child? ≠ some y) : Moves {y}ᶜ p q := by
  have hlive : p.tree.Live y := by
    rcases hy with ⟨rfl, -⟩ | ⟨hy, -⟩
    · exact h.live
    · exact (h.child hy).live
  have hself : t.isNote = true → id ∈ ({y}ᶜ : Set NodeId) := by
    rintro hnote rfl
    rcases hy with ⟨-, hno⟩ | ⟨hy, -⟩
    · cases hno.symm.trans hnote
    · exact h.ne hy rfl
  have hchild : ∀ {x}, x ∈ p.children id → t.child? = some x → ¬ p.tree.BelongsTo y x := by
    intro x hx hc
    rcases hy with ⟨rfl, -⟩ | ⟨hy, hno⟩
    · exact h.not_belongsTo hx
    · exact h.siblings hy hx fun he => hno (he ▸ hc)
  have hne : ∀ {x}, x ∈ p.children id → t.child? = some x → x ∈ ({y}ᶜ : Set NodeId) :=
    fun hx hc he => hchild hx hc (he ▸ .refl)
  cases hd with
  | note | overrun | heed => exact updateGeometry_moves (hself rfl) _
  | settle | base | place | number => exact update_moves (hne ht rfl) fun _ => rfl
  | clear _ x fuel =>
    have hclear := zeroOut_moves fuel (Admitted.territory h.sound (h.child ht).live)
    exact hclear.beside hlive (hchild ht rfl)
  | ask _ x r => exact hv.spares r h.sound (h.child ht).live hlive (hchild ht rfl)
  | tell => exact (Step.tell p _).moves
  | count _ hf => exact count_moves hf

/-- What passes by at each chore passes by at all. -/
theorem Nested.works (hw : Works v id P p q) (hP : ∀ t, P t → About (p.children id) t ∧
      (y = id ∧ t.isNote = false ∨ y ∈ p.children id ∧ t.child? ≠ some y)) : Moves {y}ᶜ p q := by
  induction hw with
  | refl => exact .refl p
  | tail _ hd ih =>
    have hm := ih.mono (Set.subset_univ _)
    obtain ⟨t, ht, hd⟩ := hd
    rw [← h.children hm] at hP
    exact ih.trans ((h.moves hm).beside hv (hP t ht).1 hd (hP t ht).2)

/-- Work on some children leaves the others alone. -/
theorem Nested.others {xs : List NodeId} (hm : Moves Set.univ p q)
    (hxs : ∀ x ∈ xs, x ∈ p.children id) (hx : x ∈ p.children id) (hno : x ∉ xs)
    (hw : Works v id (About xs) q u) : Moves {x}ᶜ q u := by
  have hkids := h.children hm
  exact (h.moves hm).works hv hw fun t ht =>
    ⟨ht.mono (hkids ▸ hxs), Or.inr ⟨hkids ▸ hx, ht.child_ne hno⟩⟩

/-- A container does not come to itself. -/
theorem Nested.still (hw : Works v id (About (p.children id)) p q) : Still id p q := by
  induction hw with
  | refl => exact .of_eq rfl rfl
  | tail hw hd ih =>
    have hm := h.does hv.moves hw
    have hn := h.moves hm
    obtain ⟨t, ht, hd⟩ := hd
    rw [← h.children hm] at ht
    refine ih.trans ?_
    cases hnote : t.isNote with
    | false => exact (hn.beside hv ht hd (Or.inl ⟨rfl, hnote⟩)).still hn.sound
    | true =>
      cases hd with
      | note | overrun | heed => exact .updateGeometry _ _ _
      | settle | base | place | number | clear | ask | tell | count => cases hnote

end

section

variable (hs : p.tree.Sound) (hg : p.tree.Grounded x)

include hs hg

theorem Nested.own : Nested (p.ownChildren x) x :=
  ⟨.own hs hg.live, (Step.own p (Set.mem_univ x) hg.live).moves.grounded hs hg⟩

theorem Nested.enter : Nested (p.enter x) x :=
  ⟨.enter hs hg.live, (enter_moves hg.live).grounded hs hg⟩

omit hg in
theorem find?_enter (hn : p.tree.find? x = some n) : ∃ ks j,
    (p.enter x).tree.find? x = some { n with
      children := ks, sharedCount := j, geometry := { n.geometry with hadOverflow := false } } ∧
    ks.length = n.children.length := by
  obtain ⟨s, he, -, hpriv⟩ := ownChildren_run hs ⟨n, hn⟩
  obtain ⟨ks, j, hfind, hall⟩ := hpriv.self _ hn
  refine ⟨ks, j, ?_, hall.length_eq.symm⟩
  rw [enter, he, updateGeometry, Pass.update, Tree.find?_update_self, hfind]
  rfl

theorem ownChildren_still : Still x p (p.ownChildren x) := by
  obtain ⟨s, he, -, hp⟩ := ownChildren_run hs hg.live
  rw [he]
  refine ⟨fun hn => ?_, [], rfl, by simp⟩
  obtain ⟨ks, j, hk, -⟩ := hp.self _ hn
  exact ⟨_, hk, rfl⟩

theorem layNode_still (hv : Discreet v) (r : Request α) : Still x p (p.layNode v x r) := by
  have hset : ∀ {q : Pass α} (size : Size α), Still x q (q.setMeasured x size.width size.height) :=
    fun _ => .updateGeometry _ x _
  have hdraw := edged_moves (p := p) (Set.mem_univ x) r
  have hstill : Still x p (p.edged x r) := (Still.count p x _).trans (.update fun _ => rfl)
  rw [layNode_eq]
  generalize p.edged x r = w at hdraw hstill ⊢
  refine hstill.trans ?_
  unfold layInside
  split
  · rename_i measure _
    unfold measureLeaf
    dsimp only
    split
    · exact hset _
    · exact Still.trans (q := (w.tell _).count _) (.of_eq rfl rfl) (hset _)
  split
  · exact hset _
  split
  · exact hset _
  have hsw := hdraw.sound hs
  have hgw := hdraw.grounded hs hg
  have hnest := Nested.own hsw hgw
  exact (ownChildren_still hsw hgw).trans (hnest.still hv
    ((hnest.labors hv.moves (layContainer_labors _ r)).mono fun _ ht => ht.2))

omit hs hg [Scalar α] in
theorem node_count (q : Pass α) (f : Stats → Stats) (y : NodeId) : (q.count f).node y = q.node y :=
  rfl

theorem compute_still (hv : Discreet v) (r : Request α) :
    Still x (p.record ⟨x, r, .computed⟩) (p.compute v x r) ∧
      (p.compute v x r).generation = p.generation ∧
      (r.performLayout = true → ((p.compute v x r).node x).geometry.lastLayout ≠ .blank) := by
  have hready : Ready Set.univ (p.record ⟨x, r, .computed⟩) x := .univ hs hg.live
  have hlay := layNode_moves hv.moves r hready.admitted
  have hstill := layNode_still (p := p.record ⟨x, r, .computed⟩) hs hg hv r
  have hlive := hlay.live hs hg.live
  unfold compute
  dsimp only
  generalize (p.record ⟨x, r, .computed⟩).layNode v x r = q at hlay hstill hlive ⊢
  refine ⟨hstill.trans ?_, hlay.generation.1, fun hl => ?_⟩
  · exact ((Still.updateGeometry q x _).trans (.updateGeometry _ x _)).trans (.count _ x _)
  · rw [node_count, Pass.updateGeometry, node_update_self (Tree.live_update.mpr hlive)]
    simp [Geometry.remember, hl, Measurement.ofOffers, Measurement.blank]

/-- A request was answered. The visit is recorded, and it is the only one to the node. The node
has the role that it had, and it remembers a full layout. -/
structure Answers (x : NodeId) (r : Request α) (p q : Pass α) : Prop where
  node : ∃ m, q.tree.find? x = some (m.answered r p.generation) ∧ (p.node x).SameRole m ∧
    (r.performLayout = true → m.measure = none → m.geometry.lastLayout ≠ .blank)
  trail : ∃ run source, q.trail = run ++ ⟨x, r, source⟩ :: p.trail ∧ ∀ u ∈ run, u.node ≠ x

theorem visit_answers (fuel : Nat) (r : Request α) : Answers x r p (visit (fuel + 1) x r p).2 := by
  have hn := node_eq hg.live
  have hfind := (find?_refresh hn r.ownerDirection x).trans (if_pos rfl)
  have hrole : (p.node x).SameRole ((p.node x).refreshed p.generation r.ownerDirection) := by
    unfold Node.refreshed
    split <;> rfl
  have htrail : (p.refresh x r.ownerDirection).trail = p.trail := by
    unfold refresh
    split <;> rfl
  -- Whichever way the answer is found, it is written down in the end.
  suffices hend : ∃ q source, (visit (fuel + 1) x r p).2 = q.finish x r ∧
      q.generation = p.generation ∧
      Still x ((p.refresh x r.ownerDirection).record ⟨x, r, source⟩) q ∧
      (r.performLayout = true → (q.node x).measure = none →
        (q.node x).geometry.lastLayout ≠ .blank) by
    obtain ⟨q, source, he, hgen, hstill, hmemory⟩ := hend
    obtain ⟨m, hm, hrole'⟩ := hstill.role hfind
    obtain ⟨run, hq, hrun⟩ := hstill.trail
    rw [node_of_find? hm] at hmemory
    refine ⟨⟨m, ?_, hrole.trans hrole', hmemory⟩, run, source, ?_, hrun⟩
    · rw [he, finish_eq, hgen, Pass.update, Tree.find?_update_self, hm]
      rfl
    · rw [he, finish_eq, ← htrail]
      exact hq
  have hrefresh := refresh_moves (p := p) (Set.mem_univ x) r.ownerDirection
  have hgen := refresh_generation p x r.ownerDirection
  rw [visit_succ]
  dsimp only
  generalize p.refresh x r.ownerDirection = q at *
  have hq := hrefresh.sound hs
  have hgq := hrefresh.grounded hs hg
  split
  · rename_i source hr
    refine ⟨_, source, rfl, hgen, ?_⟩
    unfold restore
    refine ⟨(Still.updateGeometry _ x _).trans (.count _ x _), ?_⟩
    rw [node_count, Pass.updateGeometry, node_update_self (p := q.record _) hgq.live]
    intro hl (hmeasure : (q.node x).measure = none)
    have hkept : (q.node x).geometry.lastLayout ≠ .blank := by
      intro hb
      simp [Node.remembered?, hmeasure, hl, hb, Node.blank_matchesRequest] at hr
    dsimp only
    split <;> exact hkept
  · obtain ⟨hstill, hkept, hmemory⟩ := compute_still hq hgq (visit_discreet fuel) r
    exact ⟨_, .computed, rfl, hkept.trans hgen, hstill, fun hl _ => hmemory hl⟩

end

/-- A discreet visitor that answers each request once. -/
structure Attentive (v : Visitor α) : Prop extends Discreet v where
  answers : ∀ {p x} r, p.tree.Sound → p.tree.Grounded x → Answers x r p (v x r p)

theorem visit_attentive {fuel : Nat} (hf : 0 < fuel) :
    Attentive (α := α) fun x r p => (visit fuel x r p).2 := by
  obtain ⟨fuel, rfl⟩ := exists_pred hf
  exact { visit_discreet (fuel + 1) with
    answers := fun r hs hg => visit_answers hs hg fuel r }

end Pass

end Flexbox
