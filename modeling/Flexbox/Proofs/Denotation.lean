import Flexbox.Proofs.Histories

namespace Flexbox.Tree

variable {α : Type} {t w s : Tree α} {root x : NodeId} {p c : NodeId} {h : Nat}

theorem unfold_below (hb : Relation.TransGen (fun p c => c ∈ t.childrenOf p) p c)
    (hp : (t.unfold h p).isSome) : ∃ k, k < h ∧ (t.unfold k c).isSome := by
  induction hb with
  | single hc =>
    cases h with
    | zero => cases hp
    | succ h => exact ⟨h, by omega, (unfold_isSome.mp hp).2 _ hc⟩
  | tail _ hc ih =>
    obtain ⟨k, hk, hd⟩ := ih
    cases k with
    | zero => cases hd
    | succ k => exact ⟨k, by omega, (unfold_isSome.mp hd).2 _ hc⟩

theorem Grounded.not_below {id : NodeId} (hg : t.Grounded id) :
    ¬ Relation.TransGen (fun p c => c ∈ t.childrenOf p) id id := by
  intro hb
  -- Each turn of the cycle would lower the depth at which the node stands for something.
  have hnever : ∀ h, ¬ (t.unfold h id).isSome := by
    intro h
    induction h using Nat.strong_induction_on with
    | _ h ih =>
      intro hs
      obtain ⟨k, hk, hks⟩ := unfold_below hb hs
      exact ih k hk hks
  obtain ⟨depth, hd⟩ := hg
  exact hnever depth hd

theorem Grounded.not_reached (hg : t.Grounded p) (hc : c ∈ t.childrenOf p) : ¬ t.Reaches c p :=
  fun hr => hg.not_below (Relation.TransGen.head' hc hr)

theorem acyclic_of_unfold (hall : ∀ x ∈ t.ids, (t.unfold h x).isSome) : t.Acyclic := by
  intro id hb
  obtain ⟨c, hc, -⟩ := Relation.TransGen.head'_iff.mp hb
  obtain ⟨n, hn, -⟩ := mem_childrenOf.mp hc
  exact Grounded.not_below ⟨h, hall id (mem_ids.mpr ⟨n, hn⟩)⟩ hb

theorem Settled.unfold (hs : Settled w s root) (h : Nat) : s.unfold h = w.unfold h := by
  rcases hs with hs | ⟨differs, hs⟩
  · exact unfold_congr (fun x => by rw [hs x]) h
  · have hnote : (w.noted root differs).unfold h = w.unfold h :=
      unfold_update root (by intros; exact ⟨rfl, rfl⟩) h
    rw [← hnote]
    exact unfold_congr (fun x => by rw [hs x]) h

variable [Scalar α]

theorem primed_unfold (t : Tree α) (root : NodeId) (h : Nat) :
    (t.primed root).unfold h = t.unfold h := by
  have hsize : (t.update root Node.resolveSize).unfold h = t.unfold h :=
    unfold_update root (by intros; exact ⟨rfl, rfl⟩) h
  rw [← hsize]
  exact unfold_congr (by intros; rfl) h

theorem laidOut_primed_moves (ht : t.Sound) (hl : t.Live root) (v : Viewport α) (r : Request α) :
    ∃ q, q.tree = (t.primed root).laidOut root v r ∧
      Pass.Moves Set.univ (Pass.start (t.primed root) .initial) q :=
  laidOut_moves ((ht.primed root).ready_univ (((primed_shape t root).live _).mpr hl) .initial) v r

theorem Settled.unfold_primed (ht : t.Sound) (hl : t.Live root) {v : Viewport α} {r : Request α}
    (hs : Settled ((t.primed root).laidOut root v r) s root) (hx : t.Live x) (h : Nat) :
    s.unfold h x = t.unfold h x := by
  obtain ⟨q, hq, hmoves⟩ := laidOut_primed_moves ht hl v r
  rw [← hq] at hs
  rw [hs.unfold, hmoves.unfold (ht.primed root) (((primed_shape t root).live _).mpr hx)]
  exact congrFun (primed_unfold t root h) x

theorem Settled.grounded (ht : t.Sound) (hg : t.Grounded root) {v : Viewport α} {r : Request α}
    (hs : Settled ((t.primed root).laidOut root v r) s root) : s.Grounded root := by
  obtain ⟨depth, hd⟩ := hg
  have hl : t.Live root := Grounded.live ⟨depth, hd⟩
  exact ⟨depth, by rwa [hs.unfold_primed ht hl hl]⟩

theorem specimen_acyclic : specimen.Acyclic := acyclic_of_unfold specimen_shape.2.2.2

omit [Scalar α] in
/-- Node by node, what is below `b` in `s` is what is below `a` in `t`: all but the owners and the
counts are the same, and the lists correspond. A node of `t` on two lists has two replicas. -/
def Replica (t s : Tree α) (a b : NodeId) : Prop :=
  ∃ R : NodeId → NodeId → Prop, R a b ∧ ∀ x y, R x y → ∃ n o ds, t.find? x = some n ∧
    s.find? y = some { n with owner := o, sharedCount := 0, children := ds } ∧
      List.Forall₂ R n.children ds

omit [Scalar α] in
theorem Neat.reached {S : Set NodeId} (h : s.Neat S) {k : NodeId} (hk : k ∈ S) (hl : s.Live k)
    (hr : s.Reaches k x) :
    x ∈ S ∧ (∃ n, s.find? x = some n ∧ n.isShared = false) ∧
      ∀ c ∈ s.childrenOf x, s.ownerOf c = some x := by
  have hx : x ∈ S := h.below_subset hk fun _ => hr
  have hlive : s.Live x := by
    rcases Relation.ReflTransGen.cases_tail hr with rfl | ⟨y, hy, hc⟩
    · exact hl
    · exact h.live y (h.below_subset hk fun _ => hy) x hc
  obtain ⟨n, hn⟩ := hlive
  exact ⟨hx, ⟨n, hn, h.unshared x hx n hn⟩, h.owned x hx⟩

/-- Without cycles a deep copy of a live node is made, whatever the limits. It is all new, no list
outside counts on it, and no record of an old node changes. Freed, it is gone without a trace. -/
theorem deepClone_freeRecursive_restores (ht : t.Arena) (ha : t.Acyclic) (hl : t.Live x) :
    ∃ k s, (∀ spare, (Edit.deepClone x spare).apply t = (.ok k, s)) ∧ Replica t s x k ∧
      (∀ y, s.Reaches k y → ¬ t.Live y ∧ (∃ n, s.find? y = some n ∧ n.isShared = false) ∧
        ∀ c ∈ s.childrenOf y, s.ownerOf c = some y) ∧
      (∀ y, t.Live y → s.find? y = t.find? y) ∧
      ∃ u, (∀ spare, (Edit.freeRecursive k spare).apply s = (.ok ⟨⟩, u)) ∧
        ∀ y, u.find? y = t.find? y := by
  have hg := ha.grounded ht hl
  obtain ⟨k, s, R, hclone, hc, htraced, hk⟩ := Edit.deepClone_run ht.ordered hg
  have hs := (hc.secluded ht.ordered).neat (hc.arena ht)
  have hgk : s.Grounded k := ⟨t.slots.size, by rw [htraced.unfold hk]; exact hg.unfold_slots⟩
  obtain ⟨u, hfree, hout, hgone⟩ := Edit.freeRecursive_run hs hc.fresh (hc.detached ht.ordered) hgk
  refine ⟨k, s, hclone, ⟨R, hk, fun _ _ => htraced.copy⟩, fun y => hs.reached hc.fresh hc.live,
    hc.old, u, hfree, fun y => ?_⟩
  by_cases hy : t.Live y
  · rw [hout y (by simpa), hc.old y hy]
  · -- What is new in the copy is below its root, and that is what was freed.
    have hnone : ¬ u.Live y := fun hu => (hc.reached y (hgone y hu).1).elim hy (hgone y hu).2
    rw [not_live.mp hnone, not_live.mp hy]

/-- A deep copy of a node that shares its child with another gets a child of its own. -/
theorem deepClone_freeRecursive_restores_sharer :
    specimen.Arena ∧ specimen.Acyclic ∧ specimen.Live ⟨4, 1⟩ ∧ specimen.owns ⟨4, 1⟩ ⟨2, 1⟩ = false ∧
    ∃ k s, (∀ spare, (Edit.deepClone ⟨4, 1⟩ spare).apply specimen = (.ok k, s)) ∧
      Replica specimen s ⟨4, 1⟩ k ∧
      (∀ y, s.Reaches k y → ¬ specimen.Live y ∧ (∃ n, s.find? y = some n ∧ n.isShared = false) ∧
        ∀ c ∈ s.childrenOf y, s.ownerOf c = some y) ∧
      (∀ y, specimen.Live y → s.find? y = specimen.find? y) ∧
      ∃ u, (∀ spare, (Edit.freeRecursive k spare).apply s = (.ok ⟨⟩, u)) ∧
        ∀ y, u.find? y = specimen.find? y :=
  have hs := specimen_reachable.sound
  have hl := specimen_grounded.live
  ⟨hs.arena, specimen_acyclic, hl, specimen_shape.2.1,
    deepClone_freeRecursive_restores hs.arena specimen_acyclic hl⟩

end Flexbox.Tree
