import Flexbox.Proofs.Unfolding
import Flexbox.Tree.Sweep

namespace Flexbox

namespace Tree

variable {α γ : Type} {t s u : Tree α} {id : NodeId} {S : Set NodeId} {change : γ → Node α → Node α}
  {down : γ → Node α → γ} {h : Nat} {y : NodeId} {f : Node α → Node α} {P : Node α → Prop}

theorem foldl_same {β σ : Type} {P : σ → Prop} {f g : σ → β → σ} (xs : List β) {s : σ} (hs : P s)
    (hf : ∀ s, ∀ x ∈ xs, P s → f s x = g s x ∧ P (g s x)) : xs.foldl f s = xs.foldl g s := by
  induction xs generalizing s with
  | nil => rfl
  | cons x xs ih =>
    obtain ⟨he, hp⟩ := hf s x (by simp) hs
    rw [List.foldl_cons, List.foldl_cons, he]
    exact ih hp fun s y hy => hf s y (by simp [hy])

theorem sweep_induct {P : Tree α → Prop}
    (hclosed : ∀ t, P t → ∀ x ∈ S, ∀ c ∈ t.childrenOf x, c ∈ S)
    (hstep : ∀ t x, ∀ id ∈ S, P t → P (t.update id (change x))) (fuel : Nat) (x : γ) (hid : id ∈ S)
    (ht : P t) : P (t.sweep change down fuel x id) := by
  induction fuel generalizing t x id with
  | zero => exact ht
  | succ fuel ih =>
    rw [sweep]
    split
    · exact ht
    · rename_i n hn
      refine List.foldlRecOn _ _ (hstep t x id hid ht) fun s hs c hc => ih _ ?_ hs
      exact hclosed t ht id hid c (by rwa [childrenOf_eq hn])

/-- The same nodes with the same children. -/
structure SameShape (t s : Tree α) : Prop where
  live : ∀ x, s.Live x ↔ t.Live x
  children : s.childrenOf = t.childrenOf

theorem SameShape.refl (t : Tree α) : t.SameShape t := ⟨fun _ => Iff.rfl, rfl⟩

theorem SameShape.trans (h : t.SameShape s) (h' : s.SameShape u) : t.SameShape u :=
  ⟨fun x => (h'.live x).trans (h.live x), h'.children.trans h.children⟩

theorem SameShape.of_find? (h : ∀ x, s.find? x = t.find? x) : t.SameShape s :=
  ⟨fun x => by simp only [Live, h], funext fun x => by simp only [childrenOf, h]⟩

theorem SameShape.update (t : Tree α) (id : NodeId) (hf : ∀ n, (f n).children = n.children) :
    t.SameShape (t.update id f) :=
  ⟨fun _ => live_update, childrenOf_update fun n _ => hf n⟩

theorem SameShape.reaches (hs : t.SameShape s) : s.Reaches = t.Reaches := by
  unfold Reaches
  rw [hs.children]

theorem SameShape.unfold_isSome (hs : t.SameShape s) :
    (s.unfold h id).isSome ↔ (t.unfold h id).isSome := by
  induction h generalizing id with
  | zero => exact Iff.rfl
  | succ h ih =>
    rw [Tree.unfold_isSome, Tree.unfold_isSome, hs.live, hs.children]
    simp only [ih]

theorem SameShape.grounded (hs : t.SameShape s) : s.Grounded id ↔ t.Grounded id :=
  exists_congr fun _ => hs.unfold_isSome

section

variable (hc : ∀ x n, (change x n).children = n.children)

include hc

theorem sweep_shape (fuel : Nat) (x : γ) (id : NodeId) :
    t.SameShape (t.sweep change down fuel x id) :=
  sweep_induct (fun _ _ _ _ _ _ => trivial)
    (fun s x id _ hs => hs.trans (SameShape.update s id (hc x))) fuel x trivial (SameShape.refl t)

theorem sweep_fuel (hu : (t.unfold h id).isSome) {fuel fuel' : Nat} (hf : h ≤ fuel)
    (hf' : h ≤ fuel') (x : γ) : t.sweep change down fuel x id = t.sweep change down fuel' x id := by
  induction h generalizing t id x fuel fuel' with
  | zero => cases hu
  | succ h ih =>
    obtain ⟨fuel, rfl⟩ := exists_pred hf
    obtain ⟨fuel', rfl⟩ := exists_pred hf'
    obtain ⟨⟨n, hn⟩, hall⟩ := Tree.unfold_isSome.mp hu
    rw [childrenOf_eq hn] at hall
    simp only [sweep, hn]
    refine foldl_same _ (SameShape.update t id (hc x)) fun s c hm hs => ?_
    refine ⟨ih (hs.unfold_isSome.mpr (hall c hm)) (by omega) (by omega) _, ?_⟩
    exact hs.trans (sweep_shape hc _ _ _)

/-- A node is spared if the sweep does not come to it or does not change it. -/
theorem sweep_spares (h : t.Reaches id y → ∀ n, t.find? y = some n → ∀ x, change x n = n)
    (fuel : Nat) (x : γ) : (t.sweep change down fuel x id).find? y = t.find? y := by
  refine (sweep_induct (S := {z | t.Reaches id z})
    (P := fun s => t.SameShape s ∧ s.find? y = t.find? y) ?_ ?_ fuel x .refl
    ⟨SameShape.refl t, rfl⟩).2
  · rintro s ⟨hs, -⟩ z hz c hzc
    rw [hs.children] at hzc
    exact hz.tail hzc
  · rintro s x z hz ⟨hs, he⟩
    refine ⟨hs.trans (SameShape.update s z (hc x)), ?_⟩
    rw [find?_update, he]
    split
    · rename_i hyz
      subst hyz
      cases hn : t.find? y with
      | none => rfl
      | some n => exact congrArg some (h hz n hn x)
    · rfl

theorem sweep_elsewhere (hy : ¬ t.Reaches id y) (fuel : Nat) (x : γ) :
    (t.sweep change down fuel x id).find? y = t.find? y :=
  sweep_spares hc (fun hr => absurd hr hy) fuel x

end

theorem sweep_keeps (hP : ∀ x n, P n → P (change x n)) (hy : ∀ m, t.find? y = some m → P m)
    (fuel : Nat) (x : γ) (id : NodeId) :
    ∀ m, (t.sweep change down fuel x id).find? y = some m → P m := by
  refine sweep_induct (S := Set.univ) (P := fun s => ∀ m, s.find? y = some m → P m)
    (fun _ _ _ _ _ _ => trivial) (fun s x z _ hs m hm => ?_) fuel x trivial hy
  obtain ⟨k, -, hk, rfl⟩ | ⟨-, hm⟩ := find?_update_cases hm
  · exact hP x k (hs k hk)
  · exact hs m hm

theorem sweep_reached (hc : ∀ x n, (change x n).children = n.children) (hP : ∀ x n, P (change x n))
    (hu : (t.unfold h id).isSome) {fuel : Nat} (hf : h ≤ fuel) (hy : t.Reaches id y) (x : γ) :
    ∀ m, (t.sweep change down fuel x id).find? y = some m → P m := by
  have hkeep := fun x n (_ : P n) => hP x n
  induction h generalizing t id x fuel with
  | zero => cases hu
  | succ h ih =>
    obtain ⟨fuel, rfl⟩ := exists_pred hf
    obtain ⟨⟨n, hn⟩, hall⟩ := Tree.unfold_isSome.mp hu
    rw [childrenOf_eq hn] at hall
    simp only [sweep, hn]
    -- What the walk over the children finds done it does not undo.
    have hrest : ∀ {s : Tree α} (cs : List NodeId), (∀ m, s.find? y = some m → P m) →
        ∀ m, (cs.foldl (fun t c => t.sweep change down fuel (down x n) c) s).find? y = some m →
          P m := fun cs hs => List.foldlRecOn
      (motive := fun s : Tree α => ∀ m, s.find? y = some m → P m) cs _ hs
      fun _ hs c _ => sweep_keeps hkeep hs _ _ c
    rcases Relation.ReflTransGen.cases_head hy with rfl | ⟨c, hcm, hcy⟩
    · refine hrest n.children fun m hm => ?_
      rw [find?_update_self, hn] at hm
      cases hm
      exact hP x n
    · rw [childrenOf_eq hn] at hcm
      obtain ⟨before, behind, hsplit⟩ := List.append_of_mem hcm
      rw [hsplit, List.foldl_append, List.foldl_cons]
      refine hrest behind ?_
      have hshape : t.SameShape (before.foldl
          (fun t c => t.sweep change down fuel (down x n) c) (t.update id (change x))) :=
        List.foldlRecOn before _ (SameShape.update t id (hc x))
          fun _ hs d _ => hs.trans (sweep_shape hc _ _ _)
      refine ih (hshape.unfold_isSome.mpr (hall c hcm)) (by omega) ?_ _
      rw [hshape.reaches]
      exact hcy

theorem sweepAll_spare (hf : ∀ n, (f n).children = n.children) (hg : t.Grounded id) (spare : Nat) :
    t.sweepAll f id spare = t.sweepAll f id 0 :=
  sweep_fuel (fun _ => hf) hg.unfold_slots (by omega) (by omega) ()

end Tree

namespace Edit

open Tree

variable {α : Type} {t : Tree α} {id : NodeId} {h : Nat}

theorem soilSubtree_run (hu : (t.unfold h id).isSome) {fuel : Nat} (hf : h ≤ fuel) :
    (soilSubtree fuel id).apply t =
      (.ok ⟨⟩, t.sweep (fun _ => Node.soiled) (fun x _ => x) fuel () id) := by
  induction h generalizing t id fuel with
  | zero => cases hu
  | succ h ih =>
    obtain ⟨fuel, rfl⟩ := exists_pred hf
    obtain ⟨⟨n, hn⟩, hall⟩ := Tree.unfold_isSome.mp hu
    rw [childrenOf_eq hn] at hall
    rw [soilSubtree, apply_bind, apply_node hn]
    simp only [apply_bind, apply_change hn, sweep, hn]
    have hshape := SameShape.update t id (f := Node.soiled) fun _ => rfl
    generalize t.update id Node.soiled = s at hshape ⊢
    clear hn
    generalize n.children = children at hall ⊢
    induction children generalizing s with
    | nil => rfl
    | cons c cs ihc =>
      have hrun := ih (hshape.unfold_isSome.mpr (hall c (by simp))) (show h ≤ fuel by omega)
      change (soilSubtree fuel c >>= fun _ => cs.forM (soilSubtree fuel)).apply s = _
      rw [apply_bind, hrun]
      exact ihc _ (hshape.trans (sweep_shape (by intros; rfl) _ _ _))
        fun d hd => hall d (by simp [hd])

end Edit

namespace Pass

variable {α γ : Type} [Scalar α] {S : Set NodeId} {p : Pass α} {id : NodeId}
  {change : γ → Node α → Node α} {down : γ → Node α → γ}

theorem sweep_moves (hc : ∀ x n, Node.SameCore n (change x n)) (h : Ready S p id) (fuel : Nat)
    (x : γ) : Moves S p { p with tree := p.tree.sweep change down fuel x id } := by
  refine Tree.sweep_induct (P := fun t => Moves S p { p with tree := t }) ?_ ?_ fuel x h.mem
    (Moves.refl p)
  · intro t ht
    exact (ht.ready h).region.closed
  · intro t x id hid ht
    exact ht.trans (Step.update { p with tree := t } hid (hc x)).moves

end Pass

end Flexbox
