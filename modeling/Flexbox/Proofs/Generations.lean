import Flexbox.Proofs.Chores
import Flexbox.Proofs.Lifecycle
import Flexbox.Proofs.Sweeping

namespace Flexbox

variable {α : Type}

namespace Tree

variable {P : Tree α → Prop} {t : Tree α}

/-- No single change of the store takes `P` away, nor does what the host is told unless it is told
of a dirty mark. -/
structure Elementary (P : Tree α → Prop) : Prop where
  update : ∀ {t}, P t → ∀ id f, P (t.update id f)
  insert : ∀ {t}, P t → ∀ n, P (t.insert n).2
  erase : ∀ {t}, P t → ∀ id, P (t.erase id)
  tell : ∀ {t}, P t → ∀ {e}, e.Quiet → P (t.tell e)

/-- Nothing that the host is told takes `P` away. -/
structure Thorough (P : Tree α → Prop) : Prop extends Elementary P where
  tellAny : ∀ {t}, P t → ∀ e, P (t.tell e)

theorem generation_elementary (Q : UInt32 → Prop) :
    Thorough fun t : Tree α => Q t.generation where
  update ht _ _ := ht
  insert ht n := by
    unfold Tree.insert
    split <;> exact ht
  erase ht id := by
    unfold Tree.erase
    split <;> exact ht
  tell ht _ _ := ht
  tellAny ht _ := ht

theorem Elementary.sweep {γ : Type} (hP : Elementary P) (change : γ → Node α → Node α)
    (down : γ → Node α → γ) (fuel : Nat) (x : γ) (id : NodeId) (ht : P t) :
    P (t.sweep change down fuel x id) :=
  sweep_induct (S := Set.univ) (P := P) (fun _ _ _ _ _ _ => trivial)
    (fun _ _ id _ ht => hP.update ht id _) fuel x trivial ht

theorem Elementary.sweepAll (hP : Elementary P) (f : Node α → Node α) (id : NodeId) (spare : Nat)
    (ht : P t) : P (t.sweepAll f id spare) :=
  hP.sweep _ _ _ () id ht

theorem Thorough.soilChain (hP : Thorough P) (fuel : Nat) (next : Option NodeId) (ht : P t) :
    P (t.soilChain fuel next) := by
  fun_induction Tree.soilChain fuel next t with
  | case5 fuel id t n _ _ ih =>
    refine ih ?_
    unfold soil
    dsimp only
    split
    · exact hP.tellAny (hP.update ht id _) _
    · exact hP.update ht id _
  | _ => exact ht

theorem Elementary.share (hP : Elementary P) (xs : List NodeId) (ht : P t) : P (t.share xs) :=
  List.foldlRecOn xs _ ht fun _ ht x _ => hP.update ht x _

end Tree

namespace Edit

open Tree

variable [Scalar α] {P : Tree α → Prop} {t : Tree α} (hP : Elementary P)

include hP

omit [Scalar α] in
theorem keeps_change (id : NodeId) (f : Node α → Node α) (ht : P t) : P ((change id f).apply t).2 :=
  final_change ht fun _ _ => hP.update ht id f

theorem keeps_copyFor (owner child : NodeId) (index : Nat)
    (choose : Option (NodeId → Nat → Option Replacement)) (ht : P t) :
    P ((copyFor owner child index choose).apply t).2 := by
  refine final_node ht fun n _ => ?_
  cases choose with
  | none => exact hP.share _ (hP.insert ht _)
  | some f => exact hP.share _ (hP.insert (hP.tell ht (by rfl)) _)

theorem keeps_copyAll (owner : NodeId) (choose : Option (NodeId → Nat → Option Replacement))
    (index : Nat) (xs : List NodeId) (ht : P t) :
    P ((copyAll owner choose index xs).apply t).2 := by
  induction xs generalizing t index with
  | nil => exact ht
  | cons x xs ih =>
    refine final_seq (keeps_copyFor hP owner x index choose ht) fun copy s hs => ?_
    exact final_bind rfl (final_seq (ih _ (hP.update hs x _)) fun _ _ hs => hs)

theorem keeps_ownChildren (owner : NodeId) (ht : P t) : P ((ownChildren owner).apply t).2 := by
  refine final_node ht fun n _ => ?_
  split
  · exact ht
  · refine final_node ht fun first _ => ?_
    split
    · exact ht
    · exact final_seq (keeps_copyAll hP owner _ 0 _ ht) fun _ _ hs => keeps_change hP owner _ hs

omit [Scalar α] in
theorem keeps_free (id : NodeId) (ht : P t) : P ((free id).apply t).2 :=
  final_free id (fun _ p hs => hP.update hs p _) (fun _ hs => hP.erase hs id)
    (fun _ c hs => hP.update hs c _) ht

omit [Scalar α] hP in
theorem final_mapM {β γ : Type} {f : β → Edit α γ} (hf : ∀ x t, P t → P ((f x).apply t).2)
    (xs : List β) (ht : P t) : P ((xs.mapM f).apply t).2 := by
  induction xs generalizing t with
  | nil => exact ht
  | cons x xs ih =>
    rw [List.mapM_cons]
    exact final_seq (hf x t ht) fun _ _ hs => final_seq (ih hs) fun _ _ hs => hs

omit [Scalar α] in
theorem keeps_cloneSubtree (fuel : Nat) (id : NodeId) (ht : P t) :
    P ((cloneSubtree fuel id).apply t).2 := by
  induction fuel generalizing t id with
  | zero => exact ht
  | succ fuel ih =>
    refine final_node ht fun n _ => final_bind rfl ?_
    refine final_seq (final_mapM (fun c _ ht => ?_) n.children (hP.insert ht _)) fun _ _ hs => ?_
    · exact final_seq (ih c ht) fun _ _ hs => final_seq (keeps_change hP _ _ hs) fun _ _ hs => hs
    · exact final_seq (keeps_change hP _ _ hs) fun _ _ hs => hs

omit hP

omit [Scalar α] in
theorem deepClone_generation (t : Tree α) (id : NodeId) (spare : Nat) :
    ((deepClone id spare).apply t).2.generation = t.generation :=
  keeps_cloneSubtree (generation_elementary (· = t.generation)).toElementary _ id rfl

theorem thorough_outlasts (hT : Thorough P) : Outlasts P where
  remove ht hn hcs hm ho := by
    refine final_bind (apply_node hn) ?_
    simp only [hcs]
    refine final_bind (apply_node hm) ?_
    rw [if_pos ho]
    split
    · exact final_seq (keeps_change hT.toElementary _ _ ht) fun _ _ hs =>
        final_seq (keeps_change hT.toElementary _ _ hs) fun _ _ hs =>
          final_node hs fun _ _ => hT.soilChain _ _ hs
    · exact ht
  tell := hT.tellAny
  free ht id := keeps_free hT.toElementary id ht

end Edit

namespace Pass

variable [Scalar α] {S : Set NodeId} {p q : Pass α}

theorem Step.generation (h : Step S p q) :
    q.generation = p.generation ∧ q.tree.generation = p.tree.generation := by
  cases h with
  | own =>
    exact ⟨rfl, Edit.keeps_ownChildren
      (Tree.generation_elementary (· = p.tree.generation)).toElementary _ rfl⟩
  | update | tell | record | count => exact ⟨rfl, rfl⟩

theorem Moves.generation (h : Moves S p q) :
    q.generation = p.generation ∧ q.tree.generation = p.tree.generation := by
  induction h with
  | refl => exact ⟨rfl, rfl⟩
  | tail _ hstep ih => exact ⟨hstep.generation.1.trans ih.1, hstep.generation.2.trans ih.2⟩

end Pass

end Flexbox
