import Flexbox.Proofs.Acts
import Flexbox.Proofs.Freeing

namespace Flexbox

variable {α : Type} [Scalar α]

namespace Edit

variable {t : Tree α} {root : NodeId}

theorem freeRecursive_atomic (h : t.Balanced)
    (ho : ∀ c ∈ t.childrenOf root, t.owns root c = false) : (freeRecursive root).Atomic t := by
  by_cases hl : t.Live root
  · obtain ⟨n, hn⟩ := hl
    have hidle := freeRecursiveWith_idle h (fun _ => []) hn ho 0
    intro x hx
    rw [freeRecursive, hidle] at hx ⊢
    exact free_atomic root x hx
  · intro x _
    exact freeRecursiveWith_missing hl _ 0

theorem replaceChild_atomic (h : t.Sound) (p old new : NodeId) :
    (replaceChild p old new).Atomic t := by
  obtain ⟨e, hrun⟩ | ⟨n, i, d, hn, hi, hd, ho⟩ := replaceChild_cases t p old new
  · intro x _
    rw [hrun]
  · obtain ⟨s, c, -, -, -, -, hrun⟩ := replaceChild_made h.arena.toBalanced hn hi hd ho
    intro x hx
    rw [hrun] at hx
    cases hx

end Edit

namespace Act

variable {t : Tree α} {a : Act α} {e : Fault}

def Returns (t : Tree α) : Act α → Prop
  | call c => c.Returns t
  | replaceChild .. => True

/-- The act has changed the tree, or told the host of a node that goes, before it can fail. -/
def FreesBeforeFailing (t : Tree α) : Act α → Prop
  | call (.freeRecursive root) => ∃ c ∈ t.childrenOf root, t.owns root c
  | call (.freeRecursiveReporting root) => t.Live root
  | _ => False

theorem edit_atomic (h : t.Sound) (hr : a.Returns t) (hs : ¬ a.FreesBeforeFailing t) :
    a.edit.Atomic t := by
  cases a with
  | replaceChild owner old new => exact Edit.replaceChild_atomic h owner old new
  | call c =>
    have hends := fun hc hf => (Call.ends (c := c) h hc hr hf).atomic
    cases c with
    | freeRecursive root =>
      exact Edit.freeRecursive_atomic h.arena.toBalanced (by simpa [FreesBeforeFailing] using hs)
    | freeRecursiveReporting root =>
      intro x _
      exact Edit.freeRecursiveWith_missing hs _ 0
    | newNode config =>
      intro x hx
      cases hx
    | setNodeConfig id config =>
      exact (Edit.change_propagate_ends (P := fun _ => True) fun _ => trivial).atomic
    | _ => exact hends trivial (by simp)

theorem FreesBeforeFailing.changes (h : t.Sound) (hs : a.FreesBeforeFailing t)
    (he : (a.edit.apply t).1 = .error e) : (a.edit.apply t).2 ≠ t := by
  cases a with
  | replaceChild => exact hs.elim
  | call c =>
    cases c with
    | freeRecursive root =>
      obtain ⟨c, hc, ho⟩ := hs
      exact Edit.freeRecursiveWith_frees h.arena.toBalanced _ hc ho 0
    | freeRecursiveReporting root =>
      obtain ⟨n, hn⟩ := hs
      by_cases ho : ∃ c ∈ t.childrenOf root, t.owns root c
      · obtain ⟨c, hc, ho⟩ := ho
        exact Edit.freeRecursiveWith_frees h.arena.toBalanced _ hc ho 0
      · have hidle := Edit.freeRecursiveWith_idle h.arena.toBalanced
          (fun n => [Event.released n.context n.children.length]) hn (by simpa using ho) 0
        have hend : (call (.freeRecursiveReporting root) : Act α).edit.apply t =
          (Edit.free root).apply (t.tell (.released n.context n.children.length)) := hidle
        rw [hend] at he ⊢
        rw [Edit.free_atomic root e he]
        intro heq
        exact List.cons_ne_self _ _ (congrArg Tree.journal heq)
    | _ => exact hs.elim

theorem shared_of_freeing_fails (h : t.Sound) {cleanup : Node α → List (Event α)} {root : NodeId}
    (hg : t.Grounded root) (he : ((Edit.freeRecursiveWith cleanup root).apply t).1 = .error e) :
    t.sharers root ≠ ∅ := by
  intro hs
  obtain ⟨s, hrun, -⟩ := Edit.freeRecursiveWith_succeeds cleanup h hg hs 0
  rw [hrun] at he
  cases he

end Act

namespace Tree

variable {t : Tree α}

/-- What a host asked for and did not get leaves the tree and the host as they were, with one
exception. The freeing of a whole tree takes what the root owns away first, and reports first; if
the tree comes to an end, it fails only when another node lists the root. -/
theorem failed_act_leaves_tree_iff (h : t.Sound) {a : Act α} (hr : a.Returns t) {e : Fault}
    (he : (a.edit.apply t).1 = .error e) :
    ((a.edit.apply t).2 = t ↔ ¬ a.FreesBeforeFailing t) ∧
    ∀ root, a = .call (.freeRecursive root) ∨ a = .call (.freeRecursiveReporting root) →
      t.Grounded root → t.sharers root ≠ ∅ := by
  refine ⟨⟨fun hend hs => hs.changes h he hend, fun hs => Act.edit_atomic h hr hs e he⟩, ?_⟩
  rintro root (rfl | rfl) hg
  · exact Act.shared_of_freeing_fails h hg he
  · exact Act.shared_of_freeing_fails h hg he

/-- The middle of three nodes is listed by the copy of the first as well. -/
theorem failed_act_leaves_tree_iff_specimen :
    ((Act.call (.freeRecursive ⟨2, 1⟩)).edit.apply specimen).1 = .error (.sharedNode ⟨2, 1⟩) ∧
    ((Act.call (.freeRecursive ⟨2, 1⟩)).edit.apply specimen).2 ≠ specimen := by
  have he : ((Act.call (.freeRecursive ⟨2, 1⟩)).edit.apply specimen).1 =
    .error (.sharedNode ⟨2, 1⟩) := by decide +kernel
  refine ⟨he, fun hend => ?_⟩
  have hs := (failed_act_leaves_tree_iff (a := .call (.freeRecursive ⟨2, 1⟩))
    specimen_reachable.sound trivial he).1.mp hend
  exact hs ⟨⟨3, 1⟩, by decide +kernel, by decide +kernel⟩

/-- It cannot be freed, but what is below it is gone, and two nodes were reported. -/
theorem refused_freeing_frees_child :
    specimen.Reachable ∧
    ((Act.call (.freeRecursiveReporting ⟨2, 1⟩)).edit.apply specimen).1 =
      .error (.sharedNode ⟨2, 1⟩) ∧
    specimen.contains ⟨3, 1⟩ = true ∧
    ((Act.call (.freeRecursiveReporting ⟨2, 1⟩)).edit.apply specimen).2.contains ⟨3, 1⟩ = false ∧
    ((Act.call (.freeRecursiveReporting ⟨2, 1⟩)).edit.apply specimen).2.journal.length =
      specimen.journal.length + 2 :=
  ⟨specimen_reachable, by decide +kernel, by decide +kernel, by decide +kernel, by decide +kernel⟩

end Tree

end Flexbox
