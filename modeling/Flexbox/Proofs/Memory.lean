import Flexbox.Proofs.Movers

namespace Flexbox

variable {α : Type} [Scalar α]

namespace Node

variable {n : Node α} {r : Request α}

/-- The node as a visit finds it, with nothing that is out of date. -/
def refreshed (n : Node α) (generation : UInt32) (direction : Direction) : Node α :=
  if n.isOutdated generation direction then { n with geometry := n.geometry.forget } else n

def recalled? (n : Node α) (r : Request α) : Option (Size (Extent α)) :=
  ((n.remembered? r).bind n.geometry.entry?).map fun m =>
    ⟨.of m.computedWidth, .of m.computedHeight⟩

theorem entry?_of_remembered? {source : Source} (h : n.remembered? r = some source) :
    ∃ entry, n.geometry.entry? source = some entry := by
  have among : ∀ accepts, (n.geometry.measurements.findIdx? accepts).map Source.measurement =
      some source → ∃ entry, n.geometry.entry? source = some entry := by
    intro accepts hm
    obtain ⟨i, hi, rfl⟩ := Option.map_eq_some_iff.mp hm
    obtain ⟨hlt, -⟩ := List.findIdx?_eq_some_iff_getElem.mp hi
    exact ⟨_, List.getElem?_eq_getElem hlt⟩
  unfold remembered? at h
  dsimp only at h
  split at h
  · split at h
    · cases h
      exact ⟨_, rfl⟩
    · exact among _ h
  · split at h
    · split at h
      · cases h
        exact ⟨_, rfl⟩
      · cases h
    · exact among _ h

theorem recalled?_eq_none : n.recalled? r = none ↔ n.remembered? r = none := by
  cases h : n.remembered? r with
  | none => simp [recalled?, h]
  | some source =>
    obtain ⟨entry, he⟩ := entry?_of_remembered? h
    simp [recalled?, h, he]

theorem blank_matchesRequest (width height : Offer α) :
    (Measurement.blank : Measurement α).matchesRequest width height = false := by
  simp [Measurement.matchesRequest, Measurement.blank]

/-- The node once a request to it was answered in the pass numbered `generation`. -/
def answered (n : Node α) (r : Request α) (generation : UInt32) : Node α :=
  { n with
    geometry := { n.geometry with
      size := if r.performLayout then n.geometry.measured else n.geometry.size
      generation := generation }
    hasNewLayout := r.performLayout || n.hasNewLayout }

end Node

namespace Pass

variable {S : Set NodeId} {p : Pass α} {id : NodeId} {n : Node α}
  {r : Request α}

theorem refresh_generation (p : Pass α) (id : NodeId) (direction : Direction) :
    (p.refresh id direction).generation = p.generation := by
  unfold refresh
  split <;> rfl

theorem refresh_moves (hid : id ∈ S) (direction : Direction) :
    Moves S p (p.refresh id direction) :=
  ite_moves (updateGeometry_moves hid _) (Moves.refl p)

section

variable (hn : p.tree.find? id = some n)

include hn

theorem find?_refresh (direction : Direction) (x : NodeId) :
    (p.refresh id direction).tree.find? x =
      if x = id then some (n.refreshed p.generation direction) else p.tree.find? x := by
  rw [refresh, node_of_find? hn, Node.refreshed]
  split
  · rw [updateGeometry, Pass.update, Tree.find?_update]
    split
    · rename_i h
      rw [h, hn]
      rfl
    · rfl
  · split
    · rename_i h
      rw [h, hn]
    · rfl

theorem node_refresh (direction : Direction) :
    (p.refresh id direction).node id = n.refreshed p.generation direction := by
  rw [node_of_find? ((find?_refresh hn direction id).trans (if_pos rfl))]

theorem visit_of_remembered {source : Source}
    (hr : (n.refreshed p.generation r.ownerDirection).remembered? r = some source) (fuel : Nat) :
    visit (fuel + 1) id r p =
      (false, ((p.refresh id r.ownerDirection).restore id r source).finish id r) := by
  rw [← node_refresh hn] at hr
  simp only [visit_succ, hr]

theorem visit_of_forgotten (hr : (n.refreshed p.generation r.ownerDirection).remembered? r = none)
    (fuel : Nat) :
    visit (fuel + 1) id r p = (true, ((p.refresh id r.ownerDirection).compute
      (fun id r p => (visit fuel id r p).2) id r).finish id r) := by
  rw [← node_refresh hn] at hr
  simp only [visit_succ, hr]

end

omit [Scalar α] in
theorem update_update (p : Pass α) (x : NodeId) (f g : Node α → Node α) :
    (p.update x f).update x g = p.update x fun n => g (f n) :=
  congrArg (fun t => { p with tree := t }) (Tree.update_update p.tree x f g)

omit [Scalar α] in
theorem finish_eq (p : Pass α) (x : NodeId) (r : Request α) :
    p.finish x r = p.update x fun n => n.answered r p.generation := by
  unfold finish updateGeometry
  by_cases hl : r.performLayout = true
  · simp only [hl, if_true, update_update]
    simp only [Node.answered, hl, if_true, Bool.true_or]
    rfl
  · simp only [hl, Bool.false_eq_true, if_false, Node.answered, Bool.false_or]

end Pass

end Flexbox
