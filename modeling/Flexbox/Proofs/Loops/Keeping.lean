import Flexbox.Proofs.Loops.Ranks

namespace Flexbox.Edit

open Tree

variable {α : Type} {t : Tree α} {X : Set NodeId}

theorem deepClone_tame (id : NodeId) : (deepClone id : Edit α NodeId).Tame Set.univ := by
  refine tame_get.bind fun s R t f h => ?_
  by_cases hl : t.Live id
  · obtain ⟨r, u, g, hrun, hg, -⟩ := cloneSubtree_ranks (s.slots.size + 1 + 0) id h hl.known
    exact ⟨r, u, g, hrun, hg, fun _ _ => trivial⟩
  · refine ⟨.error (.unknownNode id), t, f, ?_, h.follows, nofun⟩
    rw [show s.slots.size + 1 + 0 = s.slots.size + 1 from rfl, cloneSubtree_succ, apply_bind,
      apply_node_none (not_live.mp hl)]

theorem cloneNode_tame (id : NodeId) : (cloneNode id : Edit α NodeId).Tame X := by
  intro R t f h
  refine ranks_node h fun n hn => ⟨_, _, _, rfl, (h.follows.insert (c := id)
    (n := { n with owner := none, sharedCount := 0 }) ?_).share n.children, fun _ _ => trivial⟩
  rw [childrenOf_eq hn]
  exact List.Subset.refl _

theorem free_tame (id : NodeId) : (free id : Edit α Unit).Tame Set.univ := by
  intro R t f h
  refine ⟨_, _, f, rfl, ?_, fun _ _ => trivial⟩
  exact final_free (P := fun s => t.Follows Set.univ R f s f) id
    (fun _ p hs => hs.drop (Set.mem_univ p) fun _ => List.filter_sublist.subset)
    (fun _ hs => hs.erase (Set.mem_univ id)) (fun _ c hs => hs.unlist id c) h.follows

theorem soilSubtree_tame (fuel : Nat) (id : NodeId) :
    (soilSubtree fuel id : Edit α Unit).Tame X := by
  induction fuel generalizing id with
  | zero => exact tame_pure _
  | succ fuel ih =>
    exact Tame.bind (tame_node id) fun n =>
      Tame.bind (tame_change id fun _ => rfl) fun _ => tame_forM ih _

theorem setMeasure_tame (id : NodeId) (measure : Measure α) : (setMeasure id measure).Tame X := by
  refine (tame_node id).bind fun n => ?_
  dsimp only
  split
  · exact tame_throw _
  · exact tame_change id fun _ => rfl

theorem setReferenceBaseline_tame (id : NodeId) (value : Bool) :
    (setReferenceBaseline id value : Edit α Unit).Tame X := by
  refine (tame_node id).bind fun n => ?_
  split
  · exact Tame.bind (tame_change id fun _ => rfl) fun _ => tame_propagateDirty id
  · exact tame_pure _

theorem setDirty_tame (id : NodeId) (dirty : Bool) : (setDirty id dirty : Edit α Unit).Tame X := by
  unfold setDirty
  split
  · exact tame_propagateDirty id
  · exact tame_change id fun _ => rfl

theorem markDirty_tame (id : NodeId) : (markDirty id : Edit α Unit).Tame X := by
  refine (tame_node id).bind fun n => ?_
  dsimp only
  split
  · exact tame_throw _
  · exact tame_propagateDirty id

variable [Scalar α]

theorem newNode_tame (config : Option (Config α)) : (newNode config).Tame X :=
  tame_get.bind fun _ _ _ _ h =>
    ⟨_, _, _, rfl, h.follows.insert (c := ⟨0, 0⟩) (List.nil_subset _), fun _ _ => trivial⟩

theorem reset_tame (id : NodeId) : (reset id : Edit α Unit).Tame Set.univ := by
  refine (tame_node id).bind fun n => ?_
  dsimp only
  split
  · exact tame_throw _
  split
  · exact tame_throw _
  split
  · exact tame_throw _
  · exact tame_drop (Set.mem_univ id) fun _ => List.nil_subset _

theorem removeChild_tame (p c : NodeId) : (removeChild p c : Edit α Unit).Tame Set.univ := by
  intro R t f h
  refine ranks_node h fun n hn => ?_
  split
  · exact ranks_pure h trivial
  refine ranks_node h fun m _ => ?_
  split
  · split
    · refine Tame.bind (tame_drop (Set.mem_univ p) fun n => ?_) (fun _ =>
        Tame.bind (tame_change c fun _ => ?_) fun _ => tame_propagateDirty p) h
      · exact List.erase_sublist.subset
      · rfl
    · exact ranks_pure h trivial
  · refine (copyOthers_ranks p c _ _ 0 h (beneath_children h hn)).bind fun ks s g hs hks => ?_
    refine ranks_write hs.ranked (Set.mem_univ p) fun _ _ => ?_
    rwa [(hs.named (Live.known ⟨n, hn⟩)).2]

theorem removeAllChildren_tame (p : NodeId) :
    (removeAllChildren p : Edit α Unit).Tame Set.univ := by
  refine Tame.bind (tame_node p) fun n =>
    Tame.bind (tame_drop (Set.mem_univ p) fun _ => List.nil_subset _) fun _ => ?_
  split
  · exact tame_pure _
  refine Tame.bind (tame_node _) fun m =>
    Tame.bind (tame_forIn (fun c => ?_) _) fun _ => tame_propagateDirty p
  have hlet : (do modify fun t => t.unlist p c; pure (ForInStep.yield PUnit.unit) :
      Edit α (ForInStep PUnit)).Tame Set.univ := (tame_unlist p c).bind fun _ => tame_pure _
  split
  · exact Tame.bind (tame_change c fun _ => rfl) fun _ => hlet
  · exact hlet

theorem childForWrite_tame (p : NodeId) (i : Nat) :
    (childForWrite p i : Edit α NodeId).Tame Set.univ := by
  refine (tame_node p).bind fun n => ?_
  dsimp only
  split
  · exact tame_throw _
  refine ((ownChildren_tame p).mono (Set.subset_univ _)).bind fun _ R t f h => ?_
  refine ranks_node h fun m hm => ?_
  split
  · rename_i child hchild
    refine ranks_node h fun d _ => ?_
    split
    · exact ranks_pure h trivial
    -- The copy ranks as the child does whose place it takes.
    refine (copyFor_ranks h p child i _).bind fun copy s g hs hcopy => ?_
    refine (ranks_write hs.ranked (Set.mem_univ p) fun n hn d hd => ?_).bind fun _ _ _ hu _ =>
      ((tame_unlist p child).bind fun _ => tame_pure _) hu.ranked
    rcases List.mem_or_eq_of_mem_set hd with hd | rfl
    · exact beneath_children hs.ranked hn d hd
    · rw [hcopy.2, (hs.named (Live.known ⟨m, hm⟩)).2]
      exact ⟨hcopy.1, (beneath_children h hm child (List.mem_of_getElem? hchild)).2⟩
  · exact tame_throw (k := pure) _ h

theorem updateStyle_tame (id : NodeId) (k : Style α → Style α) : (updateStyle id k).Tame X := by
  refine (tame_node id).bind fun n => ?_
  dsimp only
  split
  · exact tame_throw _
  refine Tame.bind (tame_change id fun _ => rfl) fun _ => ?_
  split
  · exact tame_propagateDirty id
  · exact tame_pure _

theorem freeSubtree_tame (cleanup : Node α → List (Event α)) (fuel : Nat) (root : NodeId) :
    (freeSubtree cleanup fuel root).Tame Set.univ := by
  intro R t f h
  obtain ⟨g, hg⟩ : ∃ g, t.Follows Set.univ R f ((freeSubtree cleanup fuel root).apply t).2 g := by
    refine Outlasts.freeSubtree (P := fun s => ∃ g, t.Follows Set.univ R f s g) ⟨?_, ?_, ?_⟩
      cleanup fuel root ⟨f, h.follows⟩
    · rintro s root n c rest m ⟨g, hg⟩ - - - -
      exact (removeChild_tame root c).after hg
    · rintro s ⟨g, hg⟩ e
      exact ⟨g, hg.tell e⟩
    · rintro s ⟨g, hg⟩ id
      exact (free_tame id).after hg
  exact ⟨_, _, g, rfl, hg, fun _ _ => trivial⟩

end Flexbox.Edit
