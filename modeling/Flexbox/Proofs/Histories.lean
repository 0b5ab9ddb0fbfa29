import Flexbox.Proofs.Layouts
import Flexbox.Proofs.Writing

namespace Flexbox

inductive Call (α : Type)
  | newNode (config : Option (Config α))
  | free (id : NodeId)
  | freeRecursive (root : NodeId)
  | freeRecursiveReporting (root : NodeId)
  | cloneNode (id : NodeId)
  | deepClone (id : NodeId)
  | reset (id : NodeId)
  | insertChild (owner child : NodeId) (index : Nat)
  | addChild (owner child : NodeId)
  | removeChild (owner child : NodeId)
  | removeAllChildren (owner : NodeId)
  | setChildren (owner : NodeId) (children : List NodeId)
  | ownChildren (owner : NodeId)
  | childForWrite (owner : NodeId) (index : Nat)
  | updateChildStyle (owner : NodeId) (index : Nat) (f : Style α → Style α)
  | updateStyle (id : NodeId) (f : Style α → Style α)
  | copyStyle (dst src : NodeId)
  | setMeasure (id : NodeId) (measure : Measure α)
  | clearMeasure (id : NodeId)
  | setBaseline (id : NodeId) (baseline : Option (Baseline α))
  | setDirtied (id : NodeId) (label : Option String)
  | setNote (id : NodeId) (note : Option String)
  | setContext (id : NodeId) (context : Option String)
  | setNodeType (id : NodeId) (nodeType : NodeType)
  | setReferenceBaseline (id : NodeId) (value : Bool)
  | setNodeConfig (id : NodeId) (config : Config α)
  | setDirty (id : NodeId) (dirty : Bool)
  | markDirty (id : NodeId)
  | propagateDirty (id : NodeId)
  | propagateDirtyDown (id : NodeId)
  | setHasNewLayout (id : NodeId) (value : Bool)
  | calculateLayout (root : NodeId) (v : Viewport α)

namespace Call

variable {α : Type} [Scalar α]

/-- The edit that a call makes. What it returns is of no interest here. -/
def edit : Call α → Edit α Unit
  | newNode config => discard (Edit.newNode config)
  | free id => Edit.free id
  | freeRecursive root => Edit.freeRecursive root
  | freeRecursiveReporting root => Edit.freeRecursiveReporting root
  | cloneNode id => discard (Edit.cloneNode id)
  | deepClone id => discard (Edit.deepClone id)
  | reset id => Edit.reset id
  | insertChild owner child index => Edit.insertChild owner child index
  | addChild owner child => Edit.addChild owner child
  | removeChild owner child => Edit.removeChild owner child
  | removeAllChildren owner => Edit.removeAllChildren owner
  | setChildren owner children => Edit.setChildren owner children
  | ownChildren owner => Edit.ownChildren owner
  | childForWrite owner index => discard (Edit.childForWrite owner index)
  | updateChildStyle owner index f => discard (Edit.updateChildStyle owner index f)
  | updateStyle id f => Edit.updateStyle id f
  | copyStyle dst src => Edit.copyStyle dst src
  | setMeasure id measure => Edit.setMeasure id measure
  | clearMeasure id => Edit.clearMeasure id
  | setBaseline id baseline => Edit.setBaseline id baseline
  | setDirtied id label => Edit.setDirtied id label
  | setNote id note => Edit.setNote id note
  | setContext id context => Edit.setContext id context
  | setNodeType id nodeType => Edit.setNodeType id nodeType
  | setReferenceBaseline id value => Edit.setReferenceBaseline id value
  | setNodeConfig id config => Edit.setNodeConfig id config
  | setDirty id dirty => Edit.setDirty id dirty
  | markDirty id => Edit.markDirty id
  | propagateDirty id => Edit.propagateDirty id
  | propagateDirtyDown id => Edit.propagateDirtyDown id
  | setHasNewLayout id value => Edit.setHasNewLayout id value
  | calculateLayout root v => discard (Edit.calculateLayout root v)

/-- The call brings in no config that asks for replacements. -/
def Hookless : Call α → Prop
  | newNode config => ∀ c, config = some c → c.onCopy = none
  | setNodeConfig _ config => config.onCopy = none
  | _ => True

/-- The call comes to an end: walks down a tree do not if the tree goes on for ever. -/
def Returns (t : Tree α) : Call α → Prop
  | deepClone id => t.Live id → t.Grounded id
  | calculateLayout root _ => t.Live root → t.Grounded root
  | _ => True

end Call

namespace Edit

variable {α β : Type} {t : Tree α}

@[simp] theorem apply_discard (e : Edit α β) : ((discard e).apply t).2 = (e.apply t).2 := by
  change ((Function.const β PUnit.unit <$> e : Edit α PUnit).apply t).2 = _
  rw [apply_map]

theorem deepClone_ends (h : t.Sound) {id : NodeId} (hg : t.Live id → t.Grounded id) :
    (deepClone id).Ends t Tree.Sound := by
  by_cases hl : t.Live id
  · obtain ⟨k, s, R, hrun, hc, -⟩ := deepClone_run h.ordered (hg hl)
    exact Runs.ends ⟨k, s, hrun 0, hc.sound h⟩
  · refine ends_bind rfl fun s _ => ?_
    rw [cloneSubtree_succ]
    exact ends_node fun n hn => absurd ⟨n, hn⟩ hl

theorem calculateLayout_ends [Scalar α] (h : t.Sound) {root : NodeId}
    (hg : t.Live root → t.Grounded root) (v : Viewport α) :
    (calculateLayout root v).Ends t Tree.Sound := by
  by_cases hl : t.Live root
  · have hground := hg hl
    obtain ⟨n, hn⟩ := hl
    obtain ⟨s, hrun, hs, -⟩ := calculateLayout_run h hground hn v
    exact Runs.ends ⟨_, s, hrun .initial, hs⟩
  · exact Or.inl ⟨_, by rw [calculateLayout, apply_bind, apply_change_none (Tree.not_live.mp hl)]⟩

end Edit

/-- Only the freeing of a whole tree may fail when it has changed something. -/
theorem Call.ends {α : Type} [Scalar α] {t : Tree α} (h : t.Sound) {c : Call α} (hc : c.Hookless)
    (hr : c.Returns t) (hf : ∀ root, c ≠ .freeRecursive root ∧ c ≠ .freeRecursiveReporting root) :
    c.edit.Ends t Tree.Sound := by
  cases c with
  | newNode config => exact (Edit.newNode_mends h hc).ends.discard
  | free id => exact (Edit.free_mends h id).ends
  | freeRecursive root => exact absurd rfl (hf root).1
  | freeRecursiveReporting root => exact absurd rfl (hf root).2
  | cloneNode id => exact (Edit.cloneNode_mends h id).ends.discard
  | deepClone id => exact (Edit.deepClone_ends h hr).discard
  | reset id => exact (Edit.reset_mends h id).ends
  | insertChild owner child index => exact (Edit.insertChild_mends h owner child index).ends
  | addChild owner child => exact (Edit.addChild_mends h owner child).ends
  | removeChild owner child => exact Edit.removeChild_ends h owner child
  | removeAllChildren owner => exact (Edit.removeAllChildren_mends h owner).ends
  | setChildren owner children => exact (Edit.setChildren_mends h owner children).ends
  | ownChildren owner => exact Edit.ownChildren_ends h owner
  | childForWrite owner index =>
    refine Edit.Ends.discard ((Edit.childForWrite_cases h owner index).imp_right ?_)
    exact fun ⟨c, s, hrun, ho⟩ => ⟨c, s, hrun, ho.sound⟩
  | updateChildStyle owner index f => exact (Edit.updateChildStyle_ends h owner index f).discard
  | updateStyle id f => exact (Edit.updateStyle_mends h id f).ends
  | copyStyle dst src => exact Edit.ends_node fun n _ => (Edit.updateStyle_mends h dst _).ends
  | setMeasure id measure => exact (Edit.setMeasure_mends h id measure).ends
  | clearMeasure id =>
    exact Edit.ends_change fun _ _ => h.update id fun n _ =>
      ⟨rfl, rfl, rfl, fun hm => by simp at hm, fun hook => hook⟩
  | setReferenceBaseline id value => exact (Edit.setReferenceBaseline_mends h id value).ends
  | setNodeConfig id config => exact (Edit.setNodeConfig_mends h id hc).ends
  | setDirty id dirty => exact Edit.setDirty_ends h id dirty
  | markDirty id => exact (Edit.markDirty_mends h id).ends
  | propagateDirty id => exact (Edit.propagateDirty_mends h id).ends
  | propagateDirtyDown id => exact Edit.propagateDirtyDown_ends h id
  | setBaseline | setDirtied | setNote | setContext | setNodeType | setHasNewLayout =>
    exact Edit.ends_change fun _ _ => h.update _ fun n _ =>
      ⟨rfl, rfl, rfl, Or.inl, fun hook => hook⟩
  | calculateLayout root v => exact (Edit.calculateLayout_ends h hr v).discard

theorem Call.sound {α : Type} [Scalar α] {t : Tree α} (h : t.Sound) (c : Call α) (hc : c.Hookless)
    (hr : c.Returns t) : (c.edit.apply t).2.Sound := by
  cases c with
  | freeRecursive root | freeRecursiveReporting root =>
    exact Edit.freeRecursiveWith_sound h _ root _
  | _ => exact (Call.ends h hc hr (by simp)).sound h

namespace Tree

variable {α : Type} [Scalar α] {t : Tree α}

/-- What any history of calls that return leads to. Calls may fail. -/
inductive Reachable : Tree α → Prop
  | empty {config : Config α} (hc : config.onCopy = none) : Reachable (Tree.empty config)
  | call {t : Tree α} (h : Reachable t) (c : Call α) (hc : c.Hookless) (hr : c.Returns t) :
    Reachable (c.edit.apply t).2

theorem Reachable.sound (h : t.Reachable) : t.Sound := by
  induction h with
  | empty hc => exact Sound.empty hc
  | call _ c hc hr ih => exact c.sound ih hc hr

/-- What some calls, one after the other, make of a tree. -/
def after (t : Tree α) (calls : List (Call α)) : Tree α :=
  calls.foldl (fun t c => (c.edit.apply t).2) t

theorem Reachable.after (h : t.Reachable) {calls : List (Call α)}
    (hc : ∀ c ∈ calls, c.Hookless ∧ ∀ t, c.Returns t) : (t.after calls).Reachable :=
  List.foldlRecOn calls _ h fun t ht c hm => ht.call c (hc c hm).1 ((hc c hm).2 t)

omit [Scalar α] in
theorem Arena.sharedCount_pos (ht : t.Arena) {p c : NodeId} {n : Node α} (hn : t.find? c = some n)
    (hc : c ∈ t.childrenOf p) (ho : ¬ t.owns p c) : 0 < n.sharedCount := by
  obtain ⟨m, hm, -⟩ := mem_childrenOf.mp hc
  rw [ht.count hn, Finset.card_pos]
  exact ⟨p, by simp [sharers, mem_ids.mpr ⟨m, hm⟩, hc, ho]⟩

/-- Every history leaves an arena. So a count is never lowered below nothing when a node is taken
off a list, and the first child tells whether a node owns its children. -/
theorem reachable_keeps_arena (h : t.Reachable) :
    t.Arena ∧
    (∀ p c n, t.find? c = some n → c ∈ t.childrenOf p → ¬ t.owns p c → 0 < n.sharedCount) ∧
    ∀ p first rest, t.childrenOf p = first :: rest →
      (t.owns p first ↔ ∀ c ∈ t.childrenOf p, t.owns p c) := by
  have ht := h.sound.arena
  refine ⟨ht, fun _ _ _ hn hc ho => ht.sharedCount_pos hn hc ho, fun p first rest hp => ?_⟩
  have hfirst : first ∈ t.childrenOf p := by simp [hp]
  exact ⟨(ht.whole p).owned hfirst, fun ho => ho first hfirst⟩

/-- A tree of three, and a copy of its root that shares what is below the root. -/
def specimen : Tree Float32 :=
  (Tree.empty .initial).after [.newNode none, .newNode none, .newNode none,
    .addChild ⟨1, 1⟩ ⟨2, 1⟩, .addChild ⟨2, 1⟩ ⟨3, 1⟩, .cloneNode ⟨1, 1⟩]

theorem specimen_reachable : specimen.Reachable :=
  Reachable.after (.empty rfl) (by simp [Call.Hookless, Call.Returns])

theorem specimen_shape : specimen.sharers ⟨2, 1⟩ = {⟨4, 1⟩} ∧
    specimen.owns ⟨4, 1⟩ ⟨2, 1⟩ = false ∧ (specimen.unfold 3 ⟨4, 1⟩).isSome ∧
    ∀ x ∈ specimen.ids, (specimen.unfold 3 x).isSome := by
  decide +kernel

theorem specimen_grounded : specimen.Grounded ⟨4, 1⟩ := ⟨3, specimen_shape.2.2.1⟩

/-- Laying out the copy, which shares a child with what it is a copy of, leaves an arena. -/
theorem reachable_keeps_arena_laid_out :
    specimen.sharers ⟨2, 1⟩ = {⟨4, 1⟩} ∧
    (specimen.after [.calculateLayout ⟨4, 1⟩ ⟨.known 100, .known 100, .ltr⟩]).Reachable ∧
    (specimen.after [.calculateLayout ⟨4, 1⟩ ⟨.known 100, .known 100, .ltr⟩]).Arena :=
  have h := specimen_reachable.call (.calculateLayout ⟨4, 1⟩ ⟨.known 100, .known 100, .ltr⟩) trivial
    fun _ => specimen_grounded
  ⟨specimen_shape.1, h, (reachable_keeps_arena h).1⟩

end Tree

end Flexbox
