import Flexbox.Proofs.Loops.Attaching
import Mathlib.Order.WellFounded
import Mathlib.Data.List.Range

namespace Flexbox

variable {α : Type}

namespace Tree

variable {t : Tree α} {way : List NodeId}

theorem live_of_mem_dropLast (hw : way.IsChain fun p c => c ∈ t.childrenOf p) :
    ∀ x ∈ way.dropLast, t.Live x := by
  induction way with
  | nil => simp
  | cons x way ih =>
    cases way with
    | nil => simp
    | cons y way =>
      obtain ⟨hy, hrest⟩ := List.isChain_cons_cons.mp hw
      obtain ⟨n, hn, -⟩ := mem_childrenOf.mp hy
      rw [List.dropLast_cons_cons]
      exact List.forall_mem_cons.mpr ⟨⟨n, hn⟩, ih hrest⟩

theorem length_le_slots {xs : List NodeId} (hl : ∀ x ∈ xs, t.Live x) (hn : xs.Nodup) :
    xs.length ≤ t.slots.size := by
  have hslots : (xs.map NodeId.slot).Nodup := by
    refine hn.map_on fun x hx y hy he => slot_inj (hl x hx) (hl y hy) he
  have hsub : xs.map NodeId.slot ⊆ List.range t.slots.size := by
    intro i hi
    obtain ⟨x, hx, rfl⟩ := List.mem_map.mp hi
    exact List.mem_range.mpr (hl x hx).slot_lt
  simpa using List.Nodup.length_le_of_subset hslots hsub

theorem Acyclic.length_le (ha : t.Acyclic) (hw : way.IsChain fun p c => c ∈ t.childrenOf p) :
    way.length ≤ t.slots.size + 1 := by
  have hbelow : way.Pairwise (Relation.TransGen fun p c => c ∈ t.childrenOf p) :=
    (hw.imp fun _ _ hc => Relation.TransGen.single hc).pairwise
  have hnodup : way.Nodup := hbelow.imp fun {x y} hxy => by
    rintro rfl
    exact ha x hxy
  have hle := length_le_slots (live_of_mem_dropLast hw) (hnodup.sublist (List.dropLast_sublist way))
  rw [List.length_dropLast] at hle
  omega

theorem Acyclic.wellFounded (ha : t.Acyclic) : WellFounded fun c p => c ∈ t.childrenOf p := by
  rw [wellFounded_iff_isEmpty_descending_chain]
  refine ⟨fun ⟨way, hway⟩ => ?_⟩
  have hchain : ((List.range (t.slots.size + 2)).map way).IsChain
      fun p c => c ∈ t.childrenOf p := by
    rw [List.isChain_map]
    exact (List.isChain_range _ _).mpr fun i _ => hway i
  have hle := ha.length_le hchain
  simp at hle

end Tree

namespace Act

def attachment : Act α → Option (NodeId × List NodeId)
  | call (.insertChild owner child _) => some (owner, [child])
  | call (.addChild owner child) => some (owner, [child])
  | call (.setChildren owner children) => some (owner, children)
  | replaceChild owner _ new => some (owner, [new])
  | _ => none

def LaysOut : Act α → Prop
  | call (.calculateLayout _ _) => True
  | _ => False

variable [Scalar α] {t : Tree α} {a : Act α}

/-- The act attaches a node that reaches its new owner, and is not refused. -/
def Closes (t : Tree α) (a : Act α) : Prop :=
  (a.edit.apply t).1 = .ok ⟨⟩ ∧ ∃ p cs, a.attachment = some (p, cs) ∧ ∃ c ∈ cs, t.Reaches c p

theorem attached_or_tame (h : t.Filed) (hl : ¬ a.LaysOut) :
    (∃ p cs, a.attachment = some (p, cs) ∧ t.Attached p cs (a.edit.apply t)) ∨
      a.attachment = none ∧ a.edit.Tame Set.univ := by
  cases a with
  | replaceChild owner old new =>
    exact Or.inl ⟨_, _, rfl, Edit.replaceChild_attached h owner old new⟩
  | call c =>
    cases c with
    | insertChild owner child index =>
      exact Or.inl ⟨_, _, rfl, Edit.insertChild_attached h owner child index⟩
    | addChild owner child => exact Or.inl ⟨_, _, rfl, Edit.addChild_attached h owner child⟩
    | setChildren owner children =>
      exact Or.inl ⟨_, _, rfl, Edit.setChildren_attached h owner children⟩
    | calculateLayout => exact absurd trivial hl
    | newNode config => exact Or.inr ⟨rfl, (Edit.newNode_tame config).discard⟩
    | free id => exact Or.inr ⟨rfl, Edit.free_tame id⟩
    | freeRecursive root | freeRecursiveReporting root =>
      exact Or.inr ⟨rfl, Edit.tame_get.bind fun _ => Edit.freeSubtree_tame _ _ root⟩
    | cloneNode id => exact Or.inr ⟨rfl, (Edit.cloneNode_tame id).discard⟩
    | deepClone id => exact Or.inr ⟨rfl, (Edit.deepClone_tame id).discard⟩
    | reset id => exact Or.inr ⟨rfl, Edit.reset_tame id⟩
    | removeChild owner child => exact Or.inr ⟨rfl, Edit.removeChild_tame owner child⟩
    | removeAllChildren owner => exact Or.inr ⟨rfl, Edit.removeAllChildren_tame owner⟩
    | ownChildren owner =>
      exact Or.inr ⟨rfl, (Edit.ownChildren_tame owner).mono (Set.subset_univ _)⟩
    | childForWrite owner index =>
      exact Or.inr ⟨rfl, (Edit.childForWrite_tame owner index).discard⟩
    | updateChildStyle owner index f =>
      exact Or.inr ⟨rfl, ((Edit.childForWrite_tame owner index).bind fun _ =>
        (Edit.updateStyle_tame _ f).bind fun _ => Edit.tame_pure _).discard⟩
    | updateStyle id f => exact Or.inr ⟨rfl, Edit.updateStyle_tame id f⟩
    | copyStyle dst src =>
      exact Or.inr ⟨rfl, (Edit.tame_node src).bind fun _ => Edit.updateStyle_tame dst _⟩
    | setMeasure id measure => exact Or.inr ⟨rfl, Edit.setMeasure_tame id measure⟩
    | setReferenceBaseline id value =>
      exact Or.inr ⟨rfl, Edit.setReferenceBaseline_tame id value⟩
    | setNodeConfig id config =>
      exact Or.inr ⟨rfl, Edit.Tame.bind (Edit.tame_change id fun _ => rfl) fun _ =>
        Edit.tame_propagateDirty id⟩
    | setDirty id dirty => exact Or.inr ⟨rfl, Edit.setDirty_tame id dirty⟩
    | markDirty id => exact Or.inr ⟨rfl, Edit.markDirty_tame id⟩
    | propagateDirty id => exact Or.inr ⟨rfl, Edit.tame_propagateDirty id⟩
    | propagateDirtyDown id =>
      exact Or.inr ⟨rfl, Edit.tame_get.bind fun _ => Edit.soilSubtree_tame _ id⟩
    | clearMeasure | setBaseline | setDirtied | setNote | setContext | setNodeType
    | setHasNewLayout =>
      refine Or.inr ⟨rfl, Edit.tame_change _ fun _ => ?_⟩
      rfl

theorem filed (h : t.Filed) (hl : ¬ a.LaysOut) : (a.edit.apply t).2.Filed := by
  rcases attached_or_tame h hl with ⟨p, cs, -, hrun⟩ | ⟨-, htame⟩
  · exact hrun.filed h
  · obtain ⟨g, hg⟩ := htame.after (h.ranked id).follows
    exact hg.ranked.toFiled

theorem acyclic_iff (h : t.Filed) (ha : t.Acyclic) (hl : ¬ a.LaysOut) :
    (a.edit.apply t).2.Acyclic ↔ ¬ a.Closes t := by
  -- Where nothing is attached, nodes keep ranks, and those of their originals will do.
  have hrank : t.Ranked (Relation.TransGen fun p c => c ∈ t.childrenOf p) id :=
    ⟨h, fun hc => .single hc⟩
  rcases attached_or_tame h hl with ⟨p, cs, hcs, hrun⟩ | ⟨hnone, htame⟩
  · rcases hr : a.edit.apply t with ⟨x | _, s⟩
    · rw [hr] at hrun
      obtain ⟨g, hg⟩ := hrun _ _ hrank
      exact iff_of_true (hg.ranked.acyclic ha) (by simp [Closes, hr])
    · rw [hr] at hrun
      simp only [Closes, hr, hcs, hrun.acyclic_iff h ha]
      simp
  · obtain ⟨g, hg⟩ := htame.after hrank.follows
    refine iff_of_true (hg.ranked.acyclic ha) ?_
    rintro ⟨-, p, cs, hcs, -⟩
    simp [hnone] at hcs

end Act

namespace Tree

variable [Scalar α] {t : Tree α} {acts : List (Act α)}

theorem Filed.acyclic_iff (h : t.Filed) (ha : t.Acyclic) (hl : ∀ a ∈ acts, ¬ a.LaysOut) :
    (∀ front, front <+: acts → (t.run front).Acyclic) ↔
      ∀ front a, front ++ [a] <+: acts → ¬ a.Closes (t.run front) :=
  throughout_iff (I := fun t acts => t.Filed ∧ ∀ a ∈ acts, ¬ a.LaysOut) (P := Acyclic)
    (fun _ _ _ hi =>
      have ⟨hl, hrest⟩ := List.forall_mem_cons.mp hi.2
      ⟨Act.filed hi.1 hl, hrest⟩)
    (fun _ _ _ hi ha => Act.acyclic_iff hi.1 ha (List.forall_mem_cons.mp hi.2).1) ⟨h, hl⟩ ha

omit [Scalar α] in
theorem acyclic_empty (config : Config α) : (Tree.empty config).Acyclic := by
  intro x hx
  obtain ⟨y, hy, -⟩ := Relation.TransGen.head'_iff.mp hx
  simp [childrenOf, find?_empty] at hy

/-- A history leaves no node below itself just as long as no act attaches a node that reaches its
new owner. As long as there is none, no way down a tree goes on for ever, none is longer than the
bound that walks are given, and in an arena every call returns. -/
theorem acyclic_throughout_iff (config : Config α) {acts : List (Act α)}
    (hl : ∀ a ∈ acts, ¬ a.LaysOut) :
    ((∀ front, front <+: acts → ((Tree.empty config).run front).Acyclic) ↔
      ∀ front a, front ++ [a] <+: acts → ¬ a.Closes ((Tree.empty config).run front)) ∧
    ∀ front, front <+: acts → ((Tree.empty config).run front).Acyclic →
      (WellFounded fun c p => c ∈ ((Tree.empty config).run front).childrenOf p) ∧
      (∀ way : List NodeId,
        (way.IsChain fun p c => c ∈ ((Tree.empty config).run front).childrenOf p) →
        way.length ≤ ((Tree.empty config).run front).slots.size + 1) ∧
      (((Tree.empty config).run front).Arena →
        ∀ c : Call α, c.Returns ((Tree.empty config).run front)) := by
  refine ⟨Filed.acyclic_iff (.empty config) (acyclic_empty config) hl, fun front _ ha => ?_⟩
  refine ⟨ha.wellFounded, fun way hw => ha.length_le hw, fun ht c => ?_⟩
  cases c with
  | deepClone id => exact ha.grounded ht
  | calculateLayout root v => exact ha.grounded ht
  | _ => trivial

/-- A node gets a child, and then the child gets the node. -/
def looping : List (Act Float32) :=
  [.call (.newNode none), .call (.newNode none), .call (.addChild ⟨1, 1⟩ ⟨2, 1⟩),
    .call (.addChild ⟨2, 1⟩ ⟨1, 1⟩)]

theorem looping_end :
    ⟨2, 1⟩ ∈ ((Tree.empty gridless).run looping).childrenOf ⟨1, 1⟩ ∧
    ⟨1, 1⟩ ∈ ((Tree.empty gridless).run looping).childrenOf ⟨2, 1⟩ :=
  ⟨by decide +kernel, by decide +kernel⟩

/-- So there is an act in this history that closes a loop. -/
theorem acyclic_throughout_iff_looping :
    (∀ a ∈ looping, ¬ a.LaysOut) ∧
    ∃ front a, front ++ [a] <+: looping ∧ a.Closes ((Tree.empty gridless).run front) := by
  have hl : ∀ a ∈ looping, ¬ a.LaysOut := by simp [looping, Act.LaysOut]
  refine ⟨hl, ?_⟩
  by_contra hno
  obtain ⟨hdown, hup⟩ := looping_end
  refine (acyclic_throughout_iff gridless hl).1.mpr (fun front a hf hc => hno ⟨front, a, hf, hc⟩)
    looping (List.prefix_refl _) ⟨1, 1⟩ (.tail (.single hdown) hup)

/-- A root may be added to itself. -/
theorem root_below_itself :
    ((Edit.addChild ⟨1, 1⟩ ⟨1, 1⟩).apply
      ((Tree.empty gridless).run [.call (.newNode none)])).1 = .ok ⟨⟩ ∧
    ¬ ((Tree.empty gridless).run
      [.call (.newNode none), .call (.addChild ⟨1, 1⟩ ⟨1, 1⟩)]).Acyclic := by
  have hself : ⟨1, 1⟩ ∈ ((Tree.empty gridless).run
      [.call (.newNode none), .call (.addChild ⟨1, 1⟩ ⟨1, 1⟩)]).childrenOf ⟨1, 1⟩ := by
    decide +kernel
  exact ⟨by decide +kernel, fun ha => ha ⟨1, 1⟩ (.single hself)⟩

end Tree

end Flexbox
