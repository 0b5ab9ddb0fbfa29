import Flexbox.Proofs.Cleaning
import Flexbox.Proofs.Replacing

namespace Flexbox

variable {α : Type} [Scalar α]

/-- What a host can ask of a tree, with the replacement of a child. -/
inductive Act (α : Type)
  | call (c : Call α)
  | replaceChild (owner old new : NodeId)

namespace Act

def edit : Act α → Edit α Unit
  | call c => c.edit
  | replaceChild owner old new => Edit.replaceChild owner old new

/-- The act comes to an end, brings in no config that asks for replacements, lists no child twice,
and neither takes a mark away nor spreads one downwards. -/
def Proper (t : Tree α) : Act α → Prop
  | call (.setDirty _ dirty) => dirty = true
  | call (.propagateDirtyDown _) => False
  | call c => c.Hookless ∧ c.Returns t
  | replaceChild owner old new => t.ownerOf new = some owner → new = old

/-- The act makes a dirty copy for a clean node and leaves the node clean. -/
def AdoptsDirty (t : Tree α) : Act α → Prop
  | call (.ownChildren owner) => t.CleanOverDirty owner
  | call (.childForWrite owner index) =>
    index < (t.childrenOf owner).length ∧ t.CleanOverDirty owner
  | call (.updateChildStyle owner index f) =>
    ∃ c n, (t.childrenOf owner)[index]? = some c ∧ t.find? c = some n ∧ t.CleanOverDirty owner ∧
      (n.isDirty = true ∨ (f n.style != n.style) = false)
  | call (.removeChild owner child) => child ∉ t.childrenOf owner ∧ t.CleanOverDirty owner
  | call (.deepClone id) => ∃ x, t.Reaches id x ∧ t.CleanOverDirty x
  | _ => False

variable {t : Tree α} {a : Act α}

theorem Proper.sound (h : t.Sound) (ha : a.Proper t) : (a.edit.apply t).2.Sound := by
  cases a with
  | replaceChild owner old new => exact Edit.replaceChild_sound h ha
  | call c =>
    refine c.sound h ?_ ?_ <;> cases c <;> first | exact trivial | exact ha.1 | exact ha.2

theorem Proper.upward_iff (h : t.Sound) (hu : t.Upward ∅) (ha : a.Proper t) :
    (a.edit.apply t).2.Upward ∅ ↔ ¬ a.AdoptsDirty t := by
  cases a with
  | replaceChild owner old new => exact iff_of_true (Edit.replaceChild_upward h hu owner old new) id
  | call c =>
    cases c with
    -- The five that may leave a dirty child under a clean owner.
    | ownChildren owner => exact Edit.ownChildren_upward_iff h hu owner
    | childForWrite owner index =>
      simp only [edit, Call.edit, Edit.apply_discard]
      exact Edit.childForWrite_upward_iff h hu owner index
    | updateChildStyle owner index f =>
      simp only [edit, Call.edit, Edit.apply_discard]
      exact Edit.updateChildStyle_upward_iff h hu owner index f
    | removeChild owner child => exact Edit.removeChild_upward_iff h hu owner child
    | deepClone id =>
      simp only [edit, Call.edit, Edit.apply_discard]
      exact Edit.deepClone_upward_iff h hu ha.2
    -- Nodes that come and go.
    | newNode config =>
      refine iff_of_true ?_ not_false
      simpa only [edit, Call.edit, Edit.apply_discard] using (Edit.newNode_mends h ha.1).upward hu
    | cloneNode id =>
      refine iff_of_true ?_ not_false
      simpa only [edit, Call.edit, Edit.apply_discard] using (Edit.cloneNode_mends h id).upward hu
    | free id => exact iff_of_true (Edit.free_upward hu id) not_false
    | freeRecursive root => exact iff_of_true (Edit.freeRecursiveWith_upward hu _ root _) not_false
    | freeRecursiveReporting root =>
      exact iff_of_true (Edit.freeRecursiveWith_upward hu _ root _) not_false
    | reset id => exact iff_of_true ((Edit.reset_mends h id).upward hu) not_false
    -- Lists that are changed by a node that is marked in the end.
    | insertChild owner child index =>
      exact iff_of_true ((Edit.insertChild_mends h owner child index).upward hu) not_false
    | addChild owner child =>
      exact iff_of_true ((Edit.addChild_mends h owner child).upward hu) not_false
    | removeAllChildren owner =>
      exact iff_of_true ((Edit.removeAllChildren_mends h owner).upward hu) not_false
    | setChildren owner children =>
      exact iff_of_true ((Edit.setChildren_mends h owner children).upward hu) not_false
    -- Single nodes.
    | updateStyle id f => exact iff_of_true ((Edit.updateStyle_mends h id f).upward hu) not_false
    | copyStyle dst src =>
      refine iff_of_true (Edit.final_node hu fun n _ => ?_) not_false
      exact (Edit.updateStyle_mends h dst _).upward hu
    | setMeasure id measure =>
      exact iff_of_true ((Edit.setMeasure_mends h id measure).upward hu) not_false
    | clearMeasure | setBaseline | setDirtied | setNote | setContext | setNodeType
    | setHasNewLayout =>
      refine iff_of_true (Edit.final_change hu fun _ _ => hu.update _ (by intros; rfl) ?_) not_false
      exact fun _ _ _ ho => Or.inl ho
    | setReferenceBaseline id value =>
      exact iff_of_true ((Edit.setReferenceBaseline_mends h id value).upward hu) not_false
    | setNodeConfig id config =>
      exact iff_of_true ((Edit.setNodeConfig_mends h id ha.1).upward hu) not_false
    | setDirty id dirty =>
      obtain rfl : dirty = true := ha
      exact iff_of_true ((Edit.propagateDirty_mends h id).upward hu) not_false
    | markDirty id => exact iff_of_true ((Edit.markDirty_mends h id).upward hu) not_false
    | propagateDirty id => exact iff_of_true ((Edit.propagateDirty_mends h id).upward hu) not_false
    | propagateDirtyDown id => exact ha.elim
    | calculateLayout root v =>
      refine iff_of_true ?_ not_false
      simpa only [edit, Call.edit, Edit.apply_discard] using
        Edit.calculateLayout_upward h ha.2 hu v .initial

end Act

namespace Tree

variable {t : Tree α} {acts : List (Act α)} {root : NodeId}

def run (t : Tree α) (acts : List (Act α)) : Tree α :=
  acts.foldl (fun t a => (a.edit.apply t).2) t

/-- What each act keeps but for bad ones, a history keeps just as long as no act is bad. Along the
way `I` holds of the tree and of the acts that are still to come. -/
theorem throughout_iff {I : Tree α → List (Act α) → Prop} {P : Tree α → Prop}
    {B : Tree α → Act α → Prop} (next : ∀ t a acts, I t (a :: acts) → I (a.edit.apply t).2 acts)
    (step : ∀ t a acts, I t (a :: acts) → P t → (P (a.edit.apply t).2 ↔ ¬ B t a)) (h : I t acts)
    (hp : P t) :
    (∀ front, front <+: acts → P (t.run front)) ↔
      ∀ front a, front ++ [a] <+: acts → ¬ B (t.run front) a := by
  induction acts generalizing t with
  | nil =>
    refine iff_of_true (fun front hf => ?_) fun front a hf => ?_
    · rw [List.prefix_nil.mp hf]
      exact hp
    · simp at hf
  | cons a acts ih =>
    have hstep := step t a acts h hp
    have hrest := next t a acts h
    constructor
    · intro hall front b hf
      have hnext : P (a.edit.apply t).2 := hall [a] (by simp)
      cases front with
      | nil =>
        obtain ⟨rfl, -⟩ := List.cons_prefix_cons.mp hf
        exact hstep.mp hnext
      | cons c front =>
        obtain ⟨rfl, hf'⟩ := List.cons_prefix_cons.mp hf
        exact (ih hrest hnext).mp
          (fun rest hr => hall (c :: rest) (List.cons_prefix_cons.mpr ⟨rfl, hr⟩)) front b hf'
    · intro hall front hf
      have hnext : P (a.edit.apply t).2 := hstep.mpr (hall [] a (by simp))
      cases front with
      | nil => exact hp
      | cons c front =>
        obtain ⟨rfl, hf'⟩ := List.cons_prefix_cons.mp hf
        exact (ih hrest hnext).mpr
          (fun rest b hr => hall (c :: rest) b (List.cons_prefix_cons.mpr ⟨rfl, hr⟩)) front hf'

def ProperRun (t : Tree α) : List (Act α) → Prop
  | [] => True
  | a :: acts => a.Proper t ∧ ProperRun (a.edit.apply t).2 acts

theorem ProperRun.sound (h : t.Sound) {front : List (Act α)} (hp : t.ProperRun acts)
    (hf : front <+: acts) : (t.run front).Sound := by
  induction acts generalizing t front with
  | nil =>
    rw [List.prefix_nil.mp hf]
    exact h
  | cons a acts ih =>
    cases front with
    | nil => exact h
    | cons b front =>
      obtain ⟨rfl, hrest⟩ := List.cons_prefix_cons.mp hf
      exact ih (hp.1.sound h) hp.2 hrest

theorem ProperRun.upward_iff (h : t.Sound) (hu : t.Upward ∅) (hp : t.ProperRun acts) :
    (∀ front, front <+: acts → (t.run front).Upward ∅) ↔
      ∀ front a, front ++ [a] <+: acts → ¬ a.AdoptsDirty (t.run front) :=
  throughout_iff (I := fun t acts => t.Sound ∧ t.ProperRun acts) (P := fun t => t.Upward ∅)
    (fun _ _ _ hi => ⟨hi.2.1.sound hi.1, hi.2.2⟩)
    (fun _ _ _ hi hu => hi.2.1.upward_iff hi.1 hu) ⟨h, hp⟩ hu

omit [Scalar α] in
theorem Upward.belongs (hu : t.Upward ∅) (ht : t.Arena) {x : NodeId} (hb : t.BelongsTo x root)
    (hd : t.Dirty x) : t.Dirty root := by
  induction hb with
  | refl => exact hd
  | tail _ ho ih => exact ht.upward_iff.mp hu _ _ ho ih

omit [Scalar α] in
theorem Upward.soilUpwards_root (hu : t.Upward ∅) (ht : t.Sound) {id : NodeId} (hl : t.Live id)
    (hb : t.BelongsTo id root) : (t.soilUpwards id).Dirty root := by
  have howner : (t.soilUpwards id).ownerOf = t.ownerOf := (soilUpwards_links t id).2.2
  have hus : (t.soilUpwards id).Upward ∅ := (hu.mono (Set.empty_subset _)).soilUpwards
  exact hus.belongs (ht.soilUpwards id).arena (hb.mono fun x _ => congrFun howner x)
    (dirty_soilUpwards hl)

/-- A history keeps every dirty node under a dirty owner exactly when none of its acts adopts a
dirty node. While that holds, a mark that spreads to the first dirty owner reaches the root, and so
does the mark of every change of style. -/
theorem dirty_owners_throughout_iff {config : Config α} (hc : config.onCopy = none)
    {acts : List (Act α)} (hp : (Tree.empty config).ProperRun acts) :
    ((∀ front, front <+: acts → ∀ c p, ((Tree.empty config).run front).ownerOf c = some p →
        ((Tree.empty config).run front).Dirty c → ((Tree.empty config).run front).Dirty p) ↔
      ∀ front a, front ++ [a] <+: acts → ¬ a.AdoptsDirty ((Tree.empty config).run front)) ∧
    ∀ front, front <+: acts → ((Tree.empty config).run front).Upward ∅ →
      ∀ id n root, ((Tree.empty config).run front).find? id = some n →
        ((Tree.empty config).run front).BelongsTo id root →
        ((Edit.propagateDirty id).apply ((Tree.empty config).run front)).2.Dirty root ∧
        ∀ f, n.isShared = false → (f n.style != n.style) = true →
          ((Edit.updateStyle id f).apply ((Tree.empty config).run front)).2.Dirty root := by
  have hs : (Tree.empty config).Sound := Sound.empty hc
  have hu : (Tree.empty config).Upward ∅ := by
    intro c p ho
    simp [ownerOf, find?_empty] at ho
  refine ⟨?_, fun front hf hup id n root hn hb => ?_⟩
  · rw [← hp.upward_iff hs hu]
    exact forall₂_congr fun front hf => (hp.sound hs hf).arena.upward_iff.symm
  have hsound := hp.sound hs hf
  generalize (Tree.empty config).run front = t at hup hn hb hsound
  constructor
  · rw [Edit.apply_propagateDirty ⟨n, hn⟩]
    exact hup.soilUpwards_root hsound ⟨n, hn⟩ hb
  · intro f hshared hf
    rw [Edit.apply_updateStyle hn hshared f, if_pos hf]
    have howner : (t.update id fun m => { m with style := f n.style }).ownerOf = t.ownerOf :=
      ownerOf_update (by intros; rfl)
    refine Upward.soilUpwards_root ?_ ?_ (live_update.mpr ⟨n, hn⟩)
      (hb.mono fun x _ => congrFun howner x)
    · exact hup.update id (by intros; rfl) fun _ _ _ ho => Or.inl ho
    · exact hsound.update id

/-- A measured child of a root that was laid out and copied is marked. Then the copy gives the child
another style. -/
def adoptingDirty : List (Act Float32) :=
  [.call (.newNode none), .call (.newNode none), .call (.addChild ⟨1, 1⟩ ⟨2, 1⟩),
    .call (.setMeasure ⟨2, 1⟩ ⟨none, fun _ _ => ⟨10, 10⟩⟩),
    .call (.calculateLayout ⟨1, 1⟩ ⟨.known 100, .known 100, .ltr⟩), .call (.cloneNode ⟨1, 1⟩),
    .call (.markDirty ⟨2, 1⟩),
    .call (.updateChildStyle ⟨3, 1⟩ 0 fun s => { s with flexGrow := .known 1 })]

theorem adoptingDirty_proper : (Tree.empty gridless).ProperRun adoptingDirty := by
  simp only [adoptingDirty, ProperRun, Act.Proper, Call.Hookless, Call.Returns]
  refine ⟨by simp, by simp, by simp, by simp, ⟨trivial, fun _ => ⟨2, by decide +kernel⟩⟩, by simp⟩

theorem adoptingDirty_end :
    ((Tree.empty gridless).run adoptingDirty).ownerOf ⟨4, 1⟩ = some ⟨3, 1⟩ ∧
    ((Tree.empty gridless).run adoptingDirty).Dirty ⟨4, 1⟩ ∧
    ¬ ((Tree.empty gridless).run adoptingDirty).Dirty ⟨3, 1⟩ :=
  ⟨by decide +kernel, by decide +kernel, by decide +kernel⟩

/-- So there is an act in this history that adopts a dirty node. -/
theorem dirty_owners_throughout_iff_adopting :
    (Tree.empty gridless).ProperRun adoptingDirty ∧
    ∃ front a, front ++ [a] <+: adoptingDirty ∧
      a.AdoptsDirty ((Tree.empty gridless).run front) := by
  refine ⟨adoptingDirty_proper, ?_⟩
  by_contra hno
  obtain ⟨howner, hdirty, hclean⟩ := adoptingDirty_end
  refine hclean ((dirty_owners_throughout_iff rfl adoptingDirty_proper).1.mpr ?_ adoptingDirty
    (List.prefix_refl _) _ _ howner hdirty)
  exact fun front a hf hs => hno ⟨front, a, hf, hs⟩

/-- The copy of the root comes to own a dirty child and stays clean. -/
theorem dirty_child_under_clean_owner :
    (Tree.empty gridless).ProperRun adoptingDirty ∧
    ¬ ∀ c p, ((Tree.empty gridless).run adoptingDirty).ownerOf c = some p →
      ((Tree.empty gridless).run adoptingDirty).Dirty c →
      ((Tree.empty gridless).run adoptingDirty).Dirty p := by
  obtain ⟨howner, hdirty, hclean⟩ := adoptingDirty_end
  exact ⟨adoptingDirty_proper, fun hall => hclean (hall _ _ howner hdirty)⟩

end Tree

end Flexbox
