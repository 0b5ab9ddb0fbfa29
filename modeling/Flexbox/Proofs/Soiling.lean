import Flexbox.Proofs.Marks

namespace Flexbox.Tree

variable {α : Type} {t s : Tree α} {id x : NodeId} {n : Node α} {ids : List NodeId}
  {next : Option NodeId}

/-- `ids` are clean, the first of them at `next` and each of the others the owner of the one before
it. -/
inductive CleanRun (t : Tree α) : Option NodeId → List NodeId → Prop
  | nil (next : Option NodeId) : CleanRun t next []
  | cons {id : NodeId} {ids : List NodeId} (hc : t.Clean id)
      (hr : CleanRun t (t.ownerOf id) ids) : CleanRun t (some id) (id :: ids)

/-- What the host hears when `ids` become dirty in this order. -/
def reports (t : Tree α) (ids : List NodeId) : List (Event α) :=
  ids.filterMap fun x => (t.find? x).bind fun n => n.dirtied.map fun label => .dirtied label true

/-- `s` is `t` with `ids` made dirty, one after the other, and their bases cleared. -/
structure Soils (t : Tree α) (ids : List NodeId) (s : Tree α) : Prop where
  node : ∀ x, s.find? x = if x ∈ ids then (t.find? x).map fun n =>
    { n with isDirty := true, geometry := { n.geometry with flexBasis := .undefined } }
    else t.find? x
  versions : s.slots.map Slot.version = t.slots.map Slot.version
  rest : s = { t with slots := s.slots, journal := (t.reports ids).reverse ++ t.journal }

theorem CleanRun.clean (h : t.CleanRun next ids) (hx : x ∈ ids) : t.Clean x := by
  induction h with
  | nil => cases hx
  | cons hc _ ih =>
    rcases List.mem_cons.mp hx with rfl | hx
    · exact hc
    · exact ih hx

theorem CleanRun.mono (h : s.CleanRun next ids) (ho : s.ownerOf = t.ownerOf)
    (hc : ∀ x, s.Clean x → t.Clean x) : t.CleanRun next ids := by
  induction h with
  | nil next => exact .nil next
  | @cons x _ hclean _ ih =>
    refine .cons (hc x hclean) ?_
    rwa [← ho]

/-- The clean nodes at `next` and at owners of `ids` are all in `ids`. -/
def Closed (t : Tree α) (next : Option NodeId) (ids : List NodeId) : Prop :=
  ∀ x, next = some x ∨ (∃ y ∈ ids, t.ownerOf y = some x) → t.Clean x → x ∈ ids

theorem CleanRun.subset {run : List NodeId} (h : t.CleanRun next run)
    (hclosed : t.Closed next ids) : run ⊆ ids := by
  induction h with
  | nil => exact List.nil_subset ids
  | cons hc _ ih =>
    have hx := hclosed _ (Or.inl rfl) hc
    refine List.cons_subset.mpr ⟨hx, ih fun y hy => hclosed y (Or.inr ?_)⟩
    rcases hy with hy | hy
    · exact ⟨_, hx, hy⟩
    · exact hy

theorem Soils.none (t : Tree α) : t.Soils [] t := ⟨by simp, rfl, rfl⟩

theorem versions_update (t : Tree α) (id : NodeId) (f : Node α → Node α) :
    (t.update id f).slots.map Slot.version = t.slots.map Slot.version := by
  refine Array.ext (by simp [update]) fun i hi _ => ?_
  simp only [update, Array.getElem_map, Array.getElem_modify]
  split
  · split <;> rfl
  · rfl

theorem soil_soils (hn : t.find? id = some n) : t.Soils [id] (t.soil id n) := by
  refine ⟨fun x => ?_, ?_, ?_⟩
  · rw [find?_soil, find?_update]
    simp only [List.mem_singleton]
    rfl
  · have hslots : (t.soil id n).slots = (t.update id Node.soiled).slots := by
      unfold soil
      cases n.dirtied <;> rfl
    rw [hslots, versions_update]
  · unfold soil reports
    cases hd : n.dirtied <;> simp [hn, hd, tell, update]

theorem Soils.trans {u : Tree α} {ids' : List NodeId} (h : t.Soils ids u) (h' : u.Soils ids' s)
    (hd : ids.Disjoint ids') : t.Soils (ids ++ ids') s := by
  have hsame : u.reports ids' = t.reports ids' := List.filterMap_congr fun x hx => by
    rw [h.node, if_neg fun hm => hd hm hx]
  refine ⟨fun x => ?_, h'.versions.trans h.versions, ?_⟩
  · rw [h'.node, h.node]
    by_cases hx : x ∈ ids
    · rw [if_neg (hd hx), if_pos hx, if_pos (List.mem_append_left ids' hx)]
    · simp only [hx, if_false, List.mem_append, false_or]
  · have hrest := h'.rest
    rw [hsame, h.rest] at hrest
    rw [hrest]
    simp [reports]

/-- A mark that starts at `next` makes `ids` dirty, and `s` is what comes of it. -/
structure Spreads (t : Tree α) (next : Option NodeId) (ids : List NodeId) (s : Tree α) : Prop where
  run : t.CleanRun next ids
  nodup : ids.Nodup
  closed : t.Closed next ids
  soils : t.Soils ids s

theorem Spreads.none (hno : ∀ x, next = some x → ¬ t.Clean x) : t.Spreads next [] t :=
  ⟨.nil next, .nil, fun x hx hc => absurd hc (hno x (by simpa using hx)), .none t⟩

theorem Spreads.cons (hn : t.find? id = some n) (hc : t.Clean id)
    (h : (t.soil id n).Spreads n.owner ids s) : t.Spreads (some id) (id :: ids) s := by
  have hmark := markOf_soil hn
  have howner := ownerOf_soil t id n
  have hback : ∀ x, (t.soil id n).Clean x → x ≠ id ∧ t.Clean x := fun x hx => by
    rw [Clean, hmark] at hx
    split at hx
    · cases hx
    · exact ⟨‹_›, hx⟩
  have hfresh : id ∉ ids := fun hm => (hback id (h.run.clean hm)).1 rfl
  refine ⟨.cons hc ?_, List.nodup_cons.mpr ⟨hfresh, h.nodup⟩, fun x hx hclean => ?_,
    (soil_soils hn).trans h.soils (by simpa using hfresh)⟩
  · rw [ownerOf_eq hn]
    exact h.run.mono howner fun x hx => (hback x hx).2
  by_cases he : x = id
  · simp [he]
  refine List.mem_cons_of_mem id (h.closed x ?_ (by rwa [Clean, hmark, if_neg he]))
  rw [howner]
  rcases hx with hx | ⟨y, hy, hyx⟩
  · exact absurd (Option.some.inj hx).symm he
  rcases List.mem_cons.mp hy with rfl | hy
  · exact Or.inl (by rw [← ownerOf_eq hn, hyx])
  · exact Or.inr ⟨y, hy, hyx⟩

theorem soilChain_spreads (next : Option NodeId) {fuel : Nat} (hf : t.unmarked.card < fuel) :
    ∃ ids, t.Spreads next ids (t.soilChain fuel next) := by
  -- Every round marks a clean node, so the rounds do not run out before the clean nodes do.
  induction fuel generalizing t next with
  | zero => omega
  | succ fuel ih =>
    cases next with
    | none => exact ⟨[], .none (by simp)⟩
    | some id =>
      rw [soilChain]
      cases hn : t.find? id with
      | none =>
        refine ⟨[], .none fun x hx => ?_⟩
        cases hx
        simp [Clean, markOf, hn]
      | some n =>
        dsimp only
        split
        · rename_i hd
          refine ⟨[], .none fun x hx hc => ?_⟩
          cases hx
          exact hc.not_dirty ((dirty_iff hn).mpr hd)
        · rename_i hd
          have hd : n.isDirty = false := by simpa using hd
          have hlt := unmarked_soil hn hd
          obtain ⟨ids, hspread⟩ := ih (t := t.soil id n) n.owner (by omega)
          exact ⟨id :: ids, .cons hn ((clean_iff hn).mpr hd) hspread⟩

/-- Marking a live node marks the longest run of clean nodes from it up its owners: their marks and
bases change and nothing else does, and the host hears of each of them once, from the node upwards.
Done again, it does nothing. -/
theorem propagateDirty_soils_run (t : Tree α) (hl : t.Live id) :
    ∃ ids s, (Edit.propagateDirty id).apply t = (.ok ⟨⟩, s) ∧
      t.CleanRun (some id) ids ∧ ids.Nodup ∧ (∀ run, t.CleanRun (some id) run → run ⊆ ids) ∧
      t.Soils ids s ∧ (Edit.propagateDirty id).apply s = (.ok ⟨⟩, s) := by
  obtain ⟨n, hn⟩ := hl
  obtain ⟨ids, hspread⟩ := soilChain_spreads (some id)
    (Nat.lt_succ_of_le t.unmarked_card_le)
  obtain ⟨m, hm, hd⟩ := Option.map_eq_some_iff.mp (dirty_soilUpwards ⟨n, hn⟩)
  refine ⟨ids, t.soilUpwards id, ?_, hspread.run, hspread.nodup,
    fun run hr => hr.subset hspread.closed, hspread.soils, ?_⟩
  · simp [Edit.propagateDirty, Edit.apply_bind, Edit.apply_node hn]
  · simp [Edit.propagateDirty, Edit.apply_bind, Edit.apply_node hm, soilUpwards_dirty hm hd]

/-- Two nodes, each the owner of the other. -/
def ring : Tree Float32 :=
  let node := fun (label : String) (owner : NodeId) =>
    { Node.new .initial with owner := some owner, dirtied := some label }
  (((Tree.empty .initial).insert (node "a" ⟨2, 1⟩)).2.insert (node "b" ⟨1, 1⟩)).2

theorem propagateDirty_soils_ring :
    ring.ownerOf ⟨1, 1⟩ = some ⟨2, 1⟩ ∧ ring.ownerOf ⟨2, 1⟩ = some ⟨1, 1⟩ ∧
    ∃ ids s, (Edit.propagateDirty ⟨1, 1⟩).apply ring = (.ok ⟨⟩, s) ∧
      ring.CleanRun (some ⟨1, 1⟩) ids ∧ ids.Nodup ∧
      (∀ run, ring.CleanRun (some ⟨1, 1⟩) run → run ⊆ ids) ∧
      ring.Soils ids s ∧ (Edit.propagateDirty ⟨1, 1⟩).apply s = (.ok ⟨⟩, s) :=
  ⟨rfl, rfl, propagateDirty_soils_run ring ⟨_, rfl⟩⟩

end Flexbox.Tree
