import Flexbox.Tree
import Mathlib.Data.Finset.Card
import Mathlib.Data.List.Nodup

namespace Flexbox.Tree

variable {α : Type} {t : Tree α} {id x : NodeId} {f : Node α → Node α}

/-- A free slot is empty and on the list of free slots once. -/
structure Tidy (t : Tree α) : Prop where
  empty : ∀ i ∈ t.free, ∃ v, t.slots[i]? = some ⟨v, none⟩
  nodup : t.free.Nodup

def Live (t : Tree α) (id : NodeId) : Prop := ∃ n, t.find? id = some n

theorem Live.congr {s : Tree α} (hl : t.Live id) (h : s.find? id = t.find? id) : s.Live id := by
  rw [Live, h]
  exact hl

theorem found {n : Node α} {Q : Node α → Prop} (hn : t.find? id = some n) (hq : Q n) :
    ∀ m, t.find? id = some m → Q m :=
  fun _ hm => Option.some.inj (hn.symm.trans hm) ▸ hq

theorem find?_eq_some {n : Node α} :
    t.find? id = some n ↔ t.slots[id.slot]? = some ⟨id.version, some n⟩ := by
  unfold find?
  cases hs : t.slots[id.slot]? with
  | none => simp
  | some s =>
    obtain ⟨v, m⟩ := s
    by_cases hv : v = id.version
    · subst hv
      simp
    · simp [hv]

theorem not_live : ¬ t.Live id ↔ t.find? id = none := by
  unfold Live
  cases t.find? id <;> simp

theorem find?_update (t : Tree α) (id x : NodeId) (f : Node α → Node α) :
    (t.update id f).find? x = if x = id then (t.find? x).map f else t.find? x := by
  obtain ⟨i, v⟩ := id
  obtain ⟨j, w⟩ := x
  simp only [find?, update, Array.getElem?_modify, NodeId.mk.injEq]
  by_cases hj : i = j
  · subst hj
    cases hs : t.slots[i]? with
    | none => simp
    | some s =>
      obtain ⟨u, m⟩ := s
      by_cases hu : u = v
      · subst hu
        by_cases hw : w = u
        · simp [hw]
        · simp [hw, Ne.symm hw]
      · by_cases hw : w = v
        · simp [hu, hw]
        · simp [hu, hw]
  · simp [hj, Ne.symm hj]

@[simp] theorem find?_update_self (t : Tree α) (id : NodeId) (f : Node α → Node α) :
    (t.update id f).find? id = (t.find? id).map f := by
  simp [find?_update]

theorem find?_update_other (t : Tree α) (f : Node α → Node α) (h : x ≠ id) :
    (t.update id f).find? x = t.find? x := by
  simp [find?_update, h]

@[simp] theorem live_update : (t.update id f).Live x ↔ t.Live x := by
  unfold Live
  rw [find?_update]
  split <;> cases t.find? x <;> simp

theorem find?_update_cases {m : Node α} (h : (t.update id f).find? x = some m) :
    (∃ n, x = id ∧ t.find? x = some n ∧ m = f n) ∨ x ≠ id ∧ t.find? x = some m := by
  rw [find?_update] at h
  split at h
  · obtain ⟨n, hn, rfl⟩ := Option.map_eq_some_iff.mp h
    exact Or.inl ⟨n, ‹_›, hn, rfl⟩
  · exact Or.inr ⟨‹_›, h⟩

theorem find?_update_eq_some {m : Node α} (h : (t.update id f).find? x = some m) :
    ∃ n, t.find? x = some n ∧ m = if x = id then f n else n := by
  obtain ⟨n, hx, hn, rfl⟩ | ⟨hx, hm⟩ := find?_update_cases h
  · exact ⟨n, hn, (if_pos hx).symm⟩
  · exact ⟨m, hm, (if_neg hx).symm⟩

theorem map_find?_update {β : Type} {g : Node α → β} (h : ∀ n, t.find? id = some n → g (f n) = g n)
    (x : NodeId) : ((t.update id f).find? x).map g = (t.find? x).map g := by
  rw [find?_update]
  split
  · rename_i hx
    subst hx
    cases hn : t.find? x with
    | none => rfl
    | some n => simp [h n hn]
  · rfl

theorem update_congr {g : Node α → Node α} (h : ∀ n, t.find? id = some n → f n = g n) :
    t.update id f = t.update id g := by
  unfold update
  congr 1
  apply Array.ext_getElem?
  intro i
  simp only [Array.getElem?_modify]
  split
  · rename_i hi
    subst hi
    cases hs : t.slots[id.slot]? with
    | none => rfl
    | some s =>
      obtain ⟨v, m⟩ := s
      by_cases hv : v = id.version
      · cases m with
        | none => simp
        | some n => simp [hv, h n (find?_eq_some.mpr (by rw [hs, hv]))]
      · simp [hv]
  · rfl

theorem update_same (h : ∀ n, t.find? id = some n → f n = n) : t.update id f = t := by
  rw [update_congr (g := fun n => n) h]
  unfold update
  congr 1
  apply Array.ext_getElem?
  intro i
  simp only [Array.getElem?_modify]
  split
  · cases t.slots[i]? <;> simp
  · rfl

theorem update_update (t : Tree α) (id : NodeId) (f g : Node α → Node α) :
    (t.update id f).update id g = t.update id fun n => g (f n) := by
  unfold update
  congr 1
  apply Array.ext_getElem?
  intro i
  simp only [Array.getElem?_modify]
  split
  · cases t.slots[i]? with
    | none => rfl
    | some s =>
      obtain ⟨v, m⟩ := s
      by_cases hv : v = id.version
      · cases m <;> simp [hv]
      · simp [hv]
  · rfl

@[simp] theorem update_config (t : Tree α) (id : NodeId) (f : Node α → Node α) :
    (t.update id f).config = t.config := rfl

theorem Tidy.update (h : t.Tidy) (id : NodeId) (f : Node α → Node α) : (t.update id f).Tidy := by
  refine ⟨?_, h.nodup⟩
  intro i hi
  obtain ⟨v, hv⟩ := h.empty i hi
  simp only [Tree.update, Array.getElem?_modify, hv, Option.map_some]
  split
  · exact ⟨v, by split <;> rfl⟩
  · exact ⟨v, rfl⟩

theorem Tidy.insert_fresh (h : t.Tidy) (n : Node α) : t.find? (t.insert n).1 = none := by
  unfold insert
  split
  · simp [find?]
  · rename_i slot rest hf
    obtain ⟨v, hv⟩ := h.empty slot (by simp [hf])
    simp [find?, hv]

theorem insert_name (t : Tree α) (n m : Node α) : (t.insert n).1 = (t.insert m).1 := by
  unfold insert
  split <;> rfl

@[simp] theorem insert_config (t : Tree α) (n : Node α) : (t.insert n).2.config = t.config := by
  unfold insert
  split <;> rfl

theorem Tidy.find?_insert (h : t.Tidy) (n : Node α) (x : NodeId) :
    (t.insert n).2.find? x = if x = (t.insert n).1 then some n else t.find? x := by
  obtain ⟨j, w⟩ := x
  unfold insert
  split
  · simp only [find?, Array.getElem?_push, NodeId.mk.injEq]
    by_cases hj : j = t.slots.size
    · subst hj
      by_cases hw : w = 1
      · simp [hw]
      · simp [hw, Ne.symm hw]
    · simp [hj]
  · rename_i slot rest hf
    obtain ⟨v, hv⟩ := h.empty slot (by simp [hf])
    simp only [find?, Array.getElem?_modify, hv, Option.map_some, Option.getD_some, NodeId.mk.injEq]
    by_cases hj : slot = j
    · subst hj
      by_cases hw : w = v + 1
      · simp [hw, hv]
      · simp [hw, Ne.symm hw, hv]
    · simp [hj, Ne.symm hj]

theorem Tidy.insert (h : t.Tidy) (n : Node α) : (t.insert n).2.Tidy := by
  unfold Tree.insert
  split
  · rename_i hf
    exact ⟨by simp [hf], by simp [hf]⟩
  · rename_i slot rest hf
    have hn := h.nodup
    rw [hf, List.nodup_cons] at hn
    refine ⟨?_, hn.2⟩
    intro i hi
    obtain ⟨v, hv⟩ := h.empty i (by simp [hf, hi])
    have hne : slot ≠ i := by
      rintro rfl
      exact hn.1 hi
    exact ⟨v, by simp [Array.getElem?_modify, hne, hv]⟩

theorem find?_erase (t : Tree α) (id x : NodeId) :
    (t.erase id).find? x = if x = id then none else t.find? x := by
  unfold erase
  split
  · rename_i hc
    obtain ⟨n, hn⟩ := Option.isSome_iff_exists.mp hc
    rw [find?_eq_some] at hn
    obtain ⟨i, v⟩ := id
    obtain ⟨j, w⟩ := x
    simp only [find?, Array.getElem?_modify, NodeId.mk.injEq]
    by_cases hj : i = j
    · subst hj
      by_cases hw : w = v
      · simp [hn, hw]
      · simp [hn, hw, Ne.symm hw]
    · simp [hj, Ne.symm hj]
  · rename_i hc
    split
    · rename_i hx
      subst hx
      simpa [contains] using hc
    · rfl

@[simp] theorem erase_config (t : Tree α) (id : NodeId) : (t.erase id).config = t.config := by
  unfold erase
  split <;> rfl

theorem Tidy.erase (h : t.Tidy) (id : NodeId) : (t.erase id).Tidy := by
  unfold Tree.erase
  split
  · rename_i hc
    obtain ⟨n, hn⟩ := Option.isSome_iff_exists.mp hc
    rw [find?_eq_some] at hn
    refine ⟨?_, List.nodup_cons.mpr ⟨?_, h.nodup⟩⟩
    · intro i hi
      rcases List.mem_cons.mp hi with rfl | hi
      · exact ⟨id.version + 1, by simp [Array.getElem?_modify, hn]⟩
      · obtain ⟨v, hv⟩ := h.empty i hi
        have hne : id.slot ≠ i := by
          rintro rfl
          simp [hn] at hv
        exact ⟨v, by simp [Array.getElem?_modify, hne, hv]⟩
    · intro hm
      obtain ⟨v, hv⟩ := h.empty _ hm
      simp [hn] at hv
  · exact h

theorem Tidy.empty_tree (config : Config α) : (Tree.empty config).Tidy :=
  ⟨by simp [Tree.empty], by simp [Tree.empty]⟩

theorem find?_empty (config : Config α) (id : NodeId) : (Tree.empty config).find? id = none := by
  obtain ⟨i, v⟩ := id
  cases i <;> simp [find?, Tree.empty]

theorem mem_ids : id ∈ t.ids ↔ t.Live id := by
  obtain ⟨i, v⟩ := id
  simp only [ids, List.mem_filterMap, Live, find?_eq_some, List.mem_zipIdx_iff_getElem?,
    Array.getElem?_toList, Prod.exists, Option.map_eq_some_iff, NodeId.mk.injEq]
  constructor
  · rintro ⟨s, j, hs, n, hn, rfl, rfl⟩
    obtain ⟨w, m⟩ := s
    exact ⟨n, by simp_all⟩
  · rintro ⟨n, hn⟩
    exact ⟨_, i, hn, n, rfl, rfl, rfl⟩

theorem slot_inj {a b : NodeId} (ha : t.Live a) (hb : t.Live b) (h : a.slot = b.slot) : a = b := by
  obtain ⟨n, hn⟩ := ha
  obtain ⟨m, hm⟩ := hb
  rw [find?_eq_some] at hn hm
  rw [h, hm] at hn
  obtain ⟨i, v⟩ := a
  obtain ⟨j, w⟩ := b
  simp_all

theorem Live.slot_lt (h : t.Live id) : id.slot < t.slots.size := by
  obtain ⟨n, hn⟩ := h
  rw [find?_eq_some] at hn
  exact (Array.getElem?_eq_some_iff.mp hn).1

end Flexbox.Tree
