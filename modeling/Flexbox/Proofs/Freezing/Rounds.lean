import Flexbox.Proofs.Binary32.Laws
import Flexbox.Solver.Flexing

namespace Flexbox

variable {α : Type}

namespace FlexItem

variable {i j k : FlexItem α} {space : Space α} {size : α} {items items' : List (FlexItem α)}

/-- The item as it is, or frozen at a bounded size if it was not. -/
def Stiffens (i j : FlexItem α) : Prop :=
  j = i ∨ ∃ share, i.frozen = none ∧ j = { i with frozen := some (i.bound share) }

theorem Stiffens.frozen (h : Stiffens i j) (hi : i.frozen = some size) : j = i := by
  rcases h with rfl | ⟨_, hno, -⟩
  · rfl
  · rw [hi] at hno
    cases hno

theorem Stiffens.trans (h : Stiffens i j) (h' : Stiffens j k) : Stiffens i k := by
  rcases h with rfl | ⟨share, hi, rfl⟩
  · exact h'
  · exact Or.inr ⟨share, hi, h'.frozen rfl⟩

theorem Stiffens.forall₂_trans {items'' : List (FlexItem α)}
    (h : List.Forall₂ Stiffens items items') (h' : List.Forall₂ Stiffens items' items'') :
    List.Forall₂ Stiffens items items'' := by
  induction h generalizing items'' with
  | nil => exact h'
  | cons hij _ ih =>
    cases h' with
    | cons hjk hrest => exact .cons (hij.trans hjk) (ih hrest)

def frozenCount (items : List (FlexItem α)) : Nat := items.countP fun i => i.frozen.isSome

theorem frozenCount_le (items : List (FlexItem α)) : frozenCount items ≤ items.length :=
  List.countP_le_length

theorem frozenCount_lt (h : List.Forall₂ Stiffens items items') (hne : items' ≠ items) :
    frozenCount items < frozenCount items' := by
  suffices hor : items' = items ∨ frozenCount items < frozenCount items' from hor.resolve_left hne
  clear hne
  induction h with
  | nil => exact Or.inl rfl
  | cons hij _ ih =>
    unfold frozenCount at ih ⊢
    rw [List.countP_cons, List.countP_cons]
    rcases hij with rfl | ⟨share, hi, rfl⟩
    · exact ih.imp (congrArg _) fun ih => by omega
    · right
      simp only [hi, Option.isSome_none, Bool.false_eq_true, if_false, Option.isSome_some, if_true]
      rcases ih with rfl | ih <;> omega

variable [Scalar α]

theorem violation?_frozen (h : i.frozen = some size) (space : Space α) :
    i.violation? space = none := by
  simp [violation?, h]

theorem violation?_eq_some : i.violation? space = some size ↔
    i.frozen = none ∧ ∃ share, i.flexed? space = some share ∧ Scalar.isNaN share = false ∧
      (share == i.bound share) = false ∧ i.bound share = size := by
  unfold violation?
  cases i.frozen with
  | some _ => simp
  | none =>
    cases i.flexed? space with
    | none => simp
    | some share => simp [and_assoc]

theorem finalSize_of_kept (hf : i.frozen = none) (hv : i.violation? space = none) {share : α}
    (hs : i.flexed? space = some share) (hn : Scalar.isNaN share = false) :
    (share == i.bound share) = true ∧ i.finalSize space = i.bound share := by
  refine ⟨?_, by simp [finalSize, hf, hs]⟩
  by_contra hne
  have hbroken : i.violation? space = some (i.bound share) :=
    violation?_eq_some.mpr ⟨hf, share, hs, hn, by simpa using hne, rfl⟩
  rw [hv] at hbroken
  cases hbroken

end FlexItem

open FlexItem (Stiffens frozenCount)

variable [Scalar α]

namespace FreezeRound

variable {items : List (FlexItem α)} {round : FreezeRound α} {i : FlexItem α}

theorem step_kept (h : i.violation? round.space = none) :
    round.step i = { round with seen := i :: round.seen } := by
  rw [step, h]

theorem step_broken {size : α} (h : i.violation? round.space = some size) :
    round.step i =
      { space := round.space.without i
        taken := round.taken + (size - i.basis)
        frozeAny := true
        seen := { i with frozen := some size } :: round.seen } := by
  rw [step, h]

theorem foldl_free (items : List (FlexItem α)) (round : FreezeRound α) :
    (items.foldl step round).space.free = round.space.free := by
  induction items generalizing round with
  | nil => rfl
  | cons i items ih =>
    rw [List.foldl_cons, ih]
    cases h : i.violation? round.space with
    | none => rw [step_kept h]
    | some size =>
      rw [step_broken h]
      dsimp only [Space.without]
      split <;> rfl

theorem foldl_seen (items : List (FlexItem α)) (round : FreezeRound α) : ∃ done,
    (items.foldl step round).seen = done.reverse ++ round.seen ∧
    List.Forall₂ Stiffens items done ∧
    ((items.foldl step round).frozeAny = true → round.frozeAny = true ∨ done ≠ items) := by
  induction items generalizing round with
  | nil => exact ⟨[], rfl, .nil, Or.inl⟩
  | cons i items ih =>
    obtain ⟨done, hseen, hdone, hany⟩ := ih (round.step i)
    cases h : i.violation? round.space with
    | none =>
      rw [step_kept h] at hseen hany
      refine ⟨i :: done, ?_, .cons (Or.inl rfl) hdone, fun ha => ?_⟩
      · rw [List.foldl_cons, step_kept h, hseen]
        simp
      · rw [List.foldl_cons, step_kept h] at ha
        exact (hany ha).imp_right fun hne he => hne (List.cons.inj he).2
    | some size =>
      rw [step_broken h] at hseen
      obtain ⟨hopen, share, -, -, -, rfl⟩ := FlexItem.violation?_eq_some.mp h
      refine ⟨{ i with frozen := some (i.bound share) } :: done, ?_,
        .cons (Or.inr ⟨share, hopen, rfl⟩) hdone, fun _ => Or.inr fun he => ?_⟩
      · rw [List.foldl_cons, step_broken h, hseen]
        simp
      · have hfrozen := congrArg FlexItem.frozen (List.cons.inj he).1
        rw [hopen] at hfrozen
        cases hfrozen

theorem foldl_quiet (h : (items.foldl step round).frozeAny = false) :
    items.foldl step round = { round with seen := items.reverse ++ round.seen } ∧
      ∀ i ∈ items, i.violation? round.space = none := by
  induction items generalizing round with
  | nil => exact ⟨rfl, by simp⟩
  | cons i items ih =>
    obtain ⟨hsame, hall⟩ := ih h
    cases hi : i.violation? round.space with
    | none =>
      rw [step_kept hi] at hsame hall
      refine ⟨?_, List.forall_mem_cons.mpr ⟨hi, hall⟩⟩
      rw [List.foldl_cons, step_kept hi, hsame]
      simp
    | some size =>
      -- The first item would have been frozen.
      rw [List.foldl_cons, hsame, step_broken hi] at h
      cases h

theorem foldl_kept (round : FreezeRound α) (h : ∀ i ∈ items, i.violation? round.space = none) :
    items.foldl step round = { round with seen := items.reverse ++ round.seen } := by
  induction items generalizing round with
  | nil => rfl
  | cons i items ih =>
    rw [List.foldl_cons, step_kept (h i (by simp)),
      ih { round with seen := i :: round.seen } fun j hj => h j (by simp [hj])]
    simp

theorem foldl_open (items : List (FlexItem α)) (round : FreezeRound α)
    (seen' : List (FlexItem α)) :
    let open? := fun i : FlexItem α => i.frozen.isNone
    seen'.filter open? = round.seen.filter open? →
    ((items.filter open?).foldl step { round with seen := seen' }).space =
        (items.foldl step round).space ∧
      ((items.filter open?).foldl step { round with seen := seen' }).taken =
        (items.foldl step round).taken ∧
      ((items.filter open?).foldl step { round with seen := seen' }).seen.filter open? =
        (items.foldl step round).seen.filter open? := by
  intro open? hseen
  induction items generalizing round seen' with
  | nil => exact ⟨rfl, rfl, hseen⟩
  | cons i items ih =>
    cases hi : i.frozen with
    | some size =>
      have hkept := FlexItem.violation?_frozen hi round.space
      rw [List.filter_cons_of_neg (by simp [open?, hi]), List.foldl_cons, step_kept hkept]
      exact ih { round with seen := i :: round.seen } seen'
        (by rw [hseen, List.filter_cons_of_neg (by simp [open?, hi])])
    | none =>
      rw [List.filter_cons_of_pos (by simp [open?, hi]), List.foldl_cons, List.foldl_cons]
      cases hv : i.violation? round.space with
      | none =>
        have hv' : i.violation? { round with seen := seen' }.space = none := hv
        rw [step_kept hv, step_kept hv']
        exact ih { round with seen := i :: round.seen } (i :: seen')
          (by simp [List.filter_cons, hseen])
      | some size =>
        have hv' : i.violation? { round with seen := seen' }.space = some size := hv
        rw [step_broken hv, step_broken hv']
        exact ih ⟨round.space.without i, round.taken + (size - i.basis), true,
          { i with frozen := some size } :: round.seen⟩ ({ i with frozen := some size } :: seen')
          (by simp [List.filter_cons, hseen])

end FreezeRound

theorem freeze_kept (hsub : ∀ a : α, a - 0 = a) {items : List (FlexItem α)} {space : Space α}
    (h : ∀ i ∈ items, i.violation? space = none) (fuel rounds : Nat) :
    freeze fuel items space rounds = ⟨items, space, rounds + 1⟩ := by
  unfold freeze
  rw [FreezeRound.foldl_kept ⟨space, 0, false, []⟩ h]
  cases fuel <;> simp [hsub]

/-- The items of a line and the space they share, between two rounds. -/
structure FlexState (α : Type) where
  items : List (FlexItem α)
  space : Space α

namespace FlexState

variable {s : FlexState α}

def walk (s : FlexState α) : FreezeRound α := s.items.foldl FreezeRound.step ⟨s.space, 0, false, []⟩

def next (s : FlexState α) : FlexState α :=
  ⟨s.walk.seen.reverse, { s.walk.space with free := s.walk.space.free - s.walk.taken }⟩

def after (s : FlexState α) (rounds : Nat) : FlexState α := next^[rounds] s

def unfrozen (s : FlexState α) : FlexState α :=
  ⟨s.items.filter fun i => i.frozen.isNone, s.space⟩

theorem after_succ (s : FlexState α) (k : Nat) : s.after (k + 1) = (s.after k).next :=
  Function.iterate_succ_apply' ..

theorem after_next (s : FlexState α) (k : Nat) : s.next.after k = s.after (k + 1) := rfl

theorem after_add (s : FlexState α) (j k : Nat) : (s.after j).after k = s.after (j + k) := by
  rw [Nat.add_comm]
  exact (Function.iterate_add_apply ..).symm

theorem next_items (s : FlexState α) : List.Forall₂ Stiffens s.items s.next.items ∧
    (s.walk.frozeAny = true → s.next.items ≠ s.items) := by
  obtain ⟨done, hseen, hdone, hany⟩ := FreezeRound.foldl_seen s.items ⟨s.space, 0, false, []⟩
  have hnext : s.next.items = done := by
    change s.walk.seen.reverse = done
    rw [walk, hseen]
    simp
  rw [hnext]
  exact ⟨hdone, fun ha => (hany ha).resolve_left (by simp)⟩

theorem next_quiet (hsub : ∀ a : α, a - 0 = a) (h : s.walk.frozeAny = false) :
    s.next = s ∧ ∀ i ∈ s.items, i.violation? s.space = none := by
  obtain ⟨hsame, hall⟩ := FreezeRound.foldl_quiet h
  refine ⟨?_, hall⟩
  have hwalk : s.walk = ⟨s.space, 0, false, s.items.reverse ++ []⟩ := hsame
  rw [next, hwalk]
  simp [hsub]

theorem next_unfrozen (s : FlexState α) : s.unfrozen.next.unfrozen = s.next.unfrozen := by
  obtain ⟨hspace, htaken, hseen⟩ := FreezeRound.foldl_open s.items ⟨s.space, 0, false, []⟩ [] rfl
  have hspace : s.unfrozen.walk.space = s.walk.space := hspace
  have htaken : s.unfrozen.walk.taken = s.walk.taken := htaken
  have hseen : s.unfrozen.walk.seen.filter (fun i => i.frozen.isNone) =
      s.walk.seen.filter fun i => i.frozen.isNone := hseen
  unfold unfrozen at hspace htaken hseen ⊢
  unfold next
  rw [hspace, htaken, List.filter_reverse, List.filter_reverse, hseen]

theorem after_items (s : FlexState α) (k : Nat) :
    List.Forall₂ Stiffens s.items (s.after k).items := by
  induction k with
  | zero => exact List.forall₂_same.mpr fun _ _ => Or.inl rfl
  | succ k ih =>
    rw [after_succ]
    exact Stiffens.forall₂_trans ih (s.after k).next_items.1

theorem after_length (s : FlexState α) (k : Nat) : (s.after k).items.length = s.items.length :=
  (s.after_items k).length_eq.symm

theorem frozenCount_after {k : Nat} (h : ∀ j < k, (s.after j).walk.frozeAny = true) :
    frozenCount s.items + k ≤ frozenCount (s.after k).items := by
  induction k with
  | zero => exact Nat.le_refl _
  | succ k ih =>
    have hlt := FlexItem.frozenCount_lt (s.after k).next_items.1
      ((s.after k).next_items.2 (h k (Nat.lt_succ_self k)))
    have hle := ih fun j hj => h j (by omega)
    rw [after_succ]
    omega

theorem freeze_eq (s : FlexState α) (fuel rounds : Nat) : ∃ k ≤ fuel,
    freeze fuel s.items s.space rounds =
      ⟨(s.after (k + 1)).items, (s.after (k + 1)).space, rounds + (k + 1)⟩ ∧
    (∀ j < k, (s.after j).walk.frozeAny = true) ∧
    (k < fuel → (s.after k).walk.frozeAny = false) := by
  induction fuel generalizing s rounds with
  | zero => exact ⟨0, Nat.le_refl _, rfl, by simp, by simp⟩
  | succ fuel ih =>
    have hfreeze : freeze (fuel + 1) s.items s.space rounds = if s.walk.frozeAny then
        freeze fuel s.next.items s.next.space (rounds + 1)
      else ⟨s.next.items, s.next.space, rounds + 1⟩ := rfl
    cases hany : s.walk.frozeAny with
    | false => exact ⟨0, Nat.zero_le _, by rw [hfreeze, hany]; rfl, by simp, fun _ => hany⟩
    | true =>
      obtain ⟨k, hk, hrun, hbefore, hend⟩ := ih s.next (rounds + 1)
      refine ⟨k + 1, by omega, ?_, fun j hj => ?_, fun hlt => hend (by omega)⟩
      · rw [hfreeze, hany, if_pos rfl, hrun, after_next]
        congr 1
        omega
      · cases j with
        | zero => exact hany
        | succ j => exact hbefore j (by omega)

theorem freeze_settled (hsub : ∀ a : α, a - 0 = a) (s : FlexState α) : ∃ k,
    (∀ fuel, s.items.length ≤ fuel →
      freeze fuel s.items s.space 0 = ⟨(s.after k).items, (s.after k).space, k + 1⟩) ∧
    frozenCount s.items + k ≤ frozenCount (s.after k).items ∧
    (∀ j < k, (s.after j).walk.frozeAny = true) ∧ (s.after k).walk.frozeAny = false ∧
    (s.after k).next = s.after k := by
  -- The first round that freezes nothing comes no later than there are items.
  have hquiet : ∀ fuel, s.items.length ≤ fuel → ∃ k,
      freeze fuel s.items s.space 0 = ⟨(s.after k).items, (s.after k).space, k + 1⟩ ∧
      (∀ j < k, (s.after j).walk.frozeAny = true) ∧ (s.after k).walk.frozeAny = false := by
    intro fuel hfuel
    obtain ⟨k, hk, hrun, hbefore, hend⟩ := s.freeze_eq fuel 0
    have hlast : (s.after k).walk.frozeAny = false := by
      rcases Nat.lt_or_ge k fuel with hlt | hge
      · exact hend hlt
      · by_contra hany
        have hcount := frozenCount_after (s := s) (k := k + 1) fun j hj => by
          rcases Nat.lt_succ_iff_lt_or_eq.mp hj with hj | rfl
          · exact hbefore j hj
          · simpa using hany
        have hle := FlexItem.frozenCount_le (s.after (k + 1)).items
        rw [after_length] at hle
        omega
    refine ⟨k, ?_, hbefore, hlast⟩
    rw [hrun, after_succ, (next_quiet hsub hlast).1, Nat.zero_add]
  obtain ⟨k, hrun, hbefore, hlast⟩ := hquiet s.items.length (Nat.le_refl _)
  refine ⟨k, fun fuel hfuel => ?_, frozenCount_after hbefore, hbefore, hlast,
    (next_quiet hsub hlast).1⟩
  obtain ⟨j, hrun', hbefore', hlast'⟩ := hquiet fuel hfuel
  obtain rfl : j = k := by
    rcases Nat.lt_trichotomy j k with hlt | heq | hgt
    · rw [hbefore j hlt] at hlast'
      cases hlast'
    · exact heq
    · rw [hbefore' k hgt] at hlast
      cases hlast
  exact hrun'

theorem after_frozen {j l n : Nat} (hjl : j ≤ l) {i : FlexItem α} {size : α}
    (hi : (s.after j).items[n]? = some i) (hf : i.frozen = some size) :
    (s.after l).items[n]? = some i := by
  obtain ⟨k, rfl⟩ := Nat.exists_eq_add_of_le hjl
  have hall := (s.after j).after_items k
  rw [after_add] at hall
  obtain ⟨hn, hget⟩ := List.getElem?_eq_some_iff.mp hi
  have hn' : n < (s.after (j + k)).items.length := hall.length_eq ▸ hn
  have hsame := (List.forall₂_iff_get.mp hall).2 n hn hn'
  rw [List.get_eq_getElem, hget] at hsame
  exact List.getElem?_eq_some_iff.mpr ⟨hn', hsame.frozen hf⟩

/-- Freezing comes to an end by itself, whatever the numbers are. All rounds but the last freeze
something, so there is at most one more than items were frozen; the last changes nothing. What is
frozen is neither changed nor looked at again, and what is not frozen in the end takes its share and
keeps its bounds. -/
theorem freezing_settles (s : FlexState Float32) : ∃ k,
    (∀ fuel, s.items.length ≤ fuel →
      freeze fuel s.items s.space 0 = ⟨(s.after k).items, (s.after k).space, k + 1⟩) ∧
    k ≤ frozenCount (s.after k).items - frozenCount s.items ∧
    frozenCount (s.after k).items - frozenCount s.items ≤ s.items.length ∧
    (∀ j < k, frozenCount (s.after j).items < frozenCount (s.after (j + 1)).items) ∧
    s.after (k + 1) = s.after k ∧
    (∀ (j l n : Nat) (i : FlexItem Float32) (size : Float32), j ≤ l →
      (s.after j).items[n]? = some i → i.frozen = some size → (s.after l).items[n]? = some i) ∧
    (∀ j, (s.after j).unfrozen.next.unfrozen = (s.after (j + 1)).unfrozen) ∧
    ∀ i ∈ (s.after k).items, i.frozen = none → ∀ share, i.flexed? (s.after k).space = some share →
      Scalar.isNaN share = false →
      (share == i.bound share) = true ∧ i.finalSize (s.after k).space = i.bound share := by
  obtain ⟨k, hrun, hcount, hbefore, hlast, hsame⟩ := freeze_settled Binary32.sub_zero s
  have hle : frozenCount (s.after k).items ≤ s.items.length :=
    s.after_length k ▸ FlexItem.frozenCount_le _
  have hkept := (next_quiet Binary32.sub_zero hlast).2
  refine ⟨k, hrun, by omega, by omega, fun j hj => ?_, by rw [after_succ, hsame],
    fun j l n i size hjl hi hf => after_frozen hjl hi hf, fun j => ?_, fun i hi hopen share => ?_⟩
  · obtain ⟨hstiff, hany⟩ := (s.after j).next_items
    rw [after_succ]
    exact FlexItem.frozenCount_lt hstiff (hany (hbefore j hj))
  · rw [after_succ, next_unfrozen]
  · exact FlexItem.finalSize_of_kept hopen (hkept i hi)

end FlexState

end Flexbox
