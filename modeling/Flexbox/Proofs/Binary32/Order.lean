import Flexbox.Proofs.Binary32.Rounding
import Flexbox.Proofs.Arithmetic

namespace Flexbox.Binary32

open Float.Model Float.Model.UnpackedFloat
open Scalar (IsNumber IsFinite)

def Formed : UnpackedFloat → Prop
  | .notANumber => False
  | .infinity _ | .zero _ => True
  | .finite _ m e _ => Canonical m e

/-- How many of the least positive numbers make up a mantissa with an exponent. -/
def magnitude (m : Nat) (e : Int) : Int := m * 2 ^ (e + 149).toNat

def rank : UnpackedFloat → WithBot (WithTop Int)
  | .notANumber | .zero _ => ((0 : Int) : WithTop Int)
  | .infinity .negative => ⊥
  | .infinity .positive => ((⊤ : WithTop Int) : WithBot (WithTop Int))
  | .finite s m e _ => ((s.apply (magnitude m e) : Int) : WithTop Int)

variable {u : UnpackedFloat} {m m' : Nat} {e e' : Int}

theorem magnitude_pos (hm : 0 < m) (e : Int) : 0 < magnitude m e := by
  unfold magnitude
  positivity

theorem magnitude_lt (h : Canonical m e) (h' : Canonical m' e') (hlt : e < e' ∨ e = e' ∧ m < m') :
    magnitude m e < magnitude m' e' := by
  have hleast := h.least
  unfold magnitude
  rcases hlt with hlt | ⟨rfl, hlt⟩
  · have hfull : 2 ^ 23 ≤ m' := h'.full.resolve_right (by omega)
    obtain ⟨k, hk⟩ : ∃ k : Nat, (e' + 149).toNat = (e + 149).toNat + 1 + k :=
      ⟨(e' + 149).toNat - (e + 149).toNat - 1, by omega⟩
    have hm : (m : Int) < 2 ^ 24 := by exact_mod_cast h.fits
    have hm' : (2 ^ 23 : Int) ≤ m' := by exact_mod_cast hfull
    have hpow : (0 : Int) < 2 ^ (e + 149).toNat := by positivity
    have hone : (1 : Int) ≤ 2 ^ k := one_le_pow₀ (by decide)
    rw [hk, pow_add, pow_add]
    calc (m : Int) * 2 ^ (e + 149).toNat < 2 ^ 24 * 2 ^ (e + 149).toNat :=
          mul_lt_mul_of_pos_right hm hpow
      _ = 2 ^ 23 * (2 ^ (e + 149).toNat * 2 ^ 1 * 1) := by ring
      _ ≤ m' * (2 ^ (e + 149).toNat * 2 ^ 1 * 2 ^ k) := by gcongr
  · have hm : (m : Int) < m' := by exact_mod_cast hlt
    exact mul_lt_mul_of_pos_right hm (by positivity)

/-- The order of two numbers, read off mantissas and exponents, is that of what they stand for. -/
inductive Ranked (u v : UnpackedFloat) : Prop
  | lt (hc : u.compare v = some .lt) (hr : rank u < rank v)
  | eq (hc : u.compare v = some .eq) (hr : rank u = rank v)
  | gt (hc : u.compare v = some .gt) (hr : rank v < rank u)

theorem compare_magnitude (h : Canonical m e) (h' : Canonical m' e') :
    (compare e e').then (compare m m') = compare (magnitude m e) (magnitude m' e') := by
  rcases lt_trichotomy e e' with hlt | rfl | hgt
  · rw [compare_lt_iff_lt.mpr hlt, compare_lt_iff_lt.mpr (magnitude_lt h h' (Or.inl hlt))]
    rfl
  · rw [compare_eq_iff_eq.mpr rfl]
    rcases lt_trichotomy m m' with hlt | rfl | hgt
    · rw [compare_lt_iff_lt.mpr hlt, compare_lt_iff_lt.mpr (magnitude_lt h h' (Or.inr ⟨rfl, hlt⟩))]
      rfl
    · rw [compare_eq_iff_eq.mpr rfl, compare_eq_iff_eq.mpr rfl]
      rfl
    · rw [compare_gt_iff_gt.mpr hgt, compare_gt_iff_gt.mpr (magnitude_lt h' h (Or.inr ⟨rfl, hgt⟩))]
      rfl
  · rw [compare_gt_iff_gt.mpr hgt, compare_gt_iff_gt.mpr (magnitude_lt h' h (Or.inl hgt))]
    rfl

theorem ranked_finite (s : Sign) (hm : 0 < m) (hm' : 0 < m') (h : Canonical m e)
    (h' : Canonical m' e') : Ranked (.finite s m e hm) (.finite s m' e' hm') := by
  have hcompare := compare_magnitude h h'
  cases s with
  | positive =>
    have hc : UnpackedFloat.compare (.finite .positive m e hm) (.finite .positive m' e' hm') =
        some ((compare e e').then (compare m m')) := rfl
    rw [hcompare] at hc
    rcases lt_trichotomy (magnitude m e) (magnitude m' e') with hlt | heq | hgt
    · rw [compare_lt_iff_lt.mpr hlt] at hc
      exact .lt hc (by simpa [rank, Sign.apply] using hlt)
    · rw [compare_eq_iff_eq.mpr heq] at hc
      exact .eq hc (by simp [rank, Sign.apply, heq])
    · rw [compare_gt_iff_gt.mpr hgt] at hc
      exact .gt hc (by simpa [rank, Sign.apply] using hgt)
  | negative =>
    have hc : UnpackedFloat.compare (.finite .negative m e hm) (.finite .negative m' e' hm') =
        some ((compare e e').then (compare m m')).swap := rfl
    rw [hcompare] at hc
    rcases lt_trichotomy (magnitude m e) (magnitude m' e') with hlt | heq | hgt
    · rw [compare_lt_iff_lt.mpr hlt] at hc
      exact .gt hc (WithBot.coe_lt_coe.mpr (WithTop.coe_lt_coe.mpr (Int.neg_lt_neg hlt)))
    · rw [compare_eq_iff_eq.mpr heq] at hc
      exact .eq hc (by simp [rank, Sign.apply, heq])
    · rw [compare_gt_iff_gt.mpr hgt] at hc
      exact .lt hc (WithBot.coe_lt_coe.mpr (WithTop.coe_lt_coe.mpr (Int.neg_lt_neg hgt)))

theorem rank_positive (hm : 0 < m) (e : Int) :
    ((0 : Int) : WithTop Int) < rank (.finite .positive m e hm) :=
  WithBot.coe_lt_coe.mpr (WithTop.coe_lt_coe.mpr (magnitude_pos hm e))

theorem rank_negative (hm : 0 < m) (e : Int) :
    rank (.finite .negative m e hm) < ((0 : Int) : WithTop Int) :=
  WithBot.coe_lt_coe.mpr (WithTop.coe_lt_coe.mpr (Int.neg_neg_of_pos (magnitude_pos hm e)))

theorem bot_lt_rank (hu : u ≠ .infinity .negative) : ⊥ < rank u := by
  cases u with
  | infinity s =>
    cases s with
    | negative => exact absurd rfl hu
    | positive => exact WithBot.bot_lt_coe _
  | notANumber | zero | finite => exact WithBot.bot_lt_coe _

theorem rank_lt_top (hu : u ≠ .infinity .positive) :
    rank u < ((⊤ : WithTop Int) : WithBot (WithTop Int)) := by
  cases u with
  | infinity s =>
    cases s with
    | negative => exact WithBot.bot_lt_coe _
    | positive => exact absurd rfl hu
  | notANumber | zero | finite => exact WithBot.coe_lt_coe.mpr (WithTop.coe_lt_top _)

theorem ranked {v : UnpackedFloat} (hu : Formed u) (hv : Formed v) : Ranked u v := by
  cases u with
  | notANumber => exact hu.elim
  | infinity s =>
    cases s with
    | negative =>
      cases v with
      | notANumber => exact hv.elim
      | infinity s' =>
        cases s' with
        | negative => exact .eq rfl rfl
        | positive => exact .lt rfl (bot_lt_rank (by simp))
      | zero | finite => exact .lt rfl (bot_lt_rank (by simp))
    | positive =>
      cases v with
      | notANumber => exact hv.elim
      | infinity s' =>
        cases s' with
        | negative => exact .gt rfl (bot_lt_rank (by simp))
        | positive => exact .eq rfl rfl
      | zero | finite => exact .gt rfl (rank_lt_top (by simp))
  | zero s =>
    cases v with
    | notANumber => exact hv.elim
    | infinity s' =>
      cases s' with
      | negative => exact .gt rfl (bot_lt_rank (by simp))
      | positive => exact .lt rfl (rank_lt_top (by simp))
    | zero => exact .eq rfl rfl
    | finite s' m e hm =>
      cases s' with
      | negative => exact .gt rfl (rank_negative hm e)
      | positive => exact .lt rfl (rank_positive hm e)
  | finite s m e hm =>
    cases v with
    | notANumber => exact hv.elim
    | infinity s' =>
      cases s' with
      | negative => exact .gt (by cases s <;> rfl) (bot_lt_rank (by simp))
      | positive => exact .lt (by cases s <;> rfl) (rank_lt_top (by simp))
    | zero =>
      cases s with
      | negative => exact .lt rfl (rank_negative hm e)
      | positive => exact .gt rfl (rank_positive hm e)
    | finite s' m' e' hm' =>
      cases s <;> cases s'
      · exact ranked_finite _ hm hm' hu hv
      · exact .lt rfl ((rank_negative hm e).trans (rank_positive hm' e'))
      · exact .gt rfl ((rank_negative hm' e').trans (rank_positive hm e))
      · exact ranked_finite _ hm hm' hu hv

variable {x y : Float32}

/-- The parts of a number. -/
abbrev parts (x : Float32) : UnpackedFloat := x.toModel.unpack

theorem formed_of_ne (h : parts x ≠ .notANumber) : Formed (parts x) := by
  cases hx : parts x with
  | notANumber => exact absurd hx h
  | infinity | zero => trivial
  | finite s m e hm => exact canonical_of_unpack hx

theorem isNumber_iff : IsNumber x ↔ Formed (parts x) := by
  have hbeq : Scalar.isNaN x = !((parts x).compare (parts x) == some .eq) := rfl
  rw [IsNumber, hbeq]
  by_cases hnan : parts x = .notANumber
  · rw [hnan]
    exact iff_of_false (by decide) id
  · refine iff_of_true ?_ (formed_of_ne hnan)
    rcases ranked (formed_of_ne hnan) (formed_of_ne hnan) with ⟨-, hr⟩ | ⟨hc, -⟩ | ⟨-, hr⟩
    · exact absurd hr (lt_irrefl _)
    · rw [hc]
      rfl
    · exact absurd hr (lt_irrefl _)

theorem compare_notANumber_left (u : UnpackedFloat) :
    UnpackedFloat.compare .notANumber u = none := rfl

theorem compare_notANumber_right (u : UnpackedFloat) :
    UnpackedFloat.compare u .notANumber = none := by
  cases u <;> rfl

theorem number_of_compare {o : Ordering} (h : (parts x).compare (parts y) = some o) :
    IsNumber x ∧ IsNumber y := by
  refine ⟨isNumber_iff.mpr (formed_of_ne fun hx => ?_),
    isNumber_iff.mpr (formed_of_ne fun hy => ?_)⟩
  · rw [hx, compare_notANumber_left] at h
    cases h
  · rw [hy, compare_notANumber_right] at h
    cases h

theorem compare_iff {o : Ordering} : (parts x).compare (parts y) = some o ↔
    IsNumber x ∧ IsNumber y ∧ cmp (rank (parts x)) (rank (parts y)) = o := by
  constructor
  · intro h
    obtain ⟨hx, hy⟩ := number_of_compare h
    refine ⟨hx, hy, ?_⟩
    rcases ranked (isNumber_iff.mp hx) (isNumber_iff.mp hy) with ⟨hc, hr⟩ | ⟨hc, hr⟩ | ⟨hc, hr⟩
    · exact (cmp_eq_lt_iff _ _).mpr hr |>.trans (Option.some.inj (hc.symm.trans h))
    · exact (cmp_eq_eq_iff _ _).mpr hr |>.trans (Option.some.inj (hc.symm.trans h))
    · exact (cmp_eq_gt_iff _ _).mpr hr |>.trans (Option.some.inj (hc.symm.trans h))
  · rintro ⟨hx, hy, rfl⟩
    rcases ranked (isNumber_iff.mp hx) (isNumber_iff.mp hy) with ⟨hc, hr⟩ | ⟨hc, hr⟩ | ⟨hc, hr⟩
    · rw [hc, (cmp_eq_lt_iff _ _).mpr hr]
    · rw [hc, (cmp_eq_eq_iff _ _).mpr hr]
    · rw [hc, (cmp_eq_gt_iff _ _).mpr hr]

theorem le_iff : x ≤ y ↔ IsNumber x ∧ IsNumber y ∧ rank (parts x) ≤ rank (parts y) := by
  have hle : x ≤ y ↔ ((parts x).compare (parts y)).any (·.isLE) = true :=
    decide_eq_true_iff (p := x.toModel ≤ y.toModel)
  rw [hle, Option.any_eq_true]
  simp only [compare_iff]
  constructor
  · rintro ⟨_, ⟨hx, hy, rfl⟩, ho⟩
    refine ⟨hx, hy, not_lt.mp fun hgt => ?_⟩
    rw [(cmp_eq_gt_iff _ _).mpr hgt] at ho
    cases ho
  · rintro ⟨hx, hy, hr⟩
    refine ⟨_, ⟨hx, hy, rfl⟩, ?_⟩
    cases hc : cmp (rank (parts x)) (rank (parts y)) with
    | gt => exact absurd ((cmp_eq_gt_iff _ _).mp hc) hr.not_gt
    | lt | eq => rfl

theorem lt_iff : x < y ↔ IsNumber x ∧ IsNumber y ∧ rank (parts x) < rank (parts y) := by
  have hlt : x < y ↔ ((parts x).compare (parts y) == some .lt) = true :=
    decide_eq_true_iff (p := x.toModel < y.toModel)
  rw [hlt, beq_iff_eq, compare_iff, cmp_eq_lt_iff]

theorem beq_iff : (x == y) = true ↔ IsNumber x ∧ IsNumber y ∧ rank (parts x) = rank (parts y) := by
  have hbeq : (x == y) = true ↔ ((parts x).compare (parts y) == some .eq) = true := Iff.rfl
  rw [hbeq, beq_iff_eq, compare_iff, cmp_eq_eq_iff]

end Flexbox.Binary32
