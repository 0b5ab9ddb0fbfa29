import Flexbox.Extent
import Mathlib.Algebra.Group.Nat.Defs

namespace Flexbox

variable {α : Type} [Scalar α]

namespace Scalar

def IsNumber (x : α) : Prop := isNaN x = false

/-- Neither infinite nor NaN: the distance from itself is a number. -/
def IsFinite (x : α) : Prop := IsNumber (x - x)

instance (x : α) : Decidable (IsNumber x) := inferInstanceAs (Decidable (_ = _))
instance (x : α) : Decidable (IsFinite x) := inferInstanceAs (Decidable (_ = _))

/-- Numbers are ordered, operations with a finite number lead to numbers, and rounding keeps
signs. -/
class Lawful (α : Type) [Scalar α] : Prop where
  le_number : ∀ {a b : α}, a ≤ b → IsNumber a ∧ IsNumber b
  le_total : ∀ {a b : α}, IsNumber a → IsNumber b → a ≤ b ∨ b ≤ a
  le_trans : ∀ {a b c : α}, a ≤ b → b ≤ c → a ≤ c
  lt_iff : ∀ {a b : α}, a < b ↔ a ≤ b ∧ ¬ b ≤ a
  beq_iff : ∀ {a b : α}, (a == b) = true ↔ a ≤ b ∧ b ≤ a
  zero_finite : IsFinite (0 : α)
  neg_one_lt : (-1 : α) < 0
  finite_number : ∀ {a : α}, IsFinite a → IsNumber a
  finite_of_le : ∀ {a b : α}, 0 ≤ a → a ≤ b → IsFinite b → IsFinite a
  add_number : ∀ {a b : α}, IsNumber a → IsFinite b → IsNumber (a + b)
  sub_number : ∀ {a b : α}, IsNumber a → IsFinite b → IsNumber (a - b)
  mul_number : ∀ {a b : α}, IsNumber a → IsFinite b → (b == 0) = false → IsNumber (a * b)
  div_number : ∀ {a b : α}, IsNumber a → IsFinite b → (b == 0) = false → IsNumber (a / b)
  add_nonneg : ∀ {a b : α}, 0 ≤ a → 0 ≤ b → 0 ≤ a + b
  sub_nonneg : ∀ {a b : α}, a ≤ b → a < b ∨ IsFinite a → 0 ≤ b - a
  div_nonneg : ∀ {a b : α}, 0 ≤ a → 0 < b → IsFinite b → 0 ≤ a / b
  count_zero : ((ofNat 0 : α) == 0) = true
  count_pos : ∀ {n : Nat}, 0 < n → n ≤ 2 ^ 32 → 0 < (ofNat n : α) ∧ IsFinite (ofNat n : α)
  count_pred_pos : ∀ {n : Nat}, 1 < n → n ≤ 2 ^ 32 →
    0 < (ofNat n - 1 : α) ∧ IsFinite (ofNat n - 1 : α)
  count_succ_pos : ∀ {n : Nat}, n ≤ 2 ^ 32 → 0 < (ofNat n + 1 : α)
  count_twice_pos : ∀ {n : Nat}, 0 < n → n ≤ 2 ^ 32 → 0 < (ofNat 2 * ofNat n : α)

variable [Lawful α] {a b c : α}

theorem zero_number : IsNumber (0 : α) := Lawful.finite_number Lawful.zero_finite

theorem le_refl (ha : IsNumber a) : a ≤ a := (Lawful.le_total ha ha).elim id id

theorem lt_le (h : a < b) : a ≤ b := (Lawful.lt_iff.mp h).1

theorem le_of_not_lt (ha : IsNumber a) (hb : IsNumber b) (h : ¬ a < b) : b ≤ a := by
  rcases Lawful.le_total ha hb with hab | hba
  · exact Decidable.by_contra fun hba => h (Lawful.lt_iff.mpr ⟨hab, hba⟩)
  · exact hba

theorem lt_asymm (h : a < b) : ¬ b < a := fun h' => (Lawful.lt_iff.mp h).2 (lt_le h')

theorem not_beq_of_gt (h : b < a) : (a == b) = false := by
  rw [Bool.eq_false_iff]
  exact fun he => (Lawful.lt_iff.mp h).2 (Lawful.beq_iff.mp he).1

theorem max_number (h : IsNumber a ∨ IsNumber b) : IsNumber (max a b) := by
  unfold max
  split
  · rename_i hb
    refine h.resolve_right fun hn => ?_
    rw [IsNumber, hb] at hn
    cases hn
  · split
    · rename_i hlt
      exact (Lawful.le_number (lt_le hlt)).2
    · rename_i hb _
      exact Bool.eq_false_iff.mpr hb

theorem le_max_left (ha : IsNumber a) : a ≤ max a b := by
  unfold max
  split
  · exact le_refl ha
  split
  · exact le_refl ha
  · rename_i hb hlt
    exact le_of_not_lt (Bool.eq_false_iff.mpr hb) ha hlt

theorem le_max_right (hb : IsNumber b) : b ≤ max a b := by
  unfold max
  rw [hb]
  simp only [Bool.false_eq_true, if_false]
  split
  · rename_i hlt
    exact lt_le hlt
  · exact le_refl hb

theorem max_le (ha : IsNumber a → a ≤ c) (hb : b ≤ c) : max a b ≤ c := by
  unfold max
  rw [show isNaN b = false from (Lawful.le_number hb).1]
  simp only [Bool.false_eq_true, if_false]
  split
  · rename_i hlt
    exact ha (Lawful.le_number (lt_le hlt)).2
  · exact hb

theorem min_le_right (hb : IsNumber b) : min a b ≤ b := by
  unfold min
  rw [hb]
  simp only [Bool.false_eq_true, if_false]
  split
  · rename_i hlt
    exact lt_le hlt
  · exact le_refl hb

end Scalar

namespace Extent

open Scalar (IsNumber IsFinite Lawful)

variable {x y : α}

theorem of_number (hx : IsNumber x) : Extent.of x = .known x := by
  rw [Extent.of, hx]
  rfl

theorem of_eq_known (h : Extent.of x = .known y) : x = y ∧ IsNumber x := by
  unfold Extent.of at h
  split at h
  · cases h
  · rename_i hx
    exact ⟨Extent.known.inj h, Bool.eq_false_iff.mpr hx⟩

theorem lt_known : (Extent.known x).lt (.known y) = true ↔ x < y := by
  simp only [lt, compare?, compareNumber?]
  split
  · simp_all
  split
  · simp_all
  split <;> simp_all

theorem gt_known [Lawful α] : (Extent.known x).gt (.known y) = true ↔ y < x := by
  simp only [gt, compare?, compareNumber?]
  split
  · rename_i hlt
    simpa using Scalar.lt_asymm hlt
  split
  · rename_i he
    simpa using fun hlt => by simp [Scalar.not_beq_of_gt hlt] at he
  · split <;> simp_all

end Extent

end Flexbox
