import Mathlib
import Flexbox.Proofs.Arithmetic

namespace Flexbox

instance : Scalar ℚ where
  decLt := inferInstance
  decLe := inferInstance
  ofNat n := n
  ofDecimal digits places := digits / 10 ^ places
  fract x := x - if x < 0 then ⌈x⌉ else ⌊x⌋
  cap x := x
  text x := toString x

namespace Exact

open Scalar (IsNumber IsFinite)

@[simp] theorem isNaN_eq (x : ℚ) : Scalar.isNaN x = false := by
  simp [Scalar.isNaN]

theorem number (x : ℚ) : IsNumber x := isNaN_eq x

theorem finite (x : ℚ) : IsFinite x := isNaN_eq _

@[simp] theorem of_eq (x : ℚ) : Extent.of x = .known x := by
  simp [Extent.of]

@[simp] theorem max_eq (a b : ℚ) : Scalar.max a b = max a b := by
  rw [Scalar.max, isNaN_eq, if_neg (by simp)]
  split
  · rename_i h
    exact (max_eq_left h.le).symm
  · rename_i h
    exact (max_eq_right (le_of_not_gt h)).symm

end Exact

open Exact in
instance : Scalar.Lawful ℚ where
  le_number _ := ⟨number _, number _⟩
  le_total _ _ := le_total _ _
  le_trans := le_trans
  lt_iff := lt_iff_le_not_ge
  beq_iff := by
    intro a b
    rw [beq_iff_eq, le_antisymm_iff]
  zero_finite := finite 0
  neg_one_lt := by decide
  finite_number _ := number _
  finite_of_le _ _ _ := finite _
  add_number _ _ := number _
  sub_number _ _ := number _
  mul_number _ _ _ := number _
  div_number _ _ _ := number _
  add_nonneg := add_nonneg
  sub_nonneg h _ := sub_nonneg.mpr h
  div_nonneg h h' _ := div_nonneg h h'.le
  count_pos h _ := ⟨Nat.cast_pos.mpr h, finite _⟩
  count_pred_pos h _ := ⟨sub_pos.mpr (Nat.one_lt_cast.mpr h), finite _⟩
  count_zero := rfl
  count_succ_pos _ := Nat.cast_add_one_pos _
  count_twice_pos h _ := mul_pos (Nat.cast_pos.mpr two_pos) (Nat.cast_pos.mpr h)

end Flexbox
