import Flexbox.PixelGrid
import Flexbox.Proofs.Exact

namespace Flexbox.PixelGrid

variable {s : ℚ} {r : Rounding}

theorem fraction_eq (x : ℚ) : fraction x = Int.fract x := by
  simp only [fraction, Scalar.fract]
  split
  · have hceil := Int.le_ceil x
    rcases hceil.lt_or_eq with hlt | heq
    · have hfloor : (⌈x⌉ : ℚ) = ⌊x⌋ + 1 := by
        exact_mod_cast (Int.ceil_eq_floor_add_one_iff_notMem x).mpr fun hx => by
          obtain ⟨k, rfl⟩ := hx
          simp at hlt
      rw [if_pos (by linarith), hfloor, Int.fract]
      ring
    · rw [if_neg (by linarith), ← heq, sub_self, heq, Int.fract_intCast]
  · exact if_neg (not_lt.mpr (Int.fract_nonneg x))

theorem tolerance_eq : (Scalar.tolerance : ℚ) = 1 / 10000 := by
  simp [Scalar.tolerance, Scalar.ofDecimal]
  norm_num

theorem near_iff {a b : ℚ} : Scalar.near a b = true ↔ |a - b| < 1 / 10000 := by
  have habs : Scalar.abs (a - b) = |a - b| := by
    rw [Scalar.abs, abs_eq_max_neg]
    split
    · rw [max_eq_right (by linarith)]
    · rw [max_eq_left (by linarith)]
  rw [Scalar.near, habs, tolerance_eq, decide_eq_true_iff]

/-- Where a fraction starts to be carried. -/
def threshold : Rounding → ℚ
  | .nearest => 1 / 2 - 1 / 10000
  | .up => 1 / 10000
  | .down => 1 - 1 / 10000

/-- The threshold itself is carried when rounding up. -/
def Carries (r : Rounding) (f : ℚ) : Prop := threshold r < f ∨ r = .up ∧ f = threshold r

instance (r : Rounding) (f : ℚ) : Decidable (Carries r f) := inferInstanceAs (Decidable (_ ∨ _))

theorem carry_eq {f : ℚ} (h0 : 0 ≤ f) (h1 : f < 1) (r : Rounding) :
    carry f r = if Carries r f then 1 else 0 := by
  have hhalf : (Scalar.ofDecimal 5 1 : ℚ) = 1 / 2 := by
    simp [Scalar.ofDecimal]
    norm_num
  simp only [carry, Exact.of_eq, Extent.near, near_iff, hhalf, Bool.or_eq_true, decide_eq_true_iff,
    abs_lt, Carries]
  cases r <;> simp only [threshold] <;> split_ifs <;> grind

/-- The number of steps from zero that `y` steps are rounded to. -/
def steps (r : Rounding) (y : ℚ) : ℤ := ⌊y⌋ + if Carries r (Int.fract y) then 1 else 0

theorem round_eq (x s : ℚ) (r : Rounding) : round x s r = steps r (x * s) / s := by
  rw [round, fraction_eq, carry_eq (Int.fract_nonneg _) (Int.fract_lt_one _), Int.self_sub_fract,
    steps]
  push_cast
  rfl

/-- Between two grid lines the fractions decide, and no rounding goes beyond a line. -/
theorem steps_monotone (r : Rounding) : Monotone (steps r) := by
  intro y z hyz
  unfold steps
  rcases (Int.floor_mono hyz).lt_or_eq with hlt | heq
  · split_ifs <;> omega
  · have hfract : Int.fract y ≤ Int.fract z := by
      rw [Int.fract, Int.fract, heq]
      linarith
    have hcarries : Carries r (Int.fract y) → Carries r (Int.fract z) := by
      unfold Carries
      grind
    split_ifs <;> grind

theorem steps_close (r : Rounding) (y : ℚ) : |steps r y - y| < 1 := by
  have hpos : 0 < threshold r := by cases r <;> norm_num [threshold]
  have hparts := Int.floor_add_fract y
  have h0 := Int.fract_nonneg y
  have h1 := Int.fract_lt_one y
  rw [steps, abs_lt]
  split_ifs with hcarries <;> push_cast
  · have hf : 0 < Int.fract y := hcarries.elim hpos.trans fun h => h.2 ▸ hpos
    constructor <;> linarith
  · constructor <;> linarith

theorem steps_nearest (y : ℚ) :
    -0.4999 ≤ steps .nearest y - y ∧ steps .nearest y - y < 0.5001 := by
  have hparts := Int.floor_add_fract y
  have h0 := Int.fract_nonneg y
  have h1 := Int.fract_lt_one y
  rw [steps]
  split_ifs with hcarries <;> simp only [Carries, threshold] at hcarries <;> push_cast
  · have hf : 1 / 2 - 1 / 10000 < Int.fract y := hcarries.resolve_right (by simp)
    constructor <;> linarith
  · have hf : Int.fract y ≤ 1 / 2 - 1 / 10000 := not_lt.mp fun h => hcarries (Or.inl h)
    constructor <;> linarith

theorem round_whole (x s : ℚ) (r : Rounding) : ∃ k : ℤ, round x s r = k / s :=
  ⟨_, round_eq x s r⟩

theorem round_nearest (x s : ℚ) :
    ∃ k : ℤ, round x s .nearest = k / s ∧ -0.4999 ≤ k - x * s ∧ k - x * s < 0.5001 :=
  ⟨_, round_eq x s .nearest, steps_nearest (x * s)⟩

theorem round_add_steps (hs : s ≠ 0) (x : ℚ) (k : ℤ) (r : Rounding) :
    round (x + k / s) s r = round x s r + k / s := by
  have hscaled : (x + k / s) * s = x * s + k := by field_simp
  simp only [round, fraction_eq, hscaled, Int.fract_add_intCast]
  ring

theorem round_steps (hs : s ≠ 0) (k : ℤ) (r : Rounding) : round (k / s) s r = k / s := by
  have hzero : round 0 s r = 0 := by simp [round, fraction_eq, carry, Extent.near, near_iff]
  simpa [hzero] using round_add_steps hs 0 k r

theorem round_round (hs : s ≠ 0) (x : ℚ) (r r' : Rounding) :
    round (round x s r) s r' = round x s r := by
  obtain ⟨k, hk⟩ := round_whole x s r
  rw [hk, round_steps hs]

theorem round_sub (hs : 0 < s) (x : ℚ) (r : Rounding) :
    round x s r - x = (steps r (x * s) - x * s) / s := by
  rw [round_eq, sub_div, mul_div_cancel_right₀ _ hs.ne']

/-- The rounding that two flags ask for. The one for up decides if both are set. -/
def Rounding.ofFlags (up down : Bool) : Rounding :=
  if up then .up else if down then .down else .nearest

/-- Whatever the flags, rounding leads to a multiple of the step, less than a step away, and at
most half a step and the tolerance away without a flag. It keeps the order of numbers, and leaves
alone what it leads to. -/
theorem round_monotone_projection (hs : 0 < s) (up down : Bool) :
    (∀ x, (∃ k : ℤ, round x s (.ofFlags up down) = k / s) ∧
      |round x s (.ofFlags up down) - x| < 1 / s ∧
      (up = false → down = false →
        |round x s (.ofFlags up down) - x| ≤ (1 / 2 + (Scalar.tolerance : ℚ)) / s)) ∧
    (Monotone fun x => round x s (.ofFlags up down)) ∧
    ∀ x, round (round x s (.ofFlags up down)) s (.ofFlags up down) =
      round x s (.ofFlags up down) := by
  refine ⟨fun x => ⟨round_whole x s _, ?_, ?_⟩, fun x y hxy => ?_,
    fun x => round_round hs.ne' x _ _⟩
  · rw [round_sub hs, abs_div, abs_of_pos hs]
    exact div_lt_div_of_pos_right (steps_close _ _) hs
  · rintro rfl rfl
    obtain ⟨hlow, hhigh⟩ := steps_nearest (x * s)
    rw [round_sub hs, abs_div, abs_of_pos hs, tolerance_eq]
    refine div_le_div_of_nonneg_right (abs_le.mpr ⟨?_, ?_⟩) hs.le
    · exact le_trans (by norm_num) hlow
    · exact hhigh.le.trans (by norm_num)
  · simp only [round_eq]
    have hscaled : x * s ≤ y * s := mul_le_mul_of_nonneg_right hxy hs.le
    exact div_le_div_of_nonneg_right (Int.cast_le.mpr (steps_monotone _ hscaled)) hs.le

/-- Two thirds of a step below zero, at three steps to the unit. -/
theorem round_monotone_projection_below_zero :
    round (-2 / 9 : ℚ) 3 (.ofFlags false false) = -1 / 3 ∧
    |round (-2 / 9 : ℚ) 3 (.ofFlags false false) - -2 / 9| ≤
      (1 / 2 + (Scalar.tolerance : ℚ)) / 3 ∧
    round (-2 / 9 : ℚ) 3 (.ofFlags true true) = 0 ∧
    |round (-2 / 9 : ℚ) 3 (.ofFlags true true) - -2 / 9| < 1 / 3 :=
  ⟨by decide +kernel,
    ((round_monotone_projection three_pos false false).1 (-2 / 9)).2.2 rfl rfl,
    by decide +kernel,
    ((round_monotone_projection three_pos true true).1 (-2 / 9)).2.1⟩

end Flexbox.PixelGrid
