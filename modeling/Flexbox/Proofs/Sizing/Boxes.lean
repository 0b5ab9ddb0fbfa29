import Flexbox.Proofs.Arithmetic
import Flexbox.Solver.Leaf

namespace Flexbox

open Scalar (IsNumber IsFinite Lawful)

namespace Node

variable {α : Type} [Scalar α] {n m : Node α} {d : Dimension} {M x : α} {loose : Prop}

/-- The upper bound is a length that leaves room for padding and border, and the lower bound is no
higher. -/
structure Capped (n : Node α) (d : Dimension) (M : α) : Prop where
  upper : n.style.maxSize.get d = .points M
  nonneg : 0 ≤ M
  finite : IsFinite M
  lower : n.style.minSize.get d = .undefined ∨
    ∃ m, n.style.minSize.get d = .points m ∧ 0 ≤ m ∧ m ≤ M
  frame : ∀ axis : FlexDirection, axis.dimension = d → ∀ width, n.frameFor axis width ≤ M

structure Pinned (n : Node α) (d : Dimension) (M : α) : Prop extends Capped n d M where
  same : ∃ m, n.style.minSize.get d = .points m ∧ (M == m) = true

/-- A size that keeps to the bounds of a box. Where `loose` holds, equal bounds need not be met. -/
structure Fits (loose : Prop) (n : Node α) (d : Dimension) (x : α) : Prop where
  number : IsNumber x
  capped : ∀ M, n.Capped d M → x ≤ M
  pinned : ∀ M, n.Pinned d M → loose ∨ (x == M) = true

theorem Fits.mono {loose' : Prop} (h : Fits loose n d x) (hl : loose → loose') :
    Fits loose' n d x :=
  ⟨h.number, h.capped, fun M hM => (h.pinned M hM).imp_left hl⟩

variable [Lawful α] (axis : FlexDirection) (value axisSize width : Extent α)

theorem thickness_nonneg (logical physical : Extent α) : 0 ≤ thickness axis logical physical := by
  have hmax : ∀ y : α, 0 ≤ Scalar.max y 0 := fun y => Scalar.le_max_right Scalar.zero_number
  unfold thickness
  split
  · split
    · assumption
    · exact hmax _
  · exact hmax _

theorem frameFor_nonneg (n : Node α) : 0 ≤ n.frameFor axis width :=
  Lawful.add_nonneg (Lawful.add_nonneg (thickness_nonneg _ _ _) (thickness_nonneg _ _ _))
    (Lawful.add_nonneg (thickness_nonneg _ _ _) (thickness_nonneg _ _ _))

theorem frameFor_number (n : Node α) : IsNumber (n.frameFor axis width) :=
  (Lawful.le_number (frameFor_nonneg axis width n)).2

theorem Capped.frame_finite (h : n.Capped d M) (hd : axis.dimension = d) :
    IsFinite (n.frameFor axis width) :=
  Lawful.finite_of_le (frameFor_nonneg axis width n) (h.frame axis hd width) h.finite

theorem Capped.number (h : n.Capped d M) : IsNumber M := Lawful.finite_number h.finite

theorem Capped.max_resolve (h : n.Capped d M) (reference : Extent α) :
    (n.style.maxSize.get d).resolve reference = .known M := by
  rw [h.upper]
  exact Extent.of_number h.number

theorem clamp_cases (n : Node α) :
    n.clamp axis value axisSize = value ∨
      ∃ x, n.clamp axis value axisSize = .known x ∧ IsNumber x := by
  have hholds : ∀ e : Extent α, e.holds (fun x => decide (0 ≤ x)) = true →
      ∃ x, e = .known x ∧ IsNumber x := by
    intro e he
    cases e with
    | undefined => cases he
    | known x => exact ⟨x, rfl, (Lawful.le_number (of_decide_eq_true he)).2⟩
  unfold clamp
  dsimp only
  split
  · rename_i hmax
    exact Or.inr (hholds _ (Bool.and_eq_true_iff.mp hmax).1)
  split
  · rename_i hmin
    exact Or.inr (hholds _ (Bool.and_eq_true_iff.mp hmin).1)
  · exact Or.inl rfl

theorem Capped.clamp_le (h : n.Capped d M) (hd : axis.dimension = d) (hx : IsNumber x)
    (hc : n.clamp axis value axisSize = .known x) : x ≤ M := by
  have hmax := h.max_resolve axisSize
  have hholds : (Extent.known M).holds (fun x => decide (0 ≤ x)) = true := decide_eq_true h.nonneg
  unfold clamp at hc
  simp only [hd, hmax, hholds, Bool.true_and] at hc
  split at hc
  · obtain rfl := Extent.known.inj hc
    exact Scalar.le_refl hx
  · rename_i hgt
    split at hc
    · rcases h.lower with hu | ⟨m, hm, -, hle⟩
      · rw [hu] at hc
        cases hc
      · rw [hm] at hc
        rw [← (Extent.of_eq_known hc).1]
        exact hle
    · rw [hc, Extent.gt_known] at hgt
      exact Scalar.le_of_not_lt h.number hx hgt

theorem Pinned.clamp_known (h : n.Pinned d M) (hd : axis.dimension = d) (hx : IsNumber x) :
    ∃ y, n.clamp axis (.known x) axisSize = .known y ∧ (y == M) = true := by
  obtain ⟨m, hm, hsame⟩ := h.same
  obtain ⟨hle, hge⟩ := Lawful.beq_iff.mp hsame
  have hmax := h.max_resolve axisSize
  have hmin : (n.style.minSize.get d).resolve axisSize = .known m := by
    rw [hm]
    exact Extent.of_number (Lawful.le_number hle).2
  have h0 : 0 ≤ m := Lawful.le_trans h.nonneg hle
  unfold clamp
  simp only [hd, hmax, hmin, Extent.holds, h.nonneg, h0, decide_true, Bool.true_and]
  split
  · exact ⟨M, rfl, Lawful.beq_iff.mpr ⟨Scalar.le_refl h.number, Scalar.le_refl h.number⟩⟩
  rename_i hgt
  split
  · exact ⟨m, rfl, Lawful.beq_iff.mpr ⟨hge, hle⟩⟩
  · rename_i hlt
    rw [Extent.gt_known] at hgt
    rw [Extent.lt_known] at hlt
    exact ⟨x, rfl, Lawful.beq_iff.mpr ⟨Scalar.le_of_not_lt h.number hx hgt,
      Lawful.le_trans hle (Scalar.le_of_not_lt hx (Lawful.le_number hle).2 hlt)⟩⟩

theorem bound_cases (n : Node α) :
    n.bound axis value axisSize width = n.frameFor axis width ∨
      ∃ x, n.clamp axis value axisSize = .known x ∧ IsNumber x ∧
        n.frameFor axis width ≤ x ∧ n.bound axis value axisSize width = x := by
  have hframe := frameFor_number axis width n
  unfold bound
  rw [Extent.of_number hframe]
  cases n.clamp axis value axisSize with
  | undefined => exact Or.inl rfl
  | known x =>
    change Scalar.max x (n.frameFor axis width) = _ ∨ _
    unfold Scalar.max
    rw [hframe]
    simp only [Bool.false_eq_true, if_false]
    split
    · rename_i hlt
      refine Or.inr ⟨x, rfl, (Lawful.le_number (Scalar.lt_le hlt)).2, Scalar.lt_le hlt, ?_⟩
      change Scalar.max x (n.frameFor axis width) = x
      rw [Scalar.max, hframe, if_neg (by simp), if_pos hlt]
    · exact Or.inl rfl

theorem bound_number (n : Node α) : IsNumber (n.bound axis value axisSize width) := by
  rcases bound_cases axis value axisSize width n with he | ⟨x, -, hx, -, he⟩
  · rw [he]
    exact frameFor_number axis width n
  · rwa [he]

theorem frame_le_bound (n : Node α) :
    n.frameFor axis width ≤ n.bound axis value axisSize width := by
  rcases bound_cases axis value axisSize width n with he | ⟨x, -, -, hle, he⟩
  · rw [he]
    exact Scalar.le_refl (frameFor_number axis width n)
  · rwa [he]

theorem Capped.bound_le (h : n.Capped d M) (hd : axis.dimension = d) :
    n.bound axis value axisSize width ≤ M := by
  rcases bound_cases axis value axisSize width n with he | ⟨x, hc, hx, -, he⟩
  · rw [he]
    exact h.frame axis hd width
  · rw [he]
    exact h.clamp_le axis value axisSize hd hx hc

theorem Pinned.bound_eq (h : n.Pinned d M) (hd : axis.dimension = d) (hx : IsNumber x) :
    (n.bound axis (.known x) axisSize width == M) = true := by
  obtain ⟨y, hy, hyM⟩ := h.clamp_known axis axisSize hd hx
  obtain ⟨hle, hge⟩ := Lawful.beq_iff.mp hyM
  have hfinal := h.toCapped.bound_le axis (.known x) axisSize width hd
  refine Lawful.beq_iff.mpr ⟨hfinal, ?_⟩
  unfold bound
  rw [hy, Extent.of_number (frameFor_number axis width n)]
  exact Lawful.le_trans hge (Scalar.le_max_left (Lawful.le_number hle).1)

theorem bound_fits (n : Node α)
    (h : ∀ M, n.Pinned axis.dimension M → loose ∨ ∃ x, value = .known x ∧ IsNumber x) :
    Fits loose n axis.dimension (n.bound axis value axisSize width) := by
  refine ⟨bound_number axis value axisSize width n,
    fun M hM => hM.bound_le axis value axisSize width rfl, fun M hM => ?_⟩
  rcases h M hM with hl | ⟨x, rfl, hx⟩
  · exact Or.inl hl
  · exact Or.inr (hM.bound_eq axis axisSize width rfl hx)

end Node

end Flexbox
