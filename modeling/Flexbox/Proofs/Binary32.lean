import Flexbox.Extent

namespace Flexbox.Binary32

open Float.Model

variable {x : Float32}

theorem add_comm (x y : Float32) : x + y = y + x := by
  have hsum : ∀ u v : UnpackedFloat,
      UnpackedFloat.add Format.binary32 u v = UnpackedFloat.add Format.binary32 v u := by
    intro u v
    cases u with
    | notANumber => cases v <;> rfl
    | infinity s =>
      cases v with
      | infinity s' => cases s <;> cases s' <;> rfl
      | notANumber | zero | finite => rfl
    | zero s =>
      cases v with
      | zero s' => cases s <;> cases s' <;> rfl
      | notANumber | infinity | finite => rfl
    | finite s m e hm =>
      cases v with
      | finite s' m' e' hm' =>
        change UnpackedFloat.normalize Format.binary32
            (s.apply (UnpackedFloat.decreaseExponent m e (min e e')).1 +
              s'.apply (UnpackedFloat.decreaseExponent m' e' (min e e')).1) (min e e') .positive =
          UnpackedFloat.normalize Format.binary32
            (s'.apply (UnpackedFloat.decreaseExponent m' e' (min e' e)).1 +
              s.apply (UnpackedFloat.decreaseExponent m e (min e' e)).1) (min e' e) .positive
        rw [Int.min_comm e' e, Int.add_comm]
      | notANumber | infinity | zero => rfl
  change (⟨Float32.Model.pack
      (UnpackedFloat.add Format.binary32 x.toModel.unpack y.toModel.unpack)⟩ : Float32) =
    ⟨Float32.Model.pack (UnpackedFloat.add Format.binary32 y.toModel.unpack x.toModel.unpack)⟩
  rw [hsum]

theorem sub_self (hx : x.isFinite) : x - x = 0 := by
  have hzero : UnpackedFloat.sub Format.binary32 x.toModel.unpack x.toModel.unpack =
      .zero .positive := by
    change x.toModel.unpack.isFinite = true at hx
    generalize x.toModel.unpack = u at hx ⊢
    cases u with
    | notANumber => cases hx
    | infinity s => cases hx
    | zero s => cases s <;> rfl
    | finite s m e hm =>
      change UnpackedFloat.normalize Format.binary32
        (s.apply (UnpackedFloat.decreaseExponent m e (min e e)).1 -
          s.apply (UnpackedFloat.decreaseExponent m e (min e e)).1) (min e e) .positive = _
      rw [Int.sub_self]
      rfl
  have hsub : x - x = ⟨Float32.Model.pack
      (UnpackedFloat.sub Format.binary32 x.toModel.unpack x.toModel.unpack)⟩ := rfl
  rw [hsub, hzero]
  decide +kernel

theorem beq_self (hx : x.isFinite) : (x == x) = true := by
  change x.toModel.unpack.isFinite = true at hx
  change (x.toModel.unpack.compare x.toModel.unpack == some .eq) = true
  generalize x.toModel.unpack = u at hx ⊢
  cases u with
  | notANumber => cases hx
  | infinity s => cases hx
  | zero s => rfl
  | finite s m e hm =>
    have hsame : (compare e e).then (compare m m) = .eq := by
      simp
    cases s with
    | negative =>
      change (some ((compare e e).then (compare m m)).swap == some .eq) = true
      rw [hsame]
      rfl
    | positive =>
      change (some ((compare e e).then (compare m m)) == some .eq) = true
      rw [hsame]
      rfl

theorem near_self (hx : x.isFinite) : Scalar.near x x = true := by
  rw [Scalar.near, sub_self hx]
  decide +kernel

def Bounded : Extent Float32 → Prop
  | .undefined => True
  | .known x => x.isFinite

instance (e : Extent Float32) : Decidable (Bounded e) :=
  match e with
  | .undefined => isTrue trivial
  | .known x => inferInstanceAs (Decidable (x.isFinite = true))

theorem Bounded.near_self {e : Extent Float32} (h : Bounded e) : e.near e = true := by
  cases e with
  | undefined => rfl
  | known x => exact Binary32.near_self h

theorem of_eq_known (hx : x.isFinite) : Extent.of x = .known x := by
  simp [Extent.of, Scalar.isNaN, beq_self hx]

end Flexbox.Binary32
