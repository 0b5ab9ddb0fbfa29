import Flexbox.Proofs.Binary32
import Mathlib

namespace Flexbox.Binary32

open Float.Model Float.Model.UnpackedFloat

def Signed (s : Sign) : UnpackedFloat → Prop
  | .notANumber => False
  | .infinity s' | .zero s' | .finite s' _ _ _ => s' = s

/-- Mantissa and exponent as unpacking gives them: all bits are used unless the exponent is the
least. -/
structure Canonical (m : Nat) (e : Int) : Prop where
  fits : m < 2 ^ 24
  least : -149 ≤ e
  full : 2 ^ 23 ≤ m ∨ e = -149

theorem toNat_one_append (m : BitVec 23) : (1#1 ++ m).toNat = 2 ^ 23 + m.toNat := by
  rw [BitVec.toNat_append, ← Nat.shiftLeft_add_eq_or_of_lt m.isLt]
  simp [Nat.shiftLeft_eq]

theorem sign_packComponents (s : Sign) (e : BitVec 8) (m : BitVec 23) :
    Sign.ofBitVec (unpackSign (packComponents Format.binary32 s e m)) = s := by
  simp only [unpackSign, packComponents, BitVec.extractLsb]
  rw [BitVec.extractLsb'_append_eq_of_le (by omega), BitVec.extractLsb'_append_eq_of_le (by omega)]
  cases s <;> rfl

theorem signed_unpack_packComponents (s : Sign) {e : BitVec 8} (he : e ≠ -1#8) (m : BitVec 23) :
    Signed s (UnpackedFloat.unpack Format.binary32 (packComponents Format.binary32 s e m)) := by
  unfold UnpackedFloat.unpack
  simp only [unpackMantissa_packComponents, unpackExponent_packComponents, sign_packComponents, he,
    if_false]
  split
  · split <;> rfl
  · rfl

theorem unpack_packedInfinity (s : Sign) :
    UnpackedFloat.unpack Format.binary32 (packedInfinity Format.binary32 s) = .infinity s := by
  cases s <;> rfl

theorem unpack_packedZero (s : Sign) :
    UnpackedFloat.unpack Format.binary32 (packedZero Format.binary32 s) = .zero s := by
  cases s <;> rfl

theorem signed_unpack_pack {s : Sign} {u : UnpackedFloat} (hu : Signed s u) :
    Signed s (Float32.Model.pack u).unpack := by
  change Signed s (UnpackedFloat.unpack Format.binary32 (UnpackedFloat.pack Format.binary32 u))
  cases u with
  | notANumber => exact hu.elim
  | infinity s' =>
    obtain rfl : s' = s := hu
    rw [show UnpackedFloat.pack Format.binary32 (.infinity s') = packedInfinity _ s' from rfl,
      unpack_packedInfinity]
    rfl
  | zero s' =>
    obtain rfl : s' = s := hu
    rw [show UnpackedFloat.pack Format.binary32 (.zero s') = packedZero _ s' from rfl,
      unpack_packedZero]
    rfl
  | finite s' m e hm =>
    obtain rfl : s' = s := hu
    rw [UnpackedFloat.pack]
    dsimp only
    split
    · rw [unpack_packedInfinity]
      rfl
    · rename_i hsmall
      split
      · refine signed_unpack_packComponents s' (fun he => hsmall ?_) _
        have hbits := congrArg BitVec.toNat he
        simp only [BitVec.toNat_ofNat] at hbits
        change _ % 256 = 255 at hbits
        change 256 ≤ _ + 1
        omega
      · exact signed_unpack_packComponents s' (by decide) _

theorem unpack_pack_canonical (s : Sign) {m : Nat} {e : Int} (hm : 0 < m) (hc : Canonical m e)
    (he : e ≤ 104) : (Float32.Model.pack (.finite s m e hm)).unpack = .finite s m e hm := by
  change UnpackedFloat.unpack Format.binary32
    (UnpackedFloat.pack Format.binary32 (.finite s m e hm)) = _
  have hbias : (e + Format.binary32.exponentBias +
      Format.binary32.mantissaBitsWithoutImplicit).toNat = (e + 150).toNat := by
    change (e + 127 + 23).toNat = _
    omega
  have hleast := hc.least
  rw [UnpackedFloat.pack]
  simp only [hbias]
  rw [if_neg (show ¬ 256 ≤ (e + 150).toNat + 1 by omega)]
  unfold UnpackedFloat.unpack
  by_cases hfull : 2 ^ 23 ≤ m
  · have hlog : m.log2 + 1 = Format.binary32.mantissaBits := by
      have hlow := (Nat.le_log2 hm.ne').mpr hfull
      have hhigh := (Nat.log2_lt hm.ne').mpr hc.fits
      change m.log2 + 1 = 24
      omega
    have hne : ∀ k < 256, (e + 150).toNat ≠ k →
        BitVec.ofNat 8 (e + 150).toNat ≠ BitVec.ofNat 8 k := by
      intro k hk hne h
      have hbits := congrArg BitVec.toNat h
      simp only [BitVec.toNat_ofNat] at hbits
      omega
    have hmantissa : (1#1 ++ BitVec.ofNat 23 m).toNat = m := by
      have hfits := hc.fits
      rw [toNat_one_append, BitVec.toNat_ofNat]
      omega
    rw [if_pos hlog]
    simp only [unpackMantissa_packComponents, unpackExponent_packComponents, sign_packComponents]
    rw [if_neg (show BitVec.ofNat 8 (e + 150).toNat ≠ -1#8 from hne 255 (by omega) (by omega)),
      if_neg (hne 0 (by omega) (by omega))]
    simp only [hmantissa, BitVec.toNat_ofNat]
    congr 1
    change (((e + 150).toNat % 256 : Nat) : Int) - (127 + 23) = e
    omega
  · have hlog : ¬ m.log2 + 1 = Format.binary32.mantissaBits := by
      have hhigh := (Nat.log2_lt hm.ne').mpr (Nat.lt_of_not_le hfull)
      change ¬ m.log2 + 1 = 24
      omega
    have hmantissa : (BitVec.ofNat 23 m).toNat = m := by
      rw [BitVec.toNat_ofNat, Nat.mod_eq_of_lt (by omega)]
    have hne : BitVec.ofNat 23 m ≠ 0#23 := by
      intro h
      have hbits := congrArg BitVec.toNat h
      rw [hmantissa] at hbits
      exact hm.ne' hbits
    obtain rfl : e = -149 := hc.full.resolve_left hfull
    rw [if_neg hlog]
    simp only [unpackMantissa_packComponents, unpackExponent_packComponents, sign_packComponents]
    rw [if_neg (by decide), if_pos True.intro]
    simp only [hne, dite_false, hmantissa]
    rfl

theorem canonical_of_unpack {x : Float32.Model} {s : Sign} {m : Nat} {e : Int} {hm : 0 < m}
    (h : x.unpack = .finite s m e hm) : Canonical m e := by
  change UnpackedFloat.unpack Format.binary32 x.toBits.toBitVec = _ at h
  unfold UnpackedFloat.unpack at h
  dsimp only at h
  split at h
  · split at h <;> cases h
  · split at h
    · rename_i hzero
      split at h
      · cases h
      · cases h
        refine ⟨?_, ?_, Or.inr ?_⟩
        · have hlt := (@unpackMantissa Format.binary32 x.toBits.toBitVec).isLt
          change _ < 2 ^ 23 at hlt
          omega
        · rw [hzero]
          decide
        · rw [hzero]
          decide
    · rename_i hnonzero
      cases h
      have hlt := (@unpackMantissa Format.binary32 x.toBits.toBitVec).isLt
      have hpos : 0 < (@unpackExponent Format.binary32 x.toBits.toBitVec).toNat := by
        rw [BitVec.toNat_pos, BitVec.pos_iff_ne_zero]
        exact hnonzero
      change _ < 2 ^ 23 at hlt
      refine ⟨?_, ?_, Or.inl ?_⟩
      · rw [toNat_one_append]
        omega
      · change -149 ≤ ((@unpackExponent Format.binary32 x.toBits.toBitVec).toNat : Int) -
          (127 + 23)
        omega
      · rw [toNat_one_append]
        omega

theorem mantissa_shiftRight (em : ExtendedMantissa) (k : Nat) :
    (em >>> k).mantissa = em.mantissa / 2 ^ k := by
  induction k with
  | zero => exact (Nat.div_one _).symm
  | succ k ih =>
    change (em >>> k).mantissa / 2 = _
    rw [ih, Nat.div_div_eq_div_mul, Nat.pow_succ]

theorem mantissa_ofMantissaAndAccuracy (m : Nat) (accuracy : Accuracy) :
    (ExtendedMantissa.ofMantissaAndAccuracy m accuracy).mantissa = m := by
  cases accuracy with
  | exact => rfl
  | inexact o => cases o <;> rfl

theorem roundedMantissa_bounds (em : ExtendedMantissa) :
    em.mantissa ≤ em.roundedMantissa ∧ em.roundedMantissa ≤ em.mantissa + 1 := by
  unfold ExtendedMantissa.roundedMantissa
  generalize em.accuracy = accuracy
  unfold Accuracy.roundToNearestEven
  split <;> omega

def assembled (s : Sign) (m : Nat) (e : Int) : UnpackedFloat :=
  if h : m = 0 then .zero s else .finite s m e (Nat.pos_of_ne_zero h)

def excess (m : Nat) (e : Int) : Nat :=
  (Format.binary32.targetExponent (totalExponent m e) - e).toNat

theorem roundWithAccuracy_eq (s : Sign) (m : Nat) (e : Int) (accuracy : Accuracy) :
    roundWithAccuracy Format.binary32 s m e accuracy =
      (fun rounded : Nat => assembled s (rounded / 2 ^ excess rounded (e + excess m e))
          (e + excess m e + excess rounded (e + excess m e)))
        (ExtendedMantissa.ofMantissaAndAccuracy m accuracy >>> excess m e).roundedMantissa := by
  unfold roundWithAccuracy shiftToTargetExponent shiftToExponent assembled excess
  simp only [mantissa_shiftRight, mantissa_ofMantissaAndAccuracy]

theorem signed_roundWithAccuracy (s : Sign) (m : Nat) (e : Int) (accuracy : Accuracy) :
    Signed s (roundWithAccuracy Format.binary32 s m e accuracy) := by
  unfold roundWithAccuracy
  dsimp only
  split <;> rfl

theorem signed_round (s : Sign) (m : Nat) (e : Int) : Signed s (round Format.binary32 s m e) :=
  signed_roundWithAccuracy s _ _ _

theorem targetExponent_eq (total : Int) :
    Format.binary32.targetExponent total = max (total - 24) (-149) := rfl

theorem roundWithAccuracy_full (s : Sign) {m : Nat} {e : Int} (hm : 0 < m)
    (he : e ≤ totalExponent m e - 24) (hleast : -149 ≤ totalExponent m e - 24)
    (accuracy : Accuracy) : ∃ m' e' h,
      roundWithAccuracy Format.binary32 s m e accuracy = .finite s m' e' h ∧
        2 ^ 23 ≤ m' ∧ m' < 2 ^ 24 ∧ totalExponent m e - 24 ≤ e' ∧ e' ≤ totalExponent m e - 23 := by
  unfold totalExponent at he hleast ⊢
  obtain ⟨k, hk⟩ : ∃ k : Nat, m.log2 = 23 + k := ⟨m.log2 - 23, by omega⟩
  have hlow := Nat.log2_self_le hm.ne'
  have hhigh := Nat.lt_log2_self (n := m)
  rw [hk] at hlow hhigh he hleast ⊢
  have hquot : 2 ^ 23 ≤ m / 2 ^ k ∧ m / 2 ^ k < 2 ^ 24 := by
    rw [Nat.le_div_iff_mul_le (by positivity), Nat.div_lt_iff_lt_mul (by positivity),
      ← Nat.pow_add, ← Nat.pow_add]
    exact ⟨hlow, by rwa [show 24 + k = 23 + k + 1 by omega]⟩
  have hexcess : excess m e = k := by
    rw [excess, targetExponent_eq, totalExponent, hk]
    omega
  have hbounds := roundedMantissa_bounds (ExtendedMantissa.ofMantissaAndAccuracy m accuracy >>> k)
  rw [mantissa_shiftRight, mantissa_ofMantissaAndAccuracy] at hbounds
  rw [roundWithAccuracy_eq, hexcess]
  generalize ExtendedMantissa.roundedMantissa _ = rounded at hbounds ⊢
  -- Only a mantissa that was rounded up to one digit too many is shifted again.
  by_cases hover : rounded = 2 ^ 24
  · have hagain : excess rounded (e + k) = 1 := by
      rw [excess, targetExponent_eq, totalExponent, hover, Nat.log2_two_pow]
      omega
    refine ⟨2 ^ 23, e + k + 1, by decide, ?_, le_rfl, by decide, by omega, by omega⟩
    dsimp only
    rw [hagain, hover]
    rfl
  · have hagain : excess rounded (e + k) = 0 := by
      have hlog : rounded.log2 = 23 := by
        refine (Nat.log2_eq_iff (by omega)).mpr ⟨?_, ?_⟩ <;> omega
      rw [excess, targetExponent_eq, totalExponent, hlog]
      omega
    refine ⟨rounded, e + k, by omega, ?_, by omega, by omega, by omega, by omega⟩
    dsimp only
    rw [hagain, assembled, Nat.pow_zero, Nat.div_one, dif_neg (by omega)]
    simp

theorem totalExponent_shiftLeft {m : Nat} (hm : 0 < m) (e : Int) (k : Nat) :
    totalExponent (m <<< k) (e - k) = totalExponent m e := by
  have hlog : (m <<< k).log2 = m.log2 + k := by
    rw [Nat.shiftLeft_eq]
    refine (Nat.log2_eq_iff (by positivity)).mpr ⟨?_, ?_⟩
    · rw [Nat.pow_add]
      exact Nat.mul_le_mul_right _ (Nat.log2_self_le hm.ne')
    · rw [show m.log2 + k + 1 = m.log2 + 1 + k by omega, Nat.pow_add]
      exact Nat.mul_lt_mul_of_pos_right Nat.lt_log2_self (by positivity)
  unfold totalExponent
  rw [hlog]
  omega

theorem round_full (s : Sign) {m : Nat} {e : Int} (hm : 0 < m)
    (hleast : -149 ≤ totalExponent m e - 24) : ∃ m' e' h,
      round Format.binary32 s m e = .finite s m' e' h ∧
        2 ^ 23 ≤ m' ∧ m' < 2 ^ 24 ∧ totalExponent m e - 24 ≤ e' ∧ e' ≤ totalExponent m e - 23 := by
  have htarget : Format.binary32.targetExponent (totalExponent m e) = totalExponent m e - 24 := by
    rw [targetExponent_eq]
    omega
  unfold UnpackedFloat.round decreaseExponent
  simp only [htarget]
  generalize hk : (e - (totalExponent m e - 24)).toNat = k
  have htotal := totalExponent_shiftLeft hm e k
  rw [← htotal]
  refine roundWithAccuracy_full s (by rw [Nat.shiftLeft_eq]; positivity) ?_ ?_ _
  · rw [htotal]
    omega
  · rw [htotal]
    exact hleast

end Flexbox.Binary32
