import Flexbox.Proofs.Binary32.Order

namespace Flexbox.Binary32

open Float.Model Float.Model.UnpackedFloat
open Scalar (IsNumber IsFinite)

variable {x y : Float32} {u v : UnpackedFloat} {s : Sign} {m n k : Nat} {e e' : Int} {m' : Nat}

theorem unpack_pack_notANumber : (Float32.Model.pack .notANumber).unpack = .notANumber := rfl

theorem parts_zero : parts 0 = .zero .positive := rfl

theorem pack_unpack (x : Float32.Model) : Float32.Model.pack x.unpack = x := by
  obtain ⟨⟨b⟩, hvalid⟩ := x
  have hb : UnpackedFloat.pack Format.binary32 (UnpackedFloat.unpack Format.binary32 b) = b := by
    rw [@UnpackedFloat.pack_unpack Format.binary32 b (by decide)]
    split
    · rename_i hnan
      obtain ⟨hexponent, hmantissa⟩ := of_decide_eq_true hnan
      exact (hvalid.eq_packedNaN hexponent hmantissa).symm
    · rfl
  simp only [Float32.Model.pack, Float32.Model.unpack, hb]

/-- Taking nothing away changes nothing, not even the sign of zero. -/
protected theorem sub_zero (x : Float32) : x - 0 = x := by
  have hsame : ∀ u : UnpackedFloat,
      UnpackedFloat.sub Format.binary32 u (.zero .positive) = u := by
    intro u
    cases u with
    | zero s => cases s <;> rfl
    | notANumber | infinity | finite => rfl
  change (⟨Float32.Model.pack
    (UnpackedFloat.sub Format.binary32 x.toModel.unpack (.zero .positive))⟩ : Float32) = x
  rw [hsame, pack_unpack]

theorem number_of_signed (h : Signed s u) : IsNumber (⟨Float32.Model.pack u⟩ : Float32) := by
  refine isNumber_iff.mpr (formed_of_ne fun hn => ?_)
  have hp := signed_unpack_pack h
  rw [show (Float32.Model.pack u).unpack = .notANumber from hn] at hp
  exact hp

theorem isFinite_iff : IsFinite x ↔ (parts x).isFinite = true := by
  constructor
  · intro h
    have hsub : parts (x - x) = (Float32.Model.pack
        (UnpackedFloat.sub Format.binary32 (parts x) (parts x))).unpack := rfl
    have hn := isNumber_iff.mp h
    rw [hsub] at hn
    cases hx : parts x with
    | zero | finite => rfl
    | notANumber =>
      rw [hx] at hn
      exact hn.elim
    | infinity s =>
      rw [hx, show UnpackedFloat.sub Format.binary32 (.infinity s) (.infinity s) = .notANumber by
        cases s <;> rfl, unpack_pack_notANumber] at hn
      exact hn.elim
  · intro h
    have hzero : x - x = 0 := sub_self h
    rw [IsFinite, hzero]
    decide +kernel

theorem signed_normalize (m e : Int) (zeroSign : Sign) :
    ∃ s, Signed s (normalize Format.binary32 m e zeroSign) := by
  unfold UnpackedFloat.normalize
  split
  · exact ⟨_, signed_round _ _ _⟩
  · exact ⟨_, rfl⟩
  · exact ⟨_, signed_round _ _ _⟩

theorem signed_add_sub (hu : u ≠ .notANumber) (hv : v.isFinite = true) :
    (∃ s, Signed s (UnpackedFloat.add Format.binary32 u v)) ∧
      ∃ s, Signed s (UnpackedFloat.sub Format.binary32 u v) := by
  cases u with
  | notANumber => exact absurd rfl hu
  | infinity s =>
    cases v with
    | notANumber | infinity => cases hv
    | zero | finite => exact ⟨⟨s, rfl⟩, s, rfl⟩
  | zero s =>
    cases v with
    | notANumber | infinity => cases hv
    | zero s' => cases s <;> cases s' <;> exact ⟨⟨_, rfl⟩, _, rfl⟩
    | finite s' => exact ⟨⟨s', rfl⟩, -s', rfl⟩
  | finite s =>
    cases v with
    | notANumber | infinity => cases hv
    | zero => exact ⟨⟨s, rfl⟩, s, rfl⟩
    | finite => exact ⟨signed_normalize _ _ _, signed_normalize _ _ _⟩

theorem signed_mul_div (hu : u ≠ .notANumber) (e : Int) (hm : 0 < m) :
    (∃ s', Signed s' (UnpackedFloat.mul Format.binary32 u (.finite s m e hm))) ∧
      ∃ s', Signed s' (UnpackedFloat.div Format.binary32 u (.finite s m e hm)) := by
  cases u with
  | notANumber => exact absurd rfl hu
  | infinity | zero => exact ⟨⟨_, rfl⟩, _, rfl⟩
  | finite => exact ⟨⟨_, signed_roundWithAccuracy _ _ _ _⟩, _, signed_roundWithAccuracy _ _ _ _⟩

theorem parts_ne (hx : IsNumber x) : parts x ≠ .notANumber := by
  intro hn
  have hf := isNumber_iff.mp hx
  rw [hn] at hf
  exact hf

theorem parts_of_nonzero (hx : IsFinite x) (h0 : (x == 0) = false) :
    ∃ s m e hm, parts x = .finite s m e hm := by
  have hfin := isFinite_iff.mp hx
  cases hp : parts x with
  | finite s m e hm => exact ⟨s, m, e, hm, rfl⟩
  | notANumber | infinity =>
    rw [hp] at hfin
    cases hfin
  | zero s =>
    have hbeq : (x == 0) = ((parts x).compare (parts 0) == some .eq) := rfl
    rw [hbeq, hp, parts_zero] at h0
    cases h0

def NonNeg : UnpackedFloat → Prop
  | .notANumber => False
  | .zero _ => True
  | .infinity s | .finite s _ _ _ => s = .positive

theorem nonneg_of_signed (h : Signed .positive u) : NonNeg u := by
  cases u with
  | zero => trivial
  | notANumber | infinity | finite => exact h

theorem nonneg_iff : 0 ≤ x ↔ NonNeg (parts x) := by
  have hzero : rank (parts 0) = ((0 : Int) : WithTop Int) := rfl
  have hnumber : parts x ≠ .notANumber → IsNumber (0 : Float32) ∧ IsNumber x := fun hne =>
    ⟨by decide +kernel, isNumber_iff.mpr (formed_of_ne hne)⟩
  rw [le_iff, hzero, ← and_assoc]
  cases hp : parts x with
  | notANumber =>
    refine iff_of_false (fun h => ?_) id
    have hx := isNumber_iff.mp h.1.2
    rw [hp] at hx
    exact hx
  | zero s => exact iff_of_true ⟨hnumber (by simp [hp]), le_rfl⟩ trivial
  | infinity s =>
    cases s with
    | positive =>
      exact iff_of_true ⟨hnumber (by simp [hp]), (rank_lt_top (u := .zero .positive) (by simp)).le⟩
        rfl
    | negative =>
      exact iff_of_false (fun h => (bot_lt_rank (u := .zero .positive) (by simp)).not_ge h.2) nofun
  | finite s m e hm =>
    cases s with
    | positive => exact iff_of_true ⟨hnumber (by simp [hp]), (rank_positive hm e).le⟩ rfl
    | negative => exact iff_of_false (fun h => (rank_negative hm e).not_ge h.2) nofun

theorem nonneg_pack (h : NonNeg u) : NonNeg (Float32.Model.pack u).unpack := by
  cases u with
  | notANumber => exact h.elim
  | zero s =>
    rw [show (Float32.Model.pack (.zero s)).unpack = .zero s from unpack_packedZero s]
    trivial
  | infinity | finite => exact nonneg_of_signed (signed_unpack_pack h)

theorem nonneg_normalize {m : Int} (hm : 0 ≤ m) (e : Int) :
    NonNeg (normalize Format.binary32 m e .positive) := by
  unfold UnpackedFloat.normalize
  split
  · rename_i hlt
    exact absurd (compare_lt_iff_lt.mp hlt) (by omega)
  · trivial
  · exact nonneg_of_signed (signed_round _ _ _)

theorem nonneg_add (hu : NonNeg u) (hv : NonNeg v) :
    NonNeg (UnpackedFloat.add Format.binary32 u v) := by
  cases u with
  | notANumber => exact hu.elim
  | infinity s =>
    cases hu
    cases v with
    | notANumber => exact hv.elim
    | infinity s =>
      cases hv
      rfl
    | zero | finite => rfl
  | zero s =>
    cases v with
    | notANumber => exact hv.elim
    | zero s' => cases s <;> cases s' <;> trivial
    | infinity | finite => exact hv
  | finite s m e hm =>
    cases hu
    cases v with
    | notANumber => exact hv.elim
    | zero => rfl
    | infinity => exact hv
    | finite s' m' e' hm' =>
      cases hv
      exact nonneg_normalize (Int.add_nonneg (Int.natCast_nonneg _) (Int.natCast_nonneg _)) _

theorem nonneg_div (hu : NonNeg u) (e : Int) (hm : 0 < m) :
    NonNeg (UnpackedFloat.div Format.binary32 u (.finite .positive m e hm)) := by
  cases u with
  | notANumber => exact hu.elim
  | zero s => trivial
  | infinity s =>
    cases hu
    rfl
  | finite s m' e' hm' =>
    cases hu
    exact nonneg_of_signed (signed_roundWithAccuracy _ _ _ _)

theorem magnitude_decreaseExponent (s : Sign) (m : Nat) (he : -149 ≤ e) (hle : e ≤ e') :
    s.apply (decreaseExponent m e' e).1 * 2 ^ (e + 149).toNat = s.apply (magnitude m e') := by
  have hexp : (e' + 149).toNat = (e' - e).toNat + (e + 149).toNat := by omega
  have hpos : ((decreaseExponent m e' e).1 : Int) * 2 ^ (e + 149).toNat = magnitude m e' := by
    unfold decreaseExponent magnitude
    dsimp only
    rw [Nat.shiftLeft_eq, hexp, pow_add]
    push_cast
    ring
  cases s with
  | positive => exact hpos
  | negative =>
    change -_ * _ = -_
    rw [← hpos]
    ring

theorem nonneg_sub_finite {s' : Sign} (hm : 0 < m) (hm' : 0 < m') (h : Canonical m e)
    (h' : Canonical m' e') (hle : rank (.finite s' m' e' hm') ≤ rank (.finite s m e hm)) :
    NonNeg (UnpackedFloat.sub Format.binary32 (.finite s m e hm) (.finite s' m' e' hm')) := by
  have hunits : s'.apply (magnitude m' e') ≤ s.apply (magnitude m e) := by
    simpa [rank] using hle
  have hleast : -149 ≤ min e e' := le_min h.least h'.least
  have hmant := magnitude_decreaseExponent s m hleast (min_le_left e e')
  have hmant' := magnitude_decreaseExponent s' m' hleast (min_le_right e e')
  refine nonneg_normalize ?_ _
  rw [← hmant, ← hmant'] at hunits
  have hpow : (0 : Int) < 2 ^ (min e e' + 149).toNat := by positivity
  exact Int.sub_nonneg_of_le (le_of_mul_le_mul_right hunits hpow)

theorem nonneg_sub (hu : Formed u) (hv : Formed v) (hle : rank v ≤ rank u)
    (h : rank v < rank u ∨ v.isFinite = true) :
    NonNeg (UnpackedFloat.sub Format.binary32 u v) := by
  cases v with
  | notANumber => exact hv.elim
  | infinity s =>
    have hlt := h.resolve_right (by simp [UnpackedFloat.isFinite])
    cases s with
    | positive =>
      by_cases htop : u = .infinity .positive
      · rw [htop] at hlt
        exact absurd hlt (lt_irrefl _)
      · exact absurd hlt (rank_lt_top htop).not_gt
    | negative =>
      cases u with
      | notANumber => exact hu.elim
      | infinity s =>
        cases s with
        | positive => exact rfl
        | negative => exact absurd hlt (lt_irrefl _)
      | zero | finite => exact rfl
  | zero s' =>
    cases u with
    | notANumber => exact hu.elim
    | infinity s =>
      cases s with
      | positive => exact rfl
      | negative => exact absurd hle (bot_lt_rank (by simp)).not_ge
    | zero s => cases s <;> cases s' <;> trivial
    | finite s m e hm =>
      cases s with
      | positive => exact rfl
      | negative => exact absurd hle (rank_negative hm e).not_ge
  | finite s' m' e' hm' =>
    cases u with
    | notANumber => exact hu.elim
    | infinity s =>
      cases s with
      | positive => exact rfl
      | negative => exact absurd hle (bot_lt_rank (by simp)).not_ge
    | zero s =>
      cases s' with
      | positive => exact absurd hle (rank_positive hm' e').not_ge
      | negative => exact rfl
    | finite s m e hm => exact nonneg_sub_finite hm hm' hu hv hle

/-- The number has all its digits, and its exponent is that of `2 ^ k` or little more. -/
def Counts (k : Nat) (x : Float32) : Prop :=
  ∃ m e hm, parts x = .finite .positive m e hm ∧ 2 ^ 23 ≤ m ∧ m < 2 ^ 24 ∧
    (k : Int) - 23 ≤ e ∧ e ≤ (k : Int) - 21

theorem log2_le (hn : 0 < n) (h : n ≤ 2 ^ 32) : n.log2 ≤ 32 := by
  have hlt := (Nat.log2_lt (k := 33) hn.ne').mpr (by omega)
  omega

theorem log2_mul_pow (hm : 0 < m) (k : Nat) : (m * 2 ^ k).log2 = m.log2 + k := by
  have htotal := totalExponent_shiftLeft hm 0 k
  rw [Nat.shiftLeft_eq] at htotal
  unfold totalExponent at htotal
  omega

theorem log2_full (hlow : 2 ^ 23 ≤ m) (hhigh : m < 2 ^ 24) : m.log2 = 23 :=
  (Nat.log2_eq_iff (by omega)).mpr ⟨hlow, hhigh⟩

theorem mul_positive (e e' : Int) (hm : 0 < m) (hm' : 0 < m') :
    UnpackedFloat.mul Format.binary32 (.finite .positive m e hm) (.finite .positive m' e' hm') =
      roundWithAccuracy Format.binary32 .positive (m * m') (e + e') .exact :=
  rfl

theorem counts_ofNat_small (hn : 0 < n) (h : n < 2 ^ 23) : Counts n.log2 (Float32.ofNat n) := by
  have hlog := log2_le hn (by omega)
  have hprod : Float32.ofNat n = n.toUInt64.toFloat32 * Float32.ofBits 0x3F800000 := by
    change Float32.ofScientific n false 0 = _
    rw [Float32.ofScientific, dif_pos ⟨h, by decide⟩]
    rfl
  obtain ⟨m, e, hm, hround, hlow, hhigh, hle, hge⟩ :=
    round_full .positive (m := n) (e := 0) hn (by unfold totalExponent; omega)
  unfold totalExponent at hle hge
  have hparts : parts n.toUInt64.toFloat32 = .finite .positive m e hm := by
    have hnorm : UnpackedFloat.ofUInt64 Format.binary32 n.toUInt64 = .finite .positive m e hm := by
      rw [← hround, UnpackedFloat.ofUInt64, UnpackedFloat.ofNat, UnpackedFloat.ofInt,
        UnpackedFloat.normalize,
        show n.toUInt64.toNat = n from Nat.mod_eq_of_lt (by omega),
        compare_gt_iff_gt.mpr (show (0 : Int) < n by exact_mod_cast hn)]
      rfl
    change (Float32.Model.pack (UnpackedFloat.ofUInt64 Format.binary32 n.toUInt64)).unpack = _
    rw [hnorm]
    exact unpack_pack_canonical .positive hm ⟨hhigh, by omega, Or.inl hlow⟩ (by omega)
  have htotal : totalExponent (m * 2 ^ 23) (e + -23) = e + 24 := by
    rw [totalExponent, log2_mul_pow hm, log2_full hlow hhigh]
    omega
  obtain ⟨m', e', hm', hround', hlow', hhigh', hle', hge'⟩ :=
    roundWithAccuracy_full .positive (m := m * 2 ^ 23) (e := e + -23) (by positivity)
      (by rw [htotal]; omega) (by rw [htotal]; omega) .exact
  rw [htotal] at hle' hge'
  refine ⟨m', e', hm', ?_, hlow', hhigh', by omega, by omega⟩
  have hmul : parts (Float32.ofNat n) = (Float32.Model.pack (UnpackedFloat.mul Format.binary32
      (parts n.toUInt64.toFloat32) (.finite .positive (2 ^ 23) (-23) (by decide)))).unpack := by
    rw [hprod]
    rfl
  rw [hmul, hparts, mul_positive, hround']
  exact unpack_pack_canonical .positive hm' ⟨hhigh', by omega, Or.inl hlow'⟩ (by omega)

theorem counts_ofNat_large (hn : 2 ^ 23 ≤ n) (h : n ≤ 2 ^ 32) :
    Counts n.log2 (Float32.ofNat n) := by
  have hpos : 0 < n := by omega
  have hlog := log2_le hpos h
  have htotal : totalExponent (n * 2 ^ 24) (-24) = n.log2 + 1 := by
    rw [totalExponent, log2_mul_pow hpos]
    omega
  obtain ⟨m, e, hm, hround, hlow, hhigh, hle, hge⟩ :=
    roundWithAccuracy_full .positive (m := n * 2 ^ 24) (e := -24) (by positivity)
      (by rw [htotal]; have := (Nat.le_log2 hpos.ne').mpr hn; omega) (by rw [htotal]; omega) .exact
  rw [htotal] at hle hge
  refine ⟨m, e, hm, ?_, hlow, hhigh, by omega, by omega⟩
  have hsci : UnpackedFloat.ofScientific Format.binary32 n 0 =
      roundWithAccuracy Format.binary32 .positive (n * 2 ^ 24) (-24) .exact := by
    rw [UnpackedFloat.ofScientific, dif_neg hpos.ne', if_neg (by decide),
      if_neg (show ¬ (0 : Int) < -((2 : Int) ^ 8 + n.log2) by omega), if_pos le_rfl,
      mul_positive]
    simp [Format.mantissaBits, Nat.shiftLeft_eq]
  have hmodel : parts (Float32.ofNat n) = (Float32.Model.pack
      (UnpackedFloat.ofScientific Format.binary32 n 0)).unpack := by
    change parts (Float32.ofScientific n false 0) = _
    rw [Float32.ofScientific, dif_neg (by omega)]
    rfl
  rw [hmodel, hsci, hround]
  exact unpack_pack_canonical .positive hm ⟨hhigh, by omega, Or.inl hlow⟩ (by omega)

theorem counts_ofNat (hn : 0 < n) (h : n ≤ 2 ^ 32) : Counts n.log2 (Float32.ofNat n) := by
  by_cases hsmall : n < 2 ^ 23
  · exact counts_ofNat_small hn hsmall
  · exact counts_ofNat_large (by omega) h

theorem pos_of_parts (hm : 0 < m) (hp : parts x = .finite .positive m e hm) :
    0 < x ∧ IsFinite x := by
  have hnum : IsNumber x := isNumber_iff.mpr (formed_of_ne (by simp [hp]))
  refine ⟨lt_iff.mpr ⟨by decide +kernel, hnum, ?_⟩, isFinite_iff.mpr (by rw [hp]; rfl)⟩
  rw [hp, parts_zero]
  exact rank_positive hm e

theorem Counts.pos (h : Counts k x) : 0 < x ∧ IsFinite x := by
  obtain ⟨m, e, hm, hp, -⟩ := h
  exact pos_of_parts hm hp

theorem pos_of_normalize {d : Nat} (hlow : 2 ^ 23 ≤ d) (hhigh : d < 2 ^ 59)
    (hx : parts x = (Float32.Model.pack (UnpackedFloat.normalize Format.binary32 d (-23)
      .positive)).unpack) : 0 < x ∧ IsFinite x := by
  have hlog : d.log2 < 59 := (Nat.log2_lt (by omega)).mpr hhigh
  have hlog' : 23 ≤ d.log2 := (Nat.le_log2 (by omega)).mpr hlow
  obtain ⟨m, e, hm, hround, hlow', hhigh', hle, hge⟩ :=
    round_full .positive (m := d) (e := -23) (by omega) (by unfold totalExponent; omega)
  unfold totalExponent at hle hge
  have hnorm : UnpackedFloat.normalize Format.binary32 d (-23) .positive =
      .finite .positive m e hm := by
    rw [UnpackedFloat.normalize, compare_gt_iff_gt.mpr (show (0 : Int) < d by omega), ← hround]
    rfl
  rw [hnorm, unpack_pack_canonical .positive hm ⟨hhigh', by omega, Or.inl hlow'⟩ (by omega)] at hx
  exact pos_of_parts hm hx

theorem Counts.whole (h : Counts k x) (hk : k ≤ 32) :
    ∃ m e hm w, parts x = .finite .positive m e hm ∧ min e (-23) = -23 ∧
      m <<< (e - -23).toNat = w ∧ 2 ^ k * 2 ^ 23 ≤ w ∧ w < 2 ^ 58 := by
  obtain ⟨m, e, hm, hp, hlow, hhigh, hle, hge⟩ := h
  refine ⟨m, e, hm, _, hp, by omega, Nat.shiftLeft_eq .., ?_, ?_⟩
  · rw [Nat.mul_comm]
    exact Nat.mul_le_mul hlow (Nat.pow_le_pow_right (by decide) (by omega))
  · calc m * 2 ^ (e - -23).toNat < 2 ^ 24 * 2 ^ (e - -23).toNat :=
          Nat.mul_lt_mul_of_pos_right hhigh (by positivity)
      _ ≤ 2 ^ 24 * 2 ^ 34 := Nat.mul_le_mul_left _ (Nat.pow_le_pow_right (by decide) (by omega))
      _ = 2 ^ 58 := by decide

theorem Counts.beside_one (h : Counts k x) (hk : k ≤ 32) :
    ∃ w : Nat, 2 ^ k * 2 ^ 23 ≤ w ∧ w < 2 ^ 58 ∧
      parts (x - 1) = (Float32.Model.pack (UnpackedFloat.normalize Format.binary32
        ((w : Int) - 2 ^ 23) (-23) .positive)).unpack ∧
      parts (x + 1) = (Float32.Model.pack (UnpackedFloat.normalize Format.binary32
        ((w : Int) + 2 ^ 23) (-23) .positive)).unpack := by
  obtain ⟨m, e, hm, w, hp, hmin, hw, hlow, hhigh⟩ := h.whole hk
  have hone : parts 1 = .finite .positive (2 ^ 23) (-23) (by decide) := rfl
  have hpred : parts (x - 1) = (Float32.Model.pack
      (UnpackedFloat.sub Format.binary32 (parts x) (parts 1))).unpack := rfl
  have hsucc : parts (x + 1) = (Float32.Model.pack
      (UnpackedFloat.add Format.binary32 (parts x) (parts 1))).unpack := rfl
  rw [hp, hone] at hpred hsucc
  simp only [UnpackedFloat.sub, decreaseExponent, Sign.apply, hmin, hw] at hpred
  simp only [UnpackedFloat.add, decreaseExponent, Sign.apply, hmin, hw] at hsucc
  exact ⟨w, hlow, hhigh, hpred, hsucc⟩

theorem Counts.pred_pos (h : Counts k x) (hk : 1 ≤ k) (hk' : k ≤ 32) :
    0 < x - 1 ∧ IsFinite (x - 1) := by
  obtain ⟨w, hlow, hhigh, hpred, -⟩ := h.beside_one hk'
  have hone : 2 ≤ 2 ^ k := Nat.le_self_pow (by omega) 2
  obtain ⟨d, rfl⟩ := Nat.exists_eq_add_of_le (m := 2 ^ 23) (n := w) (by nlinarith)
  refine pos_of_normalize (d := d) (by nlinarith) (by omega) (hpred.trans ?_)
  push_cast
  rw [add_sub_cancel_left]

theorem Counts.succ_pos (h : Counts k x) (hk : k ≤ 32) : 0 < x + 1 ∧ IsFinite (x + 1) := by
  obtain ⟨w, hlow, hhigh, -, hsucc⟩ := h.beside_one hk
  exact pos_of_normalize (d := w + 2 ^ 23) (by omega) (by omega) (by exact_mod_cast hsucc)

theorem Counts.twice_pos (h : Counts k x) (hk : k ≤ 32) :
    0 < Float32.ofNat 2 * x ∧ IsFinite (Float32.ofNat 2 * x) := by
  obtain ⟨m, e, hm, hp, hlow, hhigh, hle, hge⟩ := h
  have htotal : totalExponent (2 ^ 23 * m) (-22 + e) = e + 25 := by
    rw [totalExponent, Nat.mul_comm, log2_mul_pow hm, log2_full hlow hhigh]
    omega
  obtain ⟨m', e', hm', hround, hlow', hhigh', hle', hge'⟩ :=
    roundWithAccuracy_full .positive (m := 2 ^ 23 * m) (e := -22 + e) (by positivity)
      (by rw [htotal]; omega) (by rw [htotal]; omega) .exact
  rw [htotal] at hle' hge'
  have htwo : parts (Float32.ofNat 2) = .finite .positive (2 ^ 23) (-22) (by decide) := by
    rfl
  refine pos_of_parts (e := e') hm' ?_
  change (Float32.Model.pack (UnpackedFloat.mul Format.binary32 (parts (Float32.ofNat 2))
    (parts x))).unpack = _
  rw [htwo, hp, mul_positive, hround]
  exact unpack_pack_canonical .positive hm' ⟨hhigh', by omega, Or.inl hlow'⟩ (by omega)

theorem finite_of_le (h0 : 0 ≤ x) (hle : x ≤ y) (hy : IsFinite y) : IsFinite x := by
  have hfin := isFinite_iff.mp hy
  obtain ⟨-, -, hr⟩ := le_iff.mp hle
  refine isFinite_iff.mpr ?_
  cases hp : parts x with
  | zero | finite => rfl
  | notANumber => exact absurd hp (parts_ne (le_iff.mp h0).2.1)
  | infinity s =>
    have hs := nonneg_iff.mp h0
    rw [hp] at hs
    cases hs
    rw [hp] at hr
    exact absurd hr (rank_lt_top fun hi => by rw [hi] at hfin; cases hfin).not_ge

instance : Scalar.Lawful Float32 where
  le_number h := ⟨(le_iff.mp h).1, (le_iff.mp h).2.1⟩
  le_total ha hb := (le_total _ _).imp (fun h => le_iff.mpr ⟨ha, hb, h⟩)
    fun h => le_iff.mpr ⟨hb, ha, h⟩
  le_trans h h' := le_iff.mpr ⟨(le_iff.mp h).1, (le_iff.mp h').2.1,
    (le_iff.mp h).2.2.trans (le_iff.mp h').2.2⟩
  lt_iff := by
    intro a b
    refine ⟨fun h => ?_, fun ⟨h, hn⟩ => ?_⟩
    · obtain ⟨ha, hb, hr⟩ := lt_iff.mp h
      exact ⟨le_iff.mpr ⟨ha, hb, hr.le⟩, fun h' => (le_iff.mp h').2.2.not_gt hr⟩
    · obtain ⟨ha, hb, -⟩ := le_iff.mp h
      exact lt_iff.mpr ⟨ha, hb, lt_of_not_ge fun hr => hn (le_iff.mpr ⟨hb, ha, hr⟩)⟩
  beq_iff := by
    intro a b
    refine ⟨fun h => ?_, fun ⟨h, h'⟩ => ?_⟩
    · obtain ⟨ha, hb, hr⟩ := beq_iff.mp h
      exact ⟨le_iff.mpr ⟨ha, hb, hr.le⟩, le_iff.mpr ⟨hb, ha, hr.ge⟩⟩
    · obtain ⟨ha, hb, hr⟩ := le_iff.mp h
      exact beq_iff.mpr ⟨ha, hb, le_antisymm hr (le_iff.mp h').2.2⟩
  zero_finite := by decide +kernel
  neg_one_lt := by decide +kernel
  finite_number h := isNumber_iff.mpr (formed_of_ne fun hn => by
    have hf := isFinite_iff.mp h
    rw [hn] at hf
    cases hf)
  finite_of_le := finite_of_le
  add_number ha hb := (signed_add_sub (parts_ne ha) (isFinite_iff.mp hb)).1.elim
    fun _ => number_of_signed
  sub_number ha hb := (signed_add_sub (parts_ne ha) (isFinite_iff.mp hb)).2.elim
    fun _ => number_of_signed
  mul_number {a b} ha hb h0 := by
    obtain ⟨s, m, e, hm, hp⟩ := parts_of_nonzero hb h0
    obtain ⟨s', hs⟩ := (signed_mul_div (s := s) (parts_ne ha) e hm).1
    rw [← hp] at hs
    exact number_of_signed hs
  div_number {a b} ha hb h0 := by
    obtain ⟨s, m, e, hm, hp⟩ := parts_of_nonzero hb h0
    obtain ⟨s', hs⟩ := (signed_mul_div (s := s) (parts_ne ha) e hm).2
    rw [← hp] at hs
    exact number_of_signed hs
  add_nonneg ha hb := nonneg_iff.mpr (nonneg_pack (nonneg_add (nonneg_iff.mp ha)
    (nonneg_iff.mp hb)))
  sub_nonneg {a b} hle h := by
    obtain ⟨ha, hb, hr⟩ := le_iff.mp hle
    exact nonneg_iff.mpr (nonneg_pack (nonneg_sub (isNumber_iff.mp hb) (isNumber_iff.mp ha) hr
      (h.imp (fun hlt => (lt_iff.mp hlt).2.2) isFinite_iff.mp)))
  div_nonneg {a b} ha hb hf := by
    obtain ⟨s, m, e, hm, hp⟩ := parts_of_nonzero hf (by
      rw [Bool.eq_false_iff]
      exact fun he => ((beq_iff.mp he).2.2.symm ▸ (lt_iff.mp hb).2.2).ne rfl)
    have hs : s = .positive := by
      obtain ⟨-, -, hr⟩ := lt_iff.mp hb
      cases s with
      | positive => rfl
      | negative =>
        rw [hp] at hr
        exact absurd hr (rank_negative hm e).not_gt
    subst hs
    have hd := nonneg_div (nonneg_iff.mp ha) e hm
    rw [← hp] at hd
    exact nonneg_iff.mpr (nonneg_pack hd)
  count_pos hn h := (counts_ofNat hn h).pos
  count_pred_pos {n} hn h := by
    have hlog : 1 ≤ n.log2 := (Nat.le_log2 (by omega)).mpr hn
    exact (counts_ofNat (by omega) h).pred_pos hlog (log2_le (by omega) h)
  count_zero := by decide +kernel
  count_succ_pos {n} h := by
    rcases n.eq_zero_or_pos with rfl | hn
    · decide +kernel
    · exact ((counts_ofNat hn h).succ_pos (log2_le hn h)).1
  count_twice_pos hn h := ((counts_ofNat hn h).twice_pos (log2_le hn h)).1

end Flexbox.Binary32
