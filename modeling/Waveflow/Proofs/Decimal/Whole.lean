import Waveflow.Literal
import Waveflow.Proofs.Decimal.Bits
import Waveflow.Proofs.Decimal.Double
import Mathlib.Algebra.Ring.Nat

/-!
# Doubles that are whole numbers

`Exactly x n` says that the double is the whole number `n`, by its mantissa and exponent.  A double passes for a
32-bit counter exactly if it is a whole number below the limit, and then it is taken for that number
(`counter_iff`).
-/

namespace Waveflow.Decimal

open Float.Model (UnpackedFloat)
open Float.Model.UnpackedFloat

variable {x : Float} {n m : Nat} {e : Int} {s : Sign} {hm : 0 < m}

/-- The double is the whole number: `mantissa * 2 ^ exponent = n`, where a negative power stands on the right. -/
def Exactly (x : Float) (n : Nat) : Prop :=
  match parsed x with
  | .zero _ => n = 0
  | .finite .positive m e _ => m * 2 ^ e.toNat = n * 2 ^ (-e).toNat
  | _ => False

/-! ### Mantissa and exponent -/

lemma toNat_unpackMantissa :
    (@unpackMantissa .binary64 x.toModel.toBits.toBitVec).toNat = x.toBits.toNat % 0x10000000000000 := by
  show (x.toModel.toBits.toBitVec.extractLsb 51 0).toNat = _
  rw [BitVec.extractLsb_toNat]
  rfl

lemma toNat_unpackExponent :
    (@unpackExponent .binary64 x.toModel.toBits.toBitVec).toNat = (x.toBits.toNat >>> 52) % 2048 := by
  show (x.toModel.toBits.toBitVec.extractLsb 62 52).toNat = _
  rw [BitVec.extractLsb_toNat]
  rfl

/-- The magnitude of a double that is neither zero nor special is read as it is unpacked. -/
lemma ofBits_of_finite (h : parsed x = .finite s m e hm) :
    (Dyadic.ofBits x.toBits).mantissa = m ∧ (Dyadic.ofBits x.toBits).exponent = e := by
  change unpack .binary64 x.toModel.toBits.toBitVec = _ at h
  unfold unpack at h
  dsimp only at h
  unfold Dyadic.ofBits
  dsimp only
  by_cases hones : @unpackExponent .binary64 x.toModel.toBits.toBitVec = -1#11
  · rw [if_pos hones] at h
    by_cases hnone : @unpackMantissa .binary64 x.toModel.toBits.toBitVec = 0#52
    · rw [if_pos hnone] at h
      cases h
    · rw [if_neg hnone] at h
      cases h
  rw [if_neg hones] at h
  by_cases hzero : @unpackExponent .binary64 x.toModel.toBits.toBitVec = 0#11
  · rw [if_pos hzero] at h
    by_cases hnone : @unpackMantissa .binary64 x.toModel.toBits.toBitVec = 0#52
    · rw [dif_pos hnone] at h
      cases h
    rw [dif_neg hnone] at h
    injection h with _ hmant hexp
    have hfield : (x.toBits.toNat >>> 52) % 2048 = 0 := by
      rw [← toNat_unpackExponent, hzero]
      rfl
    rw [if_pos hfield, ← toNat_unpackMantissa]
    rw [hzero] at hexp
    exact ⟨hmant, hexp⟩
  · rw [if_neg hzero] at h
    injection h with _ hmant hexp
    have hfield : (x.toBits.toNat >>> 52) % 2048 ≠ 0 := by
      rw [← toNat_unpackExponent]
      exact fun hz => hzero (BitVec.eq_of_toNat_eq hz)
    rw [toNat_one_append, toNat_unpackMantissa] at hmant
    rw [toNat_unpackExponent] at hexp
    rw [if_neg hfield]
    exact ⟨hmant, hexp⟩

lemma ofBits_of_zero (h : parsed x = .zero s) : (Dyadic.ofBits x.toBits).mantissa = 0 := by
  change unpack .binary64 x.toModel.toBits.toBitVec = _ at h
  obtain ⟨-, -, hread⟩ | ⟨-, -, hread⟩ | ⟨hexp, hmant, -⟩ | ⟨_, _, _, hread, -⟩ :=
    unpack_cases x.toModel.toBits.toBitVec
  · cases hread.symm.trans h
  · cases hread.symm.trans h
  · have hfield : (x.toBits.toNat >>> 52) % 2048 = 0 := by
      rw [← toNat_unpackExponent, hexp]
      rfl
    unfold Dyadic.ofBits
    dsimp only
    rw [if_pos hfield, ← toNat_unpackMantissa, hmant]
    rfl
  · cases hread.symm.trans h

/-- Only the smallest doubles have fewer than 53 bits. -/
lemma mantissa_ge (h : parsed x = .finite s m e hm) : 0x10000000000000 ≤ m ∨ e = -1074 := by
  obtain ⟨hmant, hexp⟩ := ofBits_of_finite h
  unfold Dyadic.ofBits at hmant hexp
  dsimp only at hmant hexp
  split at hmant
  · next hfield =>
    rw [if_pos hfield] at hexp
    exact .inr hexp.symm
  · rw [← hmant]
    exact .inl (Nat.le_add_right ..)

/-! ### What is tested of a double -/

lemma isWhole_of_finite (h : parsed x = .finite s m e hm) :
    isWhole x = true ↔ 0 ≤ e ∨ m % 2 ^ (-e).toNat = 0 := by
  obtain ⟨hmant, hexp⟩ := ofBits_of_finite h
  have hfinite : x.isFinite = true := by
    rw [isFinite_eq_parsed, h]
    rfl
  unfold isWhole Dyadic.isWhole
  rw [hmant, hexp, hfinite, Nat.one_shiftLeft]
  simp

lemma isWhole_of_zero (h : parsed x = .zero s) : isWhole x = true := by
  have hfinite : x.isFinite = true := by
    rw [isFinite_eq_parsed, h]
    rfl
  unfold isWhole Dyadic.isWhole
  rw [ofBits_of_zero h, hfinite]
  simp

lemma parsed_wordMax : parsed Literal.wordMax = .finite .positive 9007199252643840 (-21) (by decide) := rfl

lemma le_wordMax_iff (h : parsed x = .finite .positive m e hm) :
    x ≤ Literal.wordMax ↔ e < -21 ∨ e = -21 ∧ m ≤ 9007199252643840 := by
  rw [le_iff_parsed, h, parsed_wordMax]
  show ((compare e (-21)).then (compare m 9007199252643840)).isLE = true ↔ _
  rw [Ordering.isLE_then_iff_or, Int.compare_eq_lt, Int.compare_eq_eq, Nat.isLE_compare]

lemma toUInt64_of_finite (h : parsed x = .finite .positive m e hm) (he : e ≤ 0) :
    x.toUInt64.toNat = m / 2 ^ (-e).toNat := by
  have hround : roundToInt .positive m e = (m / 2 ^ (-e).toNat : Nat) := by
    unfold roundToInt decreaseExponent shiftToExponent
    dsimp only
    have hzero : (e - 0).toNat = 0 := by omega
    rw [hzero, Nat.shiftLeft_zero]
    show ((ExtendedMantissa.ofMantissaAndAccuracy m .exact >>> (0 - (e - (0 : Nat))).toNat).mantissa : Int) = _
    rw [mantissa_shiftRight, mantissa_ofMantissaAndAccuracy, Nat.shiftRight_eq_div_pow]
    congr 3
    omega
  have hlt : m / 2 ^ (-e).toNat < UInt64.size := by
    have := mantissa_lt h
    exact Nat.lt_of_le_of_lt (Nat.div_le_self ..) (Nat.lt_trans this (by decide))
  show (UInt64.ofNatClamp ((parsed x).toInt 0 (UInt64.size - 1)).toNat).toNat = _
  rw [h]
  show (UInt64.ofNatClamp (roundToInt .positive m e).toNat).toNat = _
  rw [hround, Int.toNat_natCast]
  unfold UInt64.ofNatClamp
  rw [dif_pos hlt]
  rfl

/-! ### Counters -/

/-- The arithmetic of a finite positive double: where it is whole and not too large, its power of two is negative. -/
lemma counter_of_finite (h : parsed x = .finite .positive m e hm) :
    ((0 ≤ e ∨ m % 2 ^ (-e).toNat = 0) ∧ (e < -21 ∨ e = -21 ∧ m ≤ 9007199252643840) ∧
      x.toUInt64.toNat = n) ↔
      m * 2 ^ e.toNat = n * 2 ^ (-e).toNat ∧ n < wordLimit := by
  have hlt := mantissa_lt h
  constructor
  · rintro ⟨hwhole, hmax, rfl⟩
    have hneg : e ≤ -21 := by omega
    have hdvd : m % 2 ^ (-e).toNat = 0 := hwhole.resolve_left (by omega)
    have hpow : e.toNat = 0 := by omega
    rw [toUInt64_of_finite h (by omega), hpow, Nat.pow_zero, Nat.mul_one,
      Nat.div_mul_cancel (Nat.dvd_of_mod_eq_zero hdvd)]
    refine ⟨rfl, ?_⟩
    rw [Nat.div_lt_iff_lt_mul (Nat.two_pow_pos _)]
    calc m < wordLimit * 2 ^ 21 := hlt
      _ ≤ wordLimit * 2 ^ (-e).toNat :=
        Nat.mul_le_mul_left _ (Nat.pow_le_pow_right (by decide) (by omega))
  · rintro ⟨heq, hn⟩
    have hneg : e ≤ -21 := by
      -- with a larger power the mantissa has all its bits, and the number is too large
      refine Int.not_lt.1 fun hlarge => ?_
      have hfull : 0x10000000000000 ≤ m := (mantissa_ge h).resolve_right (by omega)
      have hle : m ≤ n * 2 ^ 20 := by
        calc m ≤ m * 2 ^ e.toNat := Nat.le_mul_of_pos_right m (Nat.two_pow_pos _)
          _ = n * 2 ^ (-e).toNat := heq
          _ ≤ n * 2 ^ 20 := Nat.mul_le_mul_left _ (Nat.pow_le_pow_right (by decide) (by omega))
      unfold wordLimit at hn
      omega
    have hpow : e.toNat = 0 := by omega
    rw [hpow, Nat.pow_zero, Nat.mul_one] at heq
    refine ⟨.inr ?_, ?_, ?_⟩
    · rw [heq]
      exact Nat.mul_mod_left ..
    · rcases Int.lt_or_eq_of_le hneg with hlt' | rfl
      · exact .inl hlt'
      · refine .inr ⟨rfl, ?_⟩
        unfold wordLimit at hn
        have heq' : m = n * 2 ^ 21 := heq
        omega
    · rw [toUInt64_of_finite h (by omega), heq]
      exact Nat.mul_div_cancel _ (Nat.two_pow_pos _)

/-- **A double passes for a counter exactly if it is a whole number below the limit.** -/
theorem counter_iff :
    (0.0 ≤ x && isWhole x && x ≤ Literal.wordMax) = true ∧ x.toUInt64.toNat = n ↔
    Exactly x n ∧ n < wordLimit := by
  rw [Bool.and_eq_true, Bool.and_eq_true, decide_eq_true_eq, decide_eq_true_eq]
  unfold Exactly
  cases h : parsed x with
  | notANumber =>
    have hle : ¬ (0.0 : Float) ≤ x := by
      rw [le_iff_parsed, h]
      exact Bool.false_ne_true
    simp [hle]
  | infinity s =>
    have hwhole : isWhole x = false := by
      unfold isWhole
      rw [isFinite_eq_parsed, h]
      rfl
    simp [hwhole]
  | zero s =>
    have hle : (0.0 : Float) ≤ x := by
      rw [le_iff_parsed, h]
      rfl
    have hmax : x ≤ Literal.wordMax := by
      rw [le_iff_parsed, h, parsed_wordMax]
      rfl
    have hvalue : x.toUInt64.toNat = 0 := by
      show (UInt64.ofNatClamp ((parsed x).toInt 0 (UInt64.size - 1)).toNat).toNat = 0
      rw [h]
      rfl
    simp only [hle, hmax, isWhole_of_zero h, hvalue, true_and]
    constructor
    · rintro rfl
      exact ⟨rfl, by decide⟩
    · rintro ⟨rfl, -⟩
      rfl
  | finite s m e hm =>
    cases s with
    | negative =>
      have hle : ¬ (0.0 : Float) ≤ x := by
        rw [le_iff_parsed, h]
        exact Bool.false_ne_true
      simp [hle]
    | positive =>
      have hle : (0.0 : Float) ≤ x := by
        rw [le_iff_parsed, h]
        rfl
      have hiff := counter_of_finite (n := n) h
      rw [← isWhole_of_finite h, ← le_wordMax_iff h] at hiff
      simp only [hle, true_and, and_assoc]
      exact hiff

end Waveflow.Decimal
