import Waveflow.Double
import Mathlib.Tactic.Lemma

/-!
# The bits of doubles

Bits are unpacked into a sign, an exponent and a mantissa, and what has been unpacked is packed into the same bits
again, unless it is not a number: all bits of such a value are unpacked alike, and packed into those that a `Float`
has (`pack_unpack`).  So a value is the value of its own bits (`Double.value_ofFloat`), and a double has the bits of its
value if that is a number (`Double.ofFloat_value`).
-/

namespace Waveflow

namespace Decimal

open Float.Model (Format)
open Float.Model.UnpackedFloat

variable {b : BitVec 64} {s : Sign} {m : Nat}

lemma toBitVec_ofBitVec (v : BitVec 1) : (Sign.ofBitVec v).toBitVec = v := by
  revert v
  decide

/-- The leading bit of a mantissa. -/
lemma toNat_one_append (v : BitVec 52) : (1#1 ++ v).toNat = 0x10000000000000 + v.toNat := by
  rw [BitVec.toNat_append]
  show 1 <<< 52 ||| v.toNat = _
  rw [← Nat.shiftLeft_add_eq_or_of_lt v.isLt]
  rfl

/-- Bits are put together from their parts. -/
lemma packComponents_unpack (b : BitVec 64) : packComponents .binary64 (Sign.ofBitVec (@unpackSign .binary64 b))
    (@unpackExponent .binary64 b) (@unpackMantissa .binary64 b) = b := by
  unfold packComponents unpackSign unpackExponent unpackMantissa
  rw [toBitVec_ofBitVec]
  have hhigh : b.extractLsb' 63 1 ++ b.extractLsb' 52 11 = b.extractLsb' 52 12 :=
    BitVec.extractLsb'_append_extractLsb'_eq_extractLsb' (by decide)
  have hall : b.extractLsb' 52 12 ++ b.extractLsb' 0 52 = b.extractLsb' 0 64 :=
    BitVec.extractLsb'_append_extractLsb'_eq_extractLsb' (by decide)
  show b.extractLsb' 63 1 ++ b.extractLsb' 52 11 ++ b.extractLsb' 0 52 = b
  rw [hhigh]
  exact hall.trans BitVec.extractLsb'_eq_self

lemma packComponents_of_parts {exponent : BitVec 11} {mantissa : BitVec 52}
    (he : @unpackExponent .binary64 b = exponent) (hm : @unpackMantissa .binary64 b = mantissa) :
    packComponents .binary64 (Sign.ofBitVec (@unpackSign .binary64 b)) exponent mantissa = b := by
  subst he hm
  exact packComponents_unpack b

/-- A mantissa without a leading bit is packed under the exponent zero. -/
lemma pack_subnormal {e : Int} (hm : 0 < m) (hlt : m < 0x10000000000000) (he : e = -1074) :
    pack .binary64 (.finite s m e hm) = packComponents .binary64 s (0#11) (BitVec.ofNat 52 m) := by
  subst he
  have hlog : m.log2 < 52 := (Nat.log2_lt (Nat.ne_of_gt hm)).2 hlt
  have hbits : Format.binary64.mantissaBits = 53 := rfl
  unfold pack
  dsimp only
  rw [if_neg (by decide), if_neg (by omega)]

/-- A mantissa with its leading bit is packed without it, under its own exponent. -/
lemma pack_normal (hm : 0 < m) (hlow : 0x10000000000000 ≤ m) (hhigh : m < 0x20000000000000) {e : Nat}
    (he : e + 1 < 0x800) : pack .binary64 (.finite s m (e - 1075) hm) =
      packComponents .binary64 s (BitVec.ofNat 11 e) (BitVec.ofNat 52 m) := by
  have hlog : m.log2 = 52 := (Nat.log2_eq_iff (Nat.ne_of_gt hm)).2 ⟨hlow, hhigh⟩
  have hbits : Format.binary64.mantissaBits = 53 := rfl
  have hsize : 2 ^ Format.binary64.exponentBits = 0x800 := rfl
  have hbiased : ((e : Int) - 1075 + Format.binary64.exponentBias +
      Format.binary64.mantissaBitsWithoutImplicit).toNat = e := by
    show ((e : Int) - 1075 + (1023 : Nat) + (52 : Nat)).toNat = e
    omega
  unfold pack
  dsimp only
  rw [hbiased, if_neg (by omega), if_pos (by omega)]

/-- **What has been unpacked is packed into the same bits**, if all bits that stand for no number are the usual ones. -/
theorem pack_unpack (h : Format.binary64.Valid b) : pack .binary64 (unpack .binary64 b) = b := by
  have hmant : (@unpackMantissa .binary64 b).toNat < 0x10000000000000 := BitVec.isLt _
  unfold unpack
  dsimp only
  by_cases hones : @unpackExponent .binary64 b = -1#11
  · by_cases hzero : @unpackMantissa .binary64 b = 0#52
    · rw [if_pos hones, if_pos hzero]
      exact packComponents_of_parts hones hzero
    · rw [if_pos hones, if_neg hzero]
      exact (h.eq_packedNaN hones hzero).symm
  by_cases hsub : @unpackExponent .binary64 b = 0#11
  · by_cases hzero : @unpackMantissa .binary64 b = 0#52
    · rw [if_neg hones, if_pos hsub, dif_pos hzero]
      exact packComponents_of_parts hsub hzero
    · have hpos : 0 < (@unpackMantissa .binary64 b).toNat :=
        Nat.pos_of_ne_zero fun heq => hzero (BitVec.eq_of_toNat_eq heq)
      have hexp : ((@unpackExponent .binary64 b).toNat : Int) - ((1023 : Nat) + (52 : Nat)) + 1 = -1074 := by
        rw [hsub]
        decide
      have hpack := pack_subnormal (s := Sign.ofBitVec (@unpackSign .binary64 b)) hpos hmant hexp
      rw [BitVec.ofNat_toNat, BitVec.setWidth_eq] at hpack
      rw [if_neg hones, if_pos hsub, dif_neg hzero]
      exact hpack.trans (packComponents_of_parts hsub rfl)
  · have hsum := toNat_one_append (@unpackMantissa .binary64 b)
    have hexp : (@unpackExponent .binary64 b).toNat + 1 < 0x800 := by
      have hlt : (@unpackExponent .binary64 b).toNat < 0x800 := BitVec.isLt _
      have hne : (@unpackExponent .binary64 b).toNat ≠ 0x7ff := fun heq => hones (BitVec.eq_of_toNat_eq heq)
      omega
    have hpack := pack_normal (s := Sign.ofBitVec (@unpackSign .binary64 b)) (by omega) (Nat.le.intro hsum.symm)
      (by omega) hexp
    have hrest : BitVec.ofNat 52 (1#1 ++ @unpackMantissa .binary64 b).toNat = @unpackMantissa .binary64 b := by
      rw [hsum]
      refine BitVec.eq_of_toNat_eq ?_
      rw [BitVec.toNat_ofNat]
      omega
    rw [BitVec.ofNat_toNat, BitVec.setWidth_eq, hrest] at hpack
    rw [if_neg hones, if_neg hsub]
    exact hpack.trans (packComponents_unpack b)

/-- Bits that stand for a number are the usual ones. -/
lemma valid_of_isNaN (h : (unpack .binary64 b).isNaN = false) : Format.binary64.Valid b where
  eq_packedNaN hones hmant := by
    have hread : unpack .binary64 b = .notANumber := by
      unfold unpack
      dsimp only
      rw [if_pos hones, if_neg hmant]
    rw [hread] at h
    cases h

end Decimal

namespace Double

open Decimal

/-- A value is the value of its own bits. -/
@[simp] theorem value_ofFloat (x : Float) : (ofFloat x).value = x := by
  obtain ⟨bits, hvalid⟩ := x
  have hbits : UInt64.ofBitVec (Float.Model.UnpackedFloat.pack .binary64
      (Float.Model.UnpackedFloat.unpack .binary64 bits.toBitVec)) = bits :=
        congrArg UInt64.ofBitVec (pack_unpack hvalid)
  exact congrArg Float.ofModel ((Float.Model.mk.injEq ..).mpr hbits)

/-- A double has the bits of its value if that is a number. -/
theorem ofFloat_value {d : Double} (h : d.value.isNaN = false) : ofFloat d.value = d := by
  obtain ⟨bits⟩ := d
  have hnumber : (Float.Model.UnpackedFloat.unpack .binary64 bits.toBitVec).isNaN = false := by
    cases hread : Float.Model.UnpackedFloat.unpack .binary64 bits.toBitVec with
    | notANumber =>
      have hmodel : Float.ofBits bits = .ofModel (Float.Model.pack .notANumber) :=
        congrArg (fun u => Float.ofModel (Float.Model.pack u)) hread
      rw [value, hmodel] at h
      cases h
    | infinity _ | zero _ | finite _ _ _ _ => rfl
  exact congrArg (fun v => Double.mk (UInt64.ofBitVec v)) (pack_unpack (valid_of_isNaN hnumber))

end Double

end Waveflow
