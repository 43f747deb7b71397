import Waveflow.Pass.Thermal
import Mathlib.Tactic.Lemma

/-!
# Facts about doubles

A double that is a number is equal to itself, equality is transitive, and the negation of a number is one
(`beq_self`, `beq_trans`, `isNaN_neg`).

The ratio of a double to a smaller positive one does not round to zero, so its ceiling is at least one:
a node above the ceiling is never divided into no parts (`ThermalPass.one_le_parts`).  The argument
follows the rounding of the quotient: it drops bits, but never the leading one, because the exponent of
the quotient is not below the least exponent of a double.
-/

namespace Waveflow.Decimal

open Float.Model (UnpackedFloat totalExponent)
open Float.Model.UnpackedFloat

/-! ### Unpacked doubles -/

/-- A double by its sign, mantissa and exponent. -/
def parsed (x : Float) : UnpackedFloat := x.toModel.unpack

lemma parsed_zero : parsed 0.0 = .zero .positive := rfl

lemma le_iff_parsed {x y : Float} : x ≤ y ↔ (parsed x).le (parsed y) = true := by
  show decide ((parsed x).le (parsed y) = true) = true ↔ _
  exact decide_eq_true_iff

lemma lt_iff_parsed {x y : Float} : x < y ↔ (parsed x).lt (parsed y) = true := by
  show decide ((parsed x).lt (parsed y) = true) = true ↔ _
  exact decide_eq_true_iff

/-- What is not below zero is not negative. -/
lemma not_lt_zero_of_le {x : Float} (h : 0.0 ≤ x) : ¬ x < 0.0 := by
  rw [le_iff_parsed, parsed_zero] at h
  rw [lt_iff_parsed, parsed_zero]
  cases hx : parsed x with
  | notANumber =>
    rw [hx] at h
    cases h
  | zero s => cases s <;> decide
  | infinity s =>
    rw [hx] at h
    cases s with
    | positive => decide
    | negative => cases h
  | finite s m e hm =>
    rw [hx] at h
    cases s with
    | positive => exact fun hlt => by cases hlt
    | negative => cases h

lemma isFinite_eq_parsed (x : Float) : x.isFinite = (parsed x).isFinite := rfl

lemma isNaN_eq_parsed (x : Float) : x.isNaN = (parsed x).isNaN := rfl

lemma isNaN_of_isFinite {x : Float} (h : x.isFinite = true) : x.isNaN = false := by
  rw [isFinite_eq_parsed] at h
  rw [isNaN_eq_parsed]
  cases hx : parsed x with
  | notANumber =>
    rw [hx] at h
    cases h
  | infinity _ | zero _ | finite _ _ _ _ => rfl

/-- What bits are read as: the exponent and the mantissa tell the special values, and the mantissa of the others
has at most 53 bits. -/
lemma unpack_cases (b : BitVec 64) :
    (@unpackExponent .binary64 b = -1#11 ∧ @unpackMantissa .binary64 b = 0#52 ∧
      unpack .binary64 b = .infinity (Sign.ofBitVec (@unpackSign .binary64 b))) ∨
    (@unpackExponent .binary64 b = -1#11 ∧ @unpackMantissa .binary64 b ≠ 0#52 ∧
      unpack .binary64 b = .notANumber) ∨
    (@unpackExponent .binary64 b = 0#11 ∧ @unpackMantissa .binary64 b = 0#52 ∧
      unpack .binary64 b = .zero (Sign.ofBitVec (@unpackSign .binary64 b))) ∨
    ∃ m e hm, unpack .binary64 b = .finite (Sign.ofBitVec (@unpackSign .binary64 b)) m e hm ∧
      m < 0x20000000000000 := by
  unfold unpack
  dsimp only
  by_cases hones : @unpackExponent .binary64 b = -1#11
  · by_cases hmant : @unpackMantissa .binary64 b = 0#52
    · exact .inl ⟨hones, hmant, by rw [if_pos hones, if_pos hmant]⟩
    · exact .inr (.inl ⟨hones, hmant, by rw [if_pos hones, if_neg hmant]⟩)
  · rw [if_neg hones]
    by_cases hsub : @unpackExponent .binary64 b = 0#11
    · by_cases hmant : @unpackMantissa .binary64 b = 0#52
      · exact .inr (.inr (.inl ⟨hsub, hmant, by rw [if_pos hsub, dif_pos hmant]⟩))
      · have hpos : 0 < (@unpackMantissa .binary64 b).toNat :=
          Nat.pos_of_ne_zero fun hzero => hmant (BitVec.eq_of_toNat_eq hzero)
        rw [if_pos hsub, dif_neg hmant]
        exact .inr (.inr (.inr ⟨_, _, hpos, rfl, Nat.lt_trans (BitVec.isLt _) (by decide)⟩))
    · have hpos : 0 < (1#1 ++ @unpackMantissa .binary64 b).toNat := by
        rw [BitVec.toNat_append]
        exact Nat.lt_of_lt_of_le (by decide) Nat.left_le_or
      rw [if_neg hsub]
      exact .inr (.inr (.inr ⟨_, _, hpos, rfl, BitVec.isLt _⟩))

lemma mantissa_lt {x : Float} {s : Sign} {m : Nat} {e : Int} {hm : 0 < m} (h : parsed x = .finite s m e hm) :
    m < 0x20000000000000 := by
  change unpack .binary64 x.toModel.toBits.toBitVec = _ at h
  obtain ⟨-, -, hread⟩ | ⟨-, -, hread⟩ | ⟨-, -, hread⟩ | ⟨_, _, _, hread, hlt⟩ :=
    unpack_cases x.toModel.toBits.toBitVec
  · cases hread.symm.trans h
  · cases hread.symm.trans h
  · cases hread.symm.trans h
  · cases hread.symm.trans h
    exact hlt

/-! ### Numbers -/

lemma compare_self {u : UnpackedFloat} (h : u.isNaN = false) : u.compare u = some .eq := by
  cases u with
  | infinity s => cases s <;> rfl
  | notANumber => cases h
  | zero s => rfl
  | finite s m e hm =>
    have heq : (compare e e).then (compare m m) = .eq := by simp [Std.ReflCmp.compare_self]
    cases s with
    | negative => exact congrArg (fun o : Ordering => some o.swap) heq
    | positive => exact congrArg some heq

/-- A number is equal to itself. -/
theorem beq_self {x : Float} (h : x.isNaN = false) : (x == x) = true := by
  have hcompare : (parsed x).compare (parsed x) = some .eq := compare_self h
  show ((parsed x).compare (parsed x) == some .eq) = true
  rw [hcompare]
  rfl

lemma eq_of_compare_sign {s t : Sign} (h : compare s t = .eq) : s = t := by
  cases s with
  | negative => cases t with
    | negative => rfl
    | positive => cases h
  | positive => cases t with
    | negative => cases h
    | positive => rfl

lemma eq_of_compare_magnitude {m m' : Nat} {e e' : Int} (h : (compare e e').then (compare m m') = .eq) :
    e = e' ∧ m = m' := by
  obtain ⟨he, hm⟩ := Ordering.then_eq_eq.1 h
  exact ⟨Std.LawfulEqCmp.eq_of_compare he, Std.LawfulEqCmp.eq_of_compare hm⟩

/-- Equal doubles are both zero, or they are the same. -/
lemma eq_of_compare {u v : UnpackedFloat} (h : u.compare v = some .eq) :
    u = v ∨ ∃ s t, u = .zero s ∧ v = .zero t := by
  match u, v, h with
  | .zero s, .zero t, _ => exact .inr ⟨s, t, rfl, rfl⟩
  | .infinity s, .infinity t, h => exact .inl (congrArg _ (eq_of_compare_sign (Option.some.inj h)))
  | .finite .positive m e _, .finite .positive m' e' _, h =>
    obtain ⟨rfl, rfl⟩ := eq_of_compare_magnitude (Option.some.inj h)
    exact .inl rfl
  | .finite .negative m e _, .finite .negative m' e' _, h =>
    obtain ⟨rfl, rfl⟩ := eq_of_compare_magnitude (Ordering.swap_eq_eq.1 (Option.some.inj h))
    exact .inl rfl
  | .infinity .positive, .zero _, h | .infinity .negative, .zero _, h | .infinity .positive, .finite .., h
  | .infinity .negative, .finite .., h | .zero _, .infinity .positive, h | .zero _, .infinity .negative, h
  | .finite .., .infinity .positive, h | .finite .., .infinity .negative, h | .zero _, .finite .positive .., h
  | .zero _, .finite .negative .., h | .finite .positive .., .zero _, h | .finite .negative .., .zero _, h => cases h

lemma beq_iff_compare {x y : Float} : (x == y) = true ↔ (parsed x).compare (parsed y) = some .eq := by
  show ((parsed x).compare (parsed y) == some .eq) = true ↔ _
  exact beq_iff_eq

/-- Equality of doubles is transitive. -/
theorem beq_trans {x y z : Float} (h : (x == y) = true) (h' : (y == z) = true) : (x == z) = true := by
  rw [beq_iff_compare] at h h' ⊢
  rcases eq_of_compare h with hxy | ⟨s, t, hx, hy⟩
  · rw [hxy]
    exact h'
  · rcases eq_of_compare h' with hyz | ⟨_, _, -, hz⟩
    · rw [← hyz]
      exact h
    · rw [hx, hz]
      rfl

lemma isNaN_packComponents {s : Sign} {exponent : BitVec 11} {mantissa : BitVec 52}
    (h : exponent = -1#11 → mantissa = 0#52) :
    (unpack .binary64 (packComponents .binary64 s exponent mantissa)).isNaN = false := by
  obtain ⟨-, -, hread⟩ | ⟨hexp, hmant, -⟩ | ⟨-, -, hread⟩ | ⟨_, _, _, hread, -⟩ :=
    unpack_cases (packComponents .binary64 s exponent mantissa)
  · rw [hread]
    rfl
  · rw [unpackExponent_packComponents] at hexp
    rw [unpackMantissa_packComponents] at hmant
    exact absurd (h hexp) hmant
  · rw [hread]
    rfl
  · rw [hread]
    rfl

/-- What is packed from a number is one. -/
lemma isNaN_pack {u : UnpackedFloat} (h : u.isNaN = false) : (unpack .binary64 (pack .binary64 u)).isNaN = false := by
  fun_cases pack .binary64 u with
  | case1 => cases h
  | case2 s => exact isNaN_packComponents fun _ => rfl
  | case3 s => exact isNaN_packComponents fun _ => rfl
  | case4 s m e hm biased hbig => exact isNaN_packComponents fun _ => rfl
  | case5 s m e hm bits biased hbig hnormal =>
    refine isNaN_packComponents fun hexp => ?_
    have hones : (-1#(Float.Model.Format.binary64.exponentBits)).toNat = 2047 := rfl
    have hsize : 2 ^ Float.Model.Format.binary64.exponentBits = 2048 := rfl
    have hval := congrArg BitVec.toNat hexp
    rw [BitVec.toNat_ofNat, hones, hsize] at hval
    rw [hsize] at hbig
    omega
  | case6 s m e hm bits biased hbig hsub =>
    refine isNaN_packComponents fun hexp => ?_
    cases hexp

/-- The negation of a number is a number. -/
theorem isNaN_neg {x : Float} (h : x.isNaN = false) : (-x).isNaN = false := by
  show (unpack .binary64 (pack .binary64 (parsed x).neg)).isNaN = false
  refine isNaN_pack ?_
  rw [isNaN_eq_parsed] at h
  cases hx : parsed x with
  | notANumber =>
    rw [hx] at h
    cases h
  | infinity s => rfl
  | zero s => rfl
  | finite s m e hm => rfl

/-! ### Rounding keeps the leading bit -/

lemma mantissa_shiftRight (em : ExtendedMantissa) (k : Nat) : (em >>> k).mantissa = em.mantissa >>> k := by
  show (Nat.repeat ExtendedMantissa.shiftRightOne k em).mantissa = _
  induction k with
  | zero => simp [Nat.repeat]
  | succ k ih =>
    show (Nat.repeat ExtendedMantissa.shiftRightOne k em).mantissa / 2 = _
    rw [ih, Nat.shiftRight_succ]

lemma mantissa_ofMantissaAndAccuracy (m : Nat) (acc : Accuracy) :
    (ExtendedMantissa.ofMantissaAndAccuracy m acc).mantissa = m := by
  unfold ExtendedMantissa.ofMantissaAndAccuracy
  split <;> rfl

lemma mantissa_le_rounded (em : ExtendedMantissa) : em.mantissa ≤ em.roundedMantissa := by
  unfold ExtendedMantissa.roundedMantissa Accuracy.roundToNearestEven
  split <;> omega

/-- Shifting a mantissa into 53 bits keeps its leading bit and does not lower the exponent. -/
lemma shiftToTargetExponent_spec {m : Nat} {e : Int} (hm : 0 < m) (he : -1074 ≤ e) (acc : Accuracy) :
    0 < (shiftToTargetExponent .binary64 m e acc).1.mantissa ∧
      (shiftToTargetExponent .binary64 m e acc).1.mantissa < 0x20000000000000 ∧
      -1074 ≤ (shiftToTargetExponent .binary64 m e acc).2 := by
  have hlow : 2 ^ m.log2 ≤ m := Nat.log2_self_le (Nat.ne_of_gt hm)
  have hhigh : m < 2 ^ (m.log2 + 1) := Nat.lt_log2_self
  unfold shiftToTargetExponent shiftToExponent
  dsimp only
  rw [mantissa_shiftRight, mantissa_ofMantissaAndAccuracy, Nat.shiftRight_eq_div_pow]
  generalize hs : (Float.Model.Format.binary64.targetExponent (totalExponent m e) - e).toNat = s
  have hbounds : s ≤ m.log2 ∧ m.log2 + 1 ≤ s + 53 := by
    have hbits : (Float.Model.Format.binary64.mantissaBits : Int) = 53 := rfl
    have hmin : Float.Model.Format.binary64.minExponent = -1074 := rfl
    unfold Float.Model.Format.targetExponent totalExponent at hs
    rw [hbits, hmin] at hs
    omega
  refine ⟨?_, ?_, by omega⟩
  · refine Nat.div_pos (Nat.le_trans ?_ hlow) (Nat.two_pow_pos s)
    exact Nat.pow_le_pow_right (by decide) hbounds.1
  · show _ < 2 ^ 53
    rw [Nat.div_lt_iff_lt_mul (Nat.two_pow_pos s), ← Nat.pow_add]
    refine Nat.lt_of_lt_of_le hhigh (Nat.pow_le_pow_right (by decide) ?_)
    omega

/-- A number whose exponent is in range does not round to zero. -/
lemma roundWithAccuracy_spec (s : Sign) {m : Nat} {e : Int} (hm : 0 < m) (he : -1074 ≤ e) (acc : Accuracy) :
    ∃ m' e' hm', roundWithAccuracy .binary64 s m e acc = .finite s m' e' hm' ∧ m' < 0x20000000000000 ∧
      -1074 ≤ e' := by
  obtain ⟨hpos, -, hexp⟩ := shiftToTargetExponent_spec hm he acc
  have hround := Nat.lt_of_lt_of_le hpos (mantissa_le_rounded _)
  obtain ⟨hpos', hlt', hexp'⟩ := shiftToTargetExponent_spec hround hexp .exact
  unfold roundWithAccuracy
  dsimp only
  rw [dif_neg (Nat.ne_of_gt hpos')]
  exact ⟨_, _, hpos', rfl, hlt', hexp'⟩

/-! ### The quotient -/

/-- The quotient of two mantissas has a leading bit, and an exponent in range, if the exponent of the
first is not smaller. -/
lemma divCore_spec {m₁ m₂ : Nat} {e₁ e₂ : Int} (h₁ : 0 < m₁) (h₂ : 0 < m₂)
    (hlt : m₂ < 0x20000000000000) (he : e₂ ≤ e₁) :
    0 < (divCore .binary64 m₁ e₁ m₂ e₂).1 ∧ -1074 ≤ (divCore .binary64 m₁ e₁ m₂ e₂).2.1 := by
  have hlow : 2 ^ m₁.log2 ≤ m₁ := Nat.log2_self_le (Nat.ne_of_gt h₁)
  have hhigh : m₂ < 2 ^ (m₂.log2 + 1) := Nat.lt_log2_self
  have hbits₂ : m₂.log2 < 53 := (Nat.log2_lt (Nat.ne_of_gt h₂)).2 hlt
  unfold divCore
  dsimp only
  have hbits : (Float.Model.Format.binary64.mantissaBits : Int) = 53 := rfl
  have hmin : Float.Model.Format.binary64.minExponent = -1074 := rfl
  unfold Float.Model.Format.targetExponent totalExponent
  rw [hbits, hmin]
  generalize ht : min (e₁ - e₂) _ = t
  generalize hs : (e₁ - e₂ - t).toNat = s
  have hshift : m₂.log2 + 1 ≤ m₁.log2 + s := by omega
  refine ⟨Nat.div_pos ?_ h₂, by omega⟩
  rw [Nat.shiftLeft_eq]
  calc m₂ ≤ 2 ^ (m₂.log2 + 1) := Nat.le_of_lt hhigh
    _ ≤ 2 ^ (m₁.log2 + s) := Nat.pow_le_pow_right (by decide) hshift
    _ = 2 ^ m₁.log2 * 2 ^ s := Nat.pow_add ..
    _ ≤ m₁ * 2 ^ s := Nat.mul_le_mul_right _ hlow

/-! ### The bits of a positive double -/

/-- The sign bit is clear, and some other bit is set. -/
def Positive (bits : BitVec 64) : Prop := 0 < bits.toNat ∧ bits.toNat < 0x8000000000000000

lemma positive_packComponents {exponent : BitVec 11} {mantissa : BitVec 52}
    (h : exponent ≠ 0#11 ∨ mantissa ≠ 0#52) :
    Positive (packComponents .binary64 .positive exponent mantissa) := by
  have hbits : (packComponents .binary64 .positive exponent mantissa).toNat =
      exponent.toNat * 2 ^ 52 + mantissa.toNat := by
    show (0#1 ++ exponent ++ mantissa).toNat = _
    rw [BitVec.toNat_append, BitVec.toNat_append, ← Nat.shiftLeft_add_eq_or_of_lt mantissa.isLt, Nat.shiftLeft_eq]
    simp
  have hexp : exponent.toNat < 2 ^ 11 := exponent.isLt
  have hmant : mantissa.toNat < 2 ^ 52 := mantissa.isLt
  have hset : exponent.toNat ≠ 0 ∨ mantissa.toNat ≠ 0 := by
    rcases h with h | h
    · exact .inl fun hz => h (BitVec.eq_of_toNat_eq hz)
    · exact .inr fun hz => h (BitVec.eq_of_toNat_eq hz)
  unfold Positive
  rw [hbits]
  omega

lemma positive_packedInfinity : Positive (packedInfinity .binary64 .positive) :=
  positive_packComponents (.inl (by decide))

lemma positive_pack {m : Nat} {e : Int} {hm : 0 < m} (hlt : m < 0x20000000000000) (he : -1074 ≤ e) :
    Positive (pack .binary64 (.finite .positive m e hm)) := by
  have hbias : (Float.Model.Format.binary64.exponentBias : Int) = 1023 := rfl
  have hlog : m.log2 < 53 := (Nat.log2_lt (Nat.ne_of_gt hm)).2 hlt
  unfold pack
  dsimp only
  rw [hbias]
  split
  · exact positive_packedInfinity
  · split
    · next hbig _ =>
      refine positive_packComponents (.inl fun hz => ?_)
      have hval := congrArg BitVec.toNat hz
      rw [BitVec.toNat_ofNat, BitVec.toNat_ofNat] at hval
      omega
    · next hbits =>
      refine positive_packComponents (.inr fun hz => ?_)
      have hval := congrArg BitVec.toNat hz
      rw [BitVec.toNat_ofNat, BitVec.toNat_ofNat] at hval
      have hsmall : m < 2 ^ 52 := by
        refine (Nat.log2_lt (Nat.ne_of_gt hm)).1 ?_
        have : Float.Model.Format.binary64.mantissaBits = 53 := rfl
        omega
      rw [Nat.mod_eq_of_lt hsmall] at hval
      omega

/-- Read back, such bits are above zero or not a number. -/
lemma zero_lt_of_positive {x : Float} (h : Positive x.toBits.toBitVec) (hnan : x.isNaN = false) :
    (0.0 : Float) < x := by
  have hlow : 0 < x.toModel.toBits.toBitVec.toNat := h.1
  have hhigh : x.toModel.toBits.toBitVec.toNat < 2 ^ 63 := h.2
  have hsign : @unpackSign .binary64 x.toModel.toBits.toBitVec = 0#1 := by
    refine BitVec.eq_of_toNat_eq ?_
    show (x.toModel.toBits.toBitVec.extractLsb 63 63).toNat = 0
    rw [BitVec.extractLsb_toNat, Nat.shiftRight_eq_div_pow, Nat.div_eq_of_lt hhigh]
  have hzero : ¬ (@unpackExponent .binary64 x.toModel.toBits.toBitVec = 0#11 ∧
      @unpackMantissa .binary64 x.toModel.toBits.toBitVec = 0#52) := by
    rintro ⟨hexp, hmant⟩
    have hexp' : (x.toModel.toBits.toBitVec.extractLsb 62 52).toNat = 0 := congrArg BitVec.toNat hexp
    have hmant' : (x.toModel.toBits.toBitVec.extractLsb 51 0).toNat = 0 := congrArg BitVec.toNat hmant
    rw [BitVec.extractLsb_toNat, Nat.shiftRight_eq_div_pow] at hexp' hmant'
    omega
  rw [lt_iff_parsed, parsed_zero]
  change (unpack .binary64 x.toModel.toBits.toBitVec).isNaN = false at hnan
  change (UnpackedFloat.zero .positive).lt (unpack .binary64 x.toModel.toBits.toBitVec) = true
  obtain ⟨-, -, hread⟩ | ⟨-, -, hread⟩ | ⟨hexp, hmant, -⟩ | ⟨_, _, _, hread, -⟩ :=
    unpack_cases x.toModel.toBits.toBitVec
  · rw [hread, hsign]
    rfl
  · rw [hread] at hnan
    cases hnan
  · exact absurd ⟨hexp, hmant⟩ hzero
  · rw [hread, hsign]
    rfl

lemma one_le_ceiling {x : Float} (h : Positive x.toBits.toBitVec) : 1 ≤ ceiling x := by
  have hpos : 0 < (Dyadic.ofBits x.toBits).mantissa := by
    have hlow : 0 < x.toBits.toNat := h.1
    have hhigh : x.toBits.toNat < 2 ^ 63 := h.2
    unfold Dyadic.ofBits
    dsimp only
    split
    · dsimp only
      omega
    · exact Nat.add_pos_left (by decide) _
  have hsign : isNegative x = false := by
    have hhigh : x.toBits.toNat < 2 ^ 63 := h.2
    unfold isNegative
    rw [decide_eq_false_iff_not]
    omega
  have hceil : 1 ≤ (Dyadic.ofBits x.toBits).ceiling := by
    generalize Dyadic.ofBits x.toBits = d at hpos
    unfold Dyadic.ceiling Dyadic.isWhole Dyadic.floor
    by_cases he : 0 ≤ d.exponent
    · simp only [he, decide_true, Bool.true_or, if_true]
      rw [Nat.shiftLeft_eq]
      exact Nat.mul_pos hpos (Nat.two_pow_pos _)
    · simp only [he, decide_false, Bool.false_or, if_false]
      split
      · next hwhole =>
        have hdvd := Nat.dvd_of_mod_eq_zero (beq_iff_eq.1 hwhole)
        rw [Nat.one_shiftLeft] at hdvd
        rw [Nat.shiftRight_eq_div_pow]
        exact Nat.div_pos (Nat.le_of_dvd hpos hdvd) (Nat.two_pow_pos _)
      · exact Nat.le_add_left 1 _
  unfold ceiling
  dsimp only
  rw [hsign, if_neg Bool.false_ne_true]
  exact Int.ofNat_le.2 hceil

/-! ### Loads above a ceiling -/

/-- The ratio of a double to a smaller positive one is positive. -/
theorem positive_div {x c : Float} (hc : c.isFinite = true) (hpos : ¬ c ≤ 0.0) (hx : ¬ x ≤ c)
    (hnan : (x / c).isNaN = false) : Positive (x / c).toBits.toBitVec := by
  have hnumber : (unpack .binary64 (pack .binary64 (div .binary64 (parsed x) (parsed c)))).isNaN = false := hnan
  have hc53 := @mantissa_lt c
  rw [le_iff_parsed] at hpos hx
  rw [isFinite_eq_parsed] at hc
  rw [parsed_zero] at hpos
  show Positive (pack .binary64 (div .binary64 (parsed x) (parsed c)))
  generalize parsed c = y at *
  generalize parsed x = z at *
  cases y with
  | infinity s => cases hc
  | notANumber => cases hc
  | zero s => exact absurd rfl hpos
  | finite s m e hm =>
    cases s with
    | negative => exact absurd rfl hpos
    | positive =>
      cases z with
      | infinity s' =>
        cases s' with
        | negative => exact absurd rfl hx
        | positive => exact positive_packedInfinity
      | notANumber =>
        have hback : (unpack .binary64 (pack .binary64 .notANumber)).isNaN = true := rfl
        exact absurd (hback.symm.trans hnumber) (by decide)
      | zero s' => exact absurd rfl hx
      | finite s' m' e' hm' =>
        cases s' with
        | negative => exact absurd rfl hx
        | positive =>
          -- positive doubles are compared by their exponents first
          have he : e ≤ e' := by
            refine Int.not_lt.1 fun hlt => hx ?_
            show Option.any (·.isLE) (some ((compare e' e).then (compare m' m))) = true
            rw [show compare e' e = .lt from Std.compare_eq_lt.2 hlt]
            rfl
          obtain ⟨hq, hexp⟩ := divCore_spec hm' hm (hc53 rfl) he
          obtain ⟨m'', e'', hm'', hround, hlt, hlow⟩ := roundWithAccuracy_spec (.positive / .positive) hq hexp _
          have hdiv : div .binary64 (.finite .positive m' e' hm') (.finite .positive m e hm) =
              .finite .positive m'' e'' hm'' := hround
          rw [hdiv]
          exact positive_pack hlt hlow

end Waveflow.Decimal

namespace Waveflow.ThermalPass

/-- **A node above the ceiling has at least one part.** -/
theorem one_le_parts {load ceiling : Float} {k : Nat} (hfinite : ceiling.isFinite = true) (hpos : ¬ ceiling ≤ 0.0)
    (hload : ¬ load ≤ ceiling) (h : parts? load ceiling = some k) : 1 ≤ k := by
  unfold parts? at h
  dsimp only at h
  split at h
  · cases h
  · next hnan =>
    have hbits := Decimal.positive_div hfinite hpos hload (Bool.not_eq_true _ ▸ hnan)
    split at h
    · rw [if_pos (Decimal.zero_lt_of_positive hbits (Bool.not_eq_true _ ▸ hnan))] at h
      cases h
    · split at h
      · have hone := Decimal.one_le_ceiling hbits
        obtain rfl := Option.some.inj h
        omega
      · cases h

end Waveflow.ThermalPass
