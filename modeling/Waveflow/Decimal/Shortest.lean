/-!
# Shortest decimals

A finite double stands for the interval of reals that round to it.  `shortest` gives the decimal with
the fewest digits inside that interval, and among those the nearest to the double; where two are
equally near, a `Tie` decides.  All comparisons are exact, in natural numbers.
-/

namespace Waveflow.Decimal

/-- A finite non-negative double, `mantissa * 2 ^ exponent`. -/
structure Dyadic where
  mantissa : Nat
  exponent : Int
  /-- The next double below is only half as far away as the next one above. -/
  narrow : Bool
deriving Repr, DecidableEq

/-- The magnitude of a finite double, from its bits. -/
def Dyadic.ofBits (bits : UInt64) : Dyadic :=
  let field : Nat := (bits.toNat >>> 52) % 2048
  let fraction : Nat := bits.toNat % 0x10000000000000
  if field = 0 then ⟨fraction, -1074, false⟩
  else ⟨0x10000000000000 + fraction, (field : Int) - 1075, fraction == 0 && field > 1⟩

/-- The decimal `digits * 10 ^ exponent`. -/
structure Digits where
  digits : Nat
  exponent : Int
deriving Repr, DecidableEq

/-- Which of two equally near decimals is taken. -/
inductive Tie where
  | even
  | up
deriving Repr, DecidableEq

/-- Factors that bring `n * 2 ^ i` and `d * 10 ^ j` to one scale: the first times `a` compares with
the second times `b`. -/
def scales (i j : Int) : Nat × Nat :=
  (Nat.pow 10 (-j).toNat <<< i.toNat, Nat.pow 10 j.toNat <<< (-i).toNat)

/-- The decimal lies among the reals that round to the double; the ends belong to it when the
mantissa is even. -/
def Dyadic.covers (x : Dyadic) (d : Digits) : Bool :=
  let (a, b) := scales (x.exponent - 2) d.exponent
  let low := (4 * x.mantissa - (if x.narrow then 1 else 2)) * a
  let high := (4 * x.mantissa + 2) * a
  let point := d.digits * b
  if x.mantissa % 2 = 0 then low ≤ point && point ≤ high else low < point && point < high

/-- The least `k` with `x < 10 ^ k`, for a positive `x`. -/
def Dyadic.scale (x : Dyadic) : Int :=
  let guess := ((x.mantissa.log2 : Int) + x.exponent) * 30103 / 100000
  let below (k : Int) : Bool :=
    let (a, b) := scales x.exponent k
    x.mantissa * a < b
  ([guess, guess + 1, guess + 2].find? below).getD (guess + 3)

/-- The best decimal in the interval that is a multiple of `10 ^ exponent`. -/
def Dyadic.onGrid (tie : Tie) (x : Dyadic) (exponent : Int) : Option Digits :=
  let (a, b) := scales x.exponent exponent
  let value := x.mantissa * a
  let lower : Digits := ⟨value / b, exponent⟩
  let upper : Digits := ⟨value / b + 1, exponent⟩
  match x.covers lower, x.covers upper with
  | true, true =>
    let twice := 2 * value
    let middle := (lower.digits + upper.digits) * b
    if twice < middle then some lower
    else if middle < twice then some upper
    else match tie with
      | .up => some upper
      | .even => some (if lower.digits % 2 = 0 then lower else upper)
  | true, false => some lower
  | false, true => some upper
  | false, false => none

/-- The same decimal without trailing zeros. -/
def Digits.strip : Nat → Digits → Digits
  | 0, d => d
  | fuel + 1, d =>
    if d.digits ≠ 0 ∧ d.digits % 10 = 0 then Digits.strip fuel ⟨d.digits / 10, d.exponent + 1⟩ else d

/-- The exact value as a decimal. -/
def Dyadic.exact (x : Dyadic) : Digits :=
  if 0 ≤ x.exponent then ⟨x.mantissa <<< x.exponent.toNat, 0⟩
  else ⟨x.mantissa * Nat.pow 5 (-x.exponent).toNat, x.exponent⟩

/-- The decimal with the fewest digits that rounds to `x`, the nearest of these to `x`. -/
def Dyadic.shortest (tie : Tie) (x : Dyadic) : Digits :=
  if x.mantissa = 0 then ⟨0, 0⟩
  else
    let scale := x.scale
    match (List.range 17).findSome? (fun n : Nat => x.onGrid tie (scale - ((n : Int) + 1))) with
    | some d => d.strip 20
    | none => x.exact

/-- The decimal number of a list of digit characters. -/
def natOf (digits : List Char) : Nat :=
  digits.foldl (fun acc c => 10 * acc + (c.toNat - 48)) 0

end Waveflow.Decimal
