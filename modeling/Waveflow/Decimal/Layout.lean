import Waveflow.Decimal.Whole

/-!
# How a double is written

A `Layout` holds the decisions that the digits leave open: where positional writing ends, whether a
whole number keeps a fraction, and which way an exact tie goes.
-/

namespace Waveflow.Decimal

/-- The decisions of one way of writing doubles. -/
structure Layout where
  tie : Tie
  /-- A whole number is written with the fraction `.0`. -/
  keepsFraction : Bool
  /-- Positional writing is used for `d.ddd * 10 ^ e` with `low ≤ e < high`; without bounds, always. -/
  positional : Option (Int × Int)

/-- A run of zeros. -/
def zeros (n : Nat) : String := String.ofList (List.replicate n '0')

/-- Digits with a point after the first `point` of them, filled up with zeros where needed. -/
def placePoint (keepsFraction : Bool) (digits : String) (point : Int) : String :=
  let count : Int := digits.length
  if point ≤ 0 then "0." ++ zeros (-point).toNat ++ digits
  else if count ≤ point then
    digits ++ zeros (point - count).toNat ++ (if keepsFraction then ".0" else "")
  else
    let cs := digits.toList
    String.ofList (cs.take point.toNat) ++ "." ++ String.ofList (cs.drop point.toNat)

/-- Digits in the form `d.ddde+x`, the sign of the exponent always written. -/
def scientific (digits : String) (exponent : Int) : String :=
  let cs := digits.toList
  let head := String.ofList (cs.take 1)
  let tail := cs.drop 1
  let mantissa := if tail.isEmpty then head else head ++ "." ++ String.ofList tail
  mantissa ++ (if exponent < 0 then "e-" else "e+") ++ toString exponent.natAbs

/-- The text of a decimal. -/
def Layout.write (layout : Layout) (d : Digits) : String :=
  if d.digits = 0 then (if layout.keepsFraction then "0.0" else "0")
  else
    let digits := toString d.digits
    let point := (digits.length : Int) + d.exponent
    match layout.positional with
    | none => placePoint layout.keepsFraction digits point
    | some (low, high) =>
      if low ≤ point - 1 ∧ point - 1 < high then placePoint layout.keepsFraction digits point
      else scientific digits (point - 1)

/-- The text of a finite double. -/
def Layout.finite (layout : Layout) (x : Float) : String :=
  (if isNegative x then "-" else "") ++ layout.write ((Dyadic.ofBits x.toBits).shortest layout.tie)

/-- The text of any double. -/
def Layout.text (layout : Layout) (x : Float) : String :=
  if x.isNaN then "NaN"
  else if x.isInf then (if isNegative x then "-inf" else "inf")
  else layout.finite x

/-- Numbers in messages and listings: no exponent, whole numbers without a fraction, ties upward. -/
def message : Layout := ⟨.up, false, none⟩

end Waveflow.Decimal

namespace Waveflow

/-- The text of a number in a message. -/
def numberText (x : Float) : String := Decimal.message.text x

end Waveflow
