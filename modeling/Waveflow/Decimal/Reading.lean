import Waveflow.Decimal.Shortest

/-!
# Reading decimals

`nearest` reads a decimal as the double nearest to it.  `scaled` reads it in two roundings, first the
digits and then the power of ten; the two agree on short decimals and can differ in the last place on
long ones.
-/

namespace Waveflow.Decimal

/-- The double nearest to `digits * 10 ^ exponent`; too large a decimal gives infinity. -/
def nearest (digits : Nat) (exponent : Int) : Float :=
  if digits = 0 then 0.0
  else
    let order := ((toString digits).length : Int) + exponent
    if 400 < order then 1.0 / 0.0
    else if order < -400 then 0.0
    else if exponent < 0 then Float.ofScientific digits true (-exponent).toNat
    else Float.ofScientific digits false exponent.toNat

/-- An unsigned decimal as it is written: `whole[.fraction][e exponent]`. -/
structure Written where
  whole : List Char
  fraction : List Char
  exponent : Int
deriving Repr, DecidableEq

/-- The double nearest to a written decimal. -/
def Written.value (w : Written) : Float :=
  nearest (natOf (w.whole ++ w.fraction)) (w.exponent - w.fraction.length)

/-- The decimal power as a double, for exponents up to 308. -/
def power (n : Nat) : Float := Float.ofScientific 1 false n

/-- `digits * 10 ^ exponent` by one multiplication or division in doubles, after steps of `10 ^ 308`
while the exponent is below the table of powers.  No value when the result is too large. -/
def scaled (digits : Float) : Nat → Int → Option Float
  | 0, _ => some 0.0
  | fuel + 1, exponent =>
    if exponent.natAbs ≤ 308 then
      if 0 ≤ exponent then
        let x := digits * power exponent.natAbs
        if x.isInf then none else some x
      else some (digits / power exponent.natAbs)
    else if digits == 0.0 then some digits
    else if 0 ≤ exponent then none
    else scaled (digits / power 308) fuel (exponent + 308)

/-- The digits of a decimal that fit into 64 bits, the rest dropped, with the power of ten that the
kept whole digits still stand for. -/
structure Kept where
  digits : Nat
  exponent : Int

/-- Take one more whole digit: once the digits are full it only raises the exponent. -/
def Kept.whole (acc : Kept × Bool) (c : Char) : Kept × Bool :=
  let next := 10 * acc.1.digits + (c.toNat - 48)
  if acc.2 || 18446744073709551615 < next then (⟨acc.1.digits, acc.1.exponent + 1⟩, true)
  else (⟨next, acc.1.exponent⟩, false)

/-- Take one more fraction digit: once the digits are full it is dropped. -/
def Kept.fraction (acc : Kept × Bool) (c : Char) : Kept × Bool :=
  let next := 10 * acc.1.digits + (c.toNat - 48)
  if acc.2 || 18446744073709551615 < next then (acc.1, true)
  else (⟨next, acc.1.exponent - 1⟩, false)

/-- A written decimal read in two roundings; `none` when it is too large for a double. -/
def Written.scaledValue (w : Written) : Option Float :=
  let (whole, _) := w.whole.foldl Kept.whole (⟨0, 0⟩, false)
  let (kept, _) := w.fraction.foldl Kept.fraction (whole, false)
  if 2147483647 < w.exponent.natAbs then
    if kept.digits ≠ 0 ∧ 0 < w.exponent then none else some 0.0
  else scaled kept.digits.toUInt64.toFloat 8000000 (kept.exponent + w.exponent)

end Waveflow.Decimal
