import Waveflow.Decimal.Shortest

/-!
# Whole parts of doubles

Whether a double has a fraction, and the whole number just above it, from its mantissa and exponent.
-/

namespace Waveflow.Decimal

/-- The sign bit is set. -/
def isNegative (x : Float) : Bool := 0x8000000000000000 ≤ x.toBits.toNat

/-- The magnitude is a whole number. -/
def Dyadic.isWhole (d : Dyadic) : Bool := 0 ≤ d.exponent || d.mantissa % (1 <<< (-d.exponent).toNat) == 0

/-- The magnitude without its fraction. -/
def Dyadic.floor (d : Dyadic) : Nat :=
  if 0 ≤ d.exponent then d.mantissa <<< d.exponent.toNat else d.mantissa >>> (-d.exponent).toNat

/-- The least whole number that is not below the magnitude. -/
def Dyadic.ceiling (d : Dyadic) : Nat := if d.isWhole then d.floor else d.floor + 1

/-- A finite double without a fraction. -/
def isWhole (x : Float) : Bool := x.isFinite && (Dyadic.ofBits x.toBits).isWhole

/-- The least whole number that is not below a finite double. -/
def ceiling (x : Float) : Int :=
  let d := Dyadic.ofBits x.toBits
  if isNegative x then -(d.floor : Int) else d.ceiling

end Waveflow.Decimal
