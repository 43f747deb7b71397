/-!
# Doubles by their bits

Arithmetic on `Float` knows only one value that is not a number, and it does not tell the bits apart by
which such a value can be written.  Where the bits decide, as they do in the order of all doubles and
where constants are told apart, a double is carried by its bits.
-/

namespace Waveflow

/-- A double by its bits. -/
structure Double where
  bits : UInt64
deriving Repr, Inhabited

namespace Double

/-- The value to compute with. -/
def value (d : Double) : Float := Float.ofBits d.bits

/-- The bits of a value. -/
def ofFloat (x : Float) : Double := ⟨x.toBits⟩

/-- Doubles are equal if their values are: the two zeros are, and what is not a number is equal to nothing. -/
instance : BEq Double := ⟨fun d e => d.value == e.value⟩

instance : OfScientific Double := ⟨fun m s e => ofFloat (OfScientific.ofScientific m s e)⟩

/-- The place of a double in the order of all doubles: what has the sign bit comes first, and of that the greater
bits. -/
def rank (d : Double) : Nat :=
  let bits := d.bits.toNat
  if 0x8000000000000000 ≤ bits then 0xffffffffffffffff - bits else 0x8000000000000000 + bits

end Double

end Waveflow
