/-!
# Checked steps

Node ids, protection levels and code distances live in 32 bits.  They are natural numbers here, and
the few operations that can leave the range say so: a computation in `Checked` either has a value or
names the step that could not be made.  The tasks of a batch share permits, of which there is a
greatest number, too.
-/

namespace Waveflow

/-- The most permits that tasks can share. -/
def permitLimit : Nat := 2305843009213693951

/-- The step that could not be made: a counter that left its range, a look past the end of a list, or more
permits than tasks can share. -/
inductive Fault where
  | add
  | subtract
  | multiply
  | index (length position : Nat)
  | permits
deriving Repr, DecidableEq

/-- What is reported of a step that could not be made. -/
def Fault.message : Fault → String
  | .add => "attempt to add with overflow"
  | .subtract => "attempt to subtract with overflow"
  | .multiply => "attempt to multiply with overflow"
  | .index length position =>
    "index out of bounds: the len is " ++ toString length ++ " but the index is " ++ toString position
  | .permits => "a semaphore may not have more than MAX_PERMITS permits (" ++ toString permitLimit ++ ")"

/-- A value, or the step that could not be made on the way to it. -/
abbrev Checked (α : Type) := Except Fault α

/-- One more than the largest 32-bit counter. -/
def wordLimit : Nat := 4294967296

/-- One more than the largest 64-bit counter. -/
def longLimit : Nat := 18446744073709551616

/-- Sum of two 32-bit counters. -/
def addWord (a b : Nat) : Checked Nat :=
  if a + b < wordLimit then .ok (a + b) else .error .add

/-- Product of two 32-bit counters. -/
def mulWord (a b : Nat) : Checked Nat :=
  if a * b < wordLimit then .ok (a * b) else .error .multiply

/-- What is left of `a` after `b` has been taken away. -/
def subCount (a b : Nat) : Checked Nat :=
  if b ≤ a then .ok (a - b) else .error .subtract

theorem addWord_eq_ok {a b : Nat} (h : a + b < wordLimit) : addWord a b = .ok (a + b) := by
  simp [addWord, h]

theorem subCount_eq_ok {a b : Nat} (h : b ≤ a) : subCount a b = .ok (a - b) := by
  simp [subCount, h]

end Waveflow
