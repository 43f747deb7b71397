import Waveflow.Dict
import Waveflow.Literal
import Waveflow.ValueType
import Waveflow.Operation.Kind

/-!
# Operation specifications

What is known of an operation before it is called: its operands, its named parameters, its costs, how
its literals are checked and which type its result has.
-/

namespace Waveflow

/-- What becomes of a named parameter. -/
inductive ParamRole where
  /-- It is an operand after the positional ones. -/
  | operand
  /-- It stays with the operation as a literal. -/
  | attribute
deriving Repr, DecidableEq

/-- A named parameter. -/
structure ParamSpec where
  name : String
  role : ParamRole
  required : Bool
deriving Repr, DecidableEq

/-- The literals that a call carries, by parameter name. -/
abbrev Params := Dict Literal

/-- The attribute parameters that every operation takes. -/
def commonParams : List String := ["coherence", "thermal", "correction", "level", "code"]

/-- The number of operands of an operation that takes any number. -/
def unlimited : Nat := longLimit - 1

/-! ### Result types -/

/-- The result has the type of the first operand. -/
def sameAsFirst : List ValueType → Except String ValueType
  | t :: _ => .ok t
  | [] => .error "operation needs at least one operand"

/-- One more operand of an elementwise operation: scalars fit everything, other types have to agree. -/
def agree (expected : Option ValueType) (t : ValueType) : Except String (Option ValueType) :=
  if t.isScalar then .ok expected
  else match expected with
    | none => .ok (some t)
    | some e =>
      if e = t then .ok expected
      else .error ("operand types " ++ e.text ++ " and " ++ t.text ++ " do not match")

/-- The common type of all operands that are not scalars. -/
def elementwise (operands : List ValueType) : Except String ValueType := do
  let common ← operands.foldlM agree none
  .ok (common.getD ValueType.scalar)

/-- A value and a scalar phase; the result has the type of the value. -/
def phaseShifted : List ValueType → Except String ValueType
  | [value, phase] =>
    if phase.isScalar then .ok value else .error ("phase must be a scalar, got " ++ phase.text)
  | operands =>
    .error ("phase_shift takes a value and a phase, got " ++ toString operands.length ++ " operand(s)")

/-- The type of the first operand, which is not a scalar. -/
def nonScalar (operands : List ValueType) : Except String ValueType := do
  let t ← sameAsFirst operands
  if t.isScalar then .error "cannot transform a scalar" else .ok t

/-! ### Common parameters -/

/-- The parameter, if given, is a finite number that is not negative. -/
def checkAmount (params : Params) (key : String) : Except String Unit :=
  match params.get? key with
  | none => .ok ()
  | some value =>
    match value with
    | .number x =>
      if x.value.isFinite && 0.0 ≤ x.value then .ok ()
      else .error ("'" ++ key ++ "' must be a non-negative number, got " ++ value.display)
    | .text _ => .error ("'" ++ key ++ "' must be a non-negative number, got " ++ value.display)

/-- The level, if given, is a positive whole number. -/
def checkLevel (params : Params) : Except String Unit :=
  match params.get? "level" with
  | none => .ok ()
  | some value =>
    if value.positive?.isSome then .ok ()
    else .error ("'level' must be a positive integer, got " ++ value.display)

/-- The code, if given, is text. -/
def checkCode (params : Params) : Except String Unit :=
  match params.get? "code" with
  | none => .ok ()
  | some value =>
    if value.text?.isSome then .ok () else .error ("'code' must be text, got " ++ value.display)

/-- The level that the parameters give. -/
def levelOf (params : Params) : Option Nat := (params.get? "level").bind Literal.positive?

/-- The code that the parameters give. -/
def codeOf (params : Params) : Option String := (params.get? "code").bind Literal.text?

/-- The correction, if given, is text that makes a requirement together with level and code. -/
def checkCorrection (params : Params) : Except String Unit :=
  match params.get? "correction" with
  | none => .ok ()
  | some (.text name) =>
    match Correction.ofParts name (levelOf params) (codeOf params) with
    | .ok _ => .ok ()
    | .error e => .error e.message
  | some value => .error ("'correction' must be text, got " ++ value.display)

/-- Checks the parameters that every operation takes. -/
def checkCommonParams (params : Params) : Except String Unit := do
  checkAmount params "coherence"
  checkAmount params "thermal"
  checkLevel params
  checkCode params
  checkCorrection params

/-! ### Specifications -/

/-- The description of one operation. -/
structure OpSpec where
  kind : OpKind
  minOperands : Nat
  maxOperands : Nat
  params : List ParamSpec
  /-- It is never divided into parts. -/
  atomic : Bool
  /-- It may be called without using its result. -/
  sideEffecting : Bool
  /-- It is made by passes only and cannot be called. -/
  internal : Bool
  thermalLoad : Float
  coherenceCost : Float
  defaultCorrection : Option Correction
  /-- Accepts or rejects the literals of a call, after the common parameters have been checked. -/
  validate : Params → Except String Unit
  /-- The type of the result, from the types of the operands. -/
  resultType : List ValueType → Except String ValueType

namespace OpSpec

/-- One operand, a result of its type, costs of one. -/
def plain (kind : OpKind) : OpSpec where
  kind := kind
  minOperands := 1
  maxOperands := 1
  params := []
  atomic := false
  sideEffecting := false
  internal := false
  thermalLoad := 1.0
  coherenceCost := 1.0
  defaultCorrection := none
  validate := fun _ => .ok ()
  resultType := sameAsFirst

def name (spec : OpSpec) : String := spec.kind.name

/-- Take at least `least` operands and at most `most`, or exactly `least` if that is more. -/
def withOperands (spec : OpSpec) (least most : Nat) : OpSpec :=
  { spec with minOperands := least, maxOperands := max most least }

/-- The named parameter, a common one included. -/
def param? (spec : OpSpec) (name : String) : Option ParamSpec :=
  match spec.params.find? (·.name == name) with
  | some p => some p
  | none => if commonParams.contains name then some ⟨name, .attribute, false⟩ else none

/-- The named parameters that are operands, in order. -/
def operandParams (spec : OpSpec) : List ParamSpec := spec.params.filter (·.role == .operand)

/-- That many positional operands are accepted. -/
def accepts (spec : OpSpec) (count : Nat) : Bool := spec.minOperands ≤ count && count ≤ spec.maxOperands

/-- Checks the literals of a call: the common parameters first, then what the operation asks. -/
def checkParams (spec : OpSpec) (params : Params) : Except String Unit := do
  checkCommonParams params
  spec.validate params

/-- How many operands are taken, in words. -/
def arityText (spec : OpSpec) : String :=
  if spec.minOperands = spec.maxOperands then toString spec.minOperands
  else if spec.maxOperands = unlimited then "at least " ++ toString spec.minOperands
  else toString spec.minOperands ++ " to " ++ toString spec.maxOperands

end OpSpec

end Waveflow
