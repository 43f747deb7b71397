import Waveflow.Operation.Spec

/-!
# The operation registry

The operations that a program may call and a pass may make, by name.  A name is registered once.
-/

namespace Waveflow

/-- The known operations by name. -/
structure Registry where
  specs : Dict OpSpec

namespace Registry

/-- The registry without operations. -/
def empty : Registry := ⟨Dict.empty⟩

/-- Add an operation under a new name. -/
def register (r : Registry) (spec : OpSpec) : Except Refusal Registry :=
  if r.specs.contains spec.name then .error (.duplicateOperation spec.name)
  else .ok ⟨r.specs.insert spec.name spec⟩

/-- Add operations one after the other. -/
def registerAll (r : Registry) (specs : List OpSpec) : Except Refusal Registry :=
  specs.foldlM register r

/-- The operation of a name. -/
def get? (r : Registry) (name : String) : Option OpSpec := r.specs.get? name

/-- The operation of a kind, which its name decides. -/
def specOf? (r : Registry) (kind : OpKind) : Option OpSpec := r.specs.get? kind.name

/-- The operation of a name, if a program may call it. -/
def callable? (r : Registry) (name : String) : Option OpSpec := (r.get? name).filter (fun s => !s.internal)

/-- The operations that are always there. -/
def builtinSpecs : List OpSpec :=
  [ { OpSpec.plain .interfere with
      minOperands := 2, maxOperands := 8, thermalLoad := 2.0, coherenceCost := 1.5, resultType := elementwise },
    { OpSpec.plain .merge with
      minOperands := 2, maxOperands := 8, thermalLoad := 1.5, coherenceCost := 1.0, resultType := elementwise },
    { OpSpec.plain .split with thermalLoad := 1.0, coherenceCost := 0.5 },
    { OpSpec.plain .phaseShift with
      params := [⟨"phase", .operand, true⟩], thermalLoad := 0.5, coherenceCost := 0.5, resultType := phaseShifted },
    { OpSpec.plain .fourier with thermalLoad := 4.0, coherenceCost := 2.0, resultType := nonScalar },
    { OpSpec.plain .measure with atomic := true, thermalLoad := 3.0, coherenceCost := 1.0 },
    { OpSpec.plain .correct with
      atomic := true, sideEffecting := true, thermalLoad := 2.5, coherenceCost := 0.5,
      defaultCorrection := some (Correction.atLevel 1) },
    { OpSpec.plain (.encode "" 0) with
      internal := true, atomic := true, minOperands := 0, maxOperands := unlimited,
      thermalLoad := 1.0, coherenceCost := 0.5, resultType := elementwise },
    { OpSpec.plain (.decode "" 0) with
      internal := true, atomic := true, thermalLoad := 1.0, coherenceCost := 0.5 },
    { OpSpec.plain .join with
      internal := true, atomic := true, maxOperands := unlimited,
      thermalLoad := 0.5, coherenceCost := 0.0, resultType := elementwise } ]

/-- The registry of the operations that are always there. -/
def builtin : Registry :=
  ⟨Dict.ofList (builtinSpecs.map (fun spec => (spec.name, spec)))⟩

end Registry

end Waveflow
