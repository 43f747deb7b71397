import Waveflow.Compile.Error
import Waveflow.Graph.Budget
import Waveflow.Graph.Correction

/-!
# Compile options

The passes to run, the limits they work under, and what holds for nodes that say nothing themselves.
-/

namespace Waveflow

/-- The passes that are always there, in their usual order. -/
inductive PassId where
  | coherence
  | thermal
  | errorCorrection
  | performance
deriving Repr, DecidableEq

namespace PassId

def all : List PassId := [coherence, thermal, errorCorrection, performance]

def name : PassId → String
  | coherence => "coherence"
  | thermal => "thermal"
  | errorCorrection => "error_correction"
  | performance => "performance"

def ofName? (name : String) : Option PassId := all.find? (·.name == name)

end PassId

/-- The options of a compilation. -/
structure Options where
  passList : List String
  /-- The largest thermal load of one node; without it nothing is divided. -/
  thermalCeiling : Option Float
  defaultCorrection : Correction
  defaultCoherence : Budget
  /-- Repeat the passes until none of them changes anything. -/
  fixedPoint : Bool
  maxIterations : Nat
deriving BEq

namespace Options

/-- All passes once, no ceiling, no protection and no budget of its own. -/
def standard : Options := ⟨PassId.all.map PassId.name, none, .none, .unbounded, false, 16⟩

instance : Inhabited Options := ⟨standard⟩

/-- The ceiling, if given, is positive and finite. -/
def checkCeiling (o : Options) : Except CompileError Unit :=
  match o.thermalCeiling with
  | none => .ok ()
  | some x => if x.isFinite && !(x ≤ 0.0) then .ok () else .error (.invalidOption (.thermalCeiling x))

/-- The budget, if bounded, is finite and not negative. -/
def checkCoherence (o : Options) : Except CompileError Unit :=
  match o.defaultCoherence with
  | .unbounded => .ok ()
  | .bounded x =>
    if x.value.isFinite && !(x.value < 0.0) then .ok () else .error (.invalidOption (.coherenceBudget x.value))

/-- The first option out of its range. -/
def validate (o : Options) : Except CompileError Unit := do
  o.checkCeiling
  o.checkCoherence
  if o.maxIterations = 0 then .error (.invalidOption .maxIterations) else .ok ()

def toJson (o : Options) : Json :=
  .obj [("pass_list", .list .str o.passList), ("thermal_ceiling", .opt .float o.thermalCeiling),
    ("default_error_correction", o.defaultCorrection.toJson),
    ("default_coherence_budget", o.defaultCoherence.toJson),
    ("iterate_to_fixed_point", .bool o.fixedPoint), ("max_iterations", .nat o.maxIterations)]

/-- The names of the options, in the order in which they are stored. -/
def fieldNames : List String :=
  ["pass_list", "thermal_ceiling", "default_error_correction", "default_coherence_budget",
    "iterate_to_fixed_point", "max_iterations"]

/-- Options, in which the fields of tagged records may be given by position or not. -/
def read? (positional : Bool) (j : Json) : Option Options := do
  match ← j.record? fieldNames with
  | [passList, ceiling, correction, coherence, fixedPoint, maxIterations] =>
    some ⟨← Json.orElse standard.passList (Json.list? Json.str?) passList,
      ← Json.orElse none (Json.opt? Json.float?) ceiling,
      ← Json.orElse .none (Correction.read? positional) correction,
      ← Json.orElse .unbounded Budget.ofJson? coherence, ← Json.orElse false Json.bool? fixedPoint,
      ← Json.orElse 16 Json.long? maxIterations⟩
  | _ => none

def ofJson? : Json → Option Options := read? false

end Options

end Waveflow
