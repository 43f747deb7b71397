import Waveflow.Lowering
import Waveflow.Proofs.Dict
import Waveflow.Proofs.Meaning.Basic
import Mathlib.Logic.Function.Basic

/-!
# What a program computes

A program is run statement by statement, in the order of the text and through the blocks in depth.  The
run has an environment, which gives names their values.  An assignment binds its target to the value of
its call; a bare call rebinds its first positional argument, when that is a name.  The operands of a call
are its positional arguments and then its operand parameters, in the order of the operation.  The
literals of a call are those of the blocks around it, inner over outer, and over them its own attribute
parameters.

The run is defined on the program alone: no graph is made.
-/

namespace Waveflow

variable {V : Type*}

/-- The values of names. -/
abbrev Environment (V : Type*) := String → Option V

/-- Bind a name. -/
def Environment.bind (env : Environment V) (name : String) (v : V) : Environment V :=
  Function.update env name (some v)

/-! ### Arguments and calls -/

namespace Argument

/-- The value of an operand; text has none. -/
def eval (I : Interpretation V) (env : Environment V) (a : Argument) : Option V :=
  match a.value with
  | .identifier name => env name
  | .literal (.number x) => some (I.constant x.bits)
  | .literal (.text _) => none

/-- The literal that is given under a name. -/
def entry? (a : Argument) : Option (String × Literal) :=
  match a.name, a.value with
  | some name, .literal value => some (name, value)
  | _, _ => none

end Argument

/-- The literals that are given under names; of two under one name the later holds. -/
def literalsOf (arguments : List Argument) : Params := Dict.ofList (arguments.filterMap Argument.entry?)

/-- The name is that of an attribute parameter. -/
def OpSpec.isAttribute (spec : OpSpec) (name : String) : Bool :=
  match spec.param? name with
  | some p => p.role == .attribute
  | none => false

namespace Call

/-- The operands: the positional arguments, then the operand parameters in the order of the operation. -/
def operands (spec : OpSpec) (c : Call) : List Argument :=
  c.positional ++ spec.operandParams.filterMap (fun p => c.parameter? p.name)

/-- The attribute parameters of the call itself. -/
def attributes (spec : OpSpec) (c : Call) : Params :=
  Dict.ofList ((c.arguments.filterMap Argument.entry?).filter (fun e => spec.isAttribute e.1))

/-- The value of a call, under the literals of the blocks around it. -/
def eval (I : Interpretation V) (r : Registry) (around : Params) (env : Environment V) (c : Call) : Option V :=
  (r.callable? c.operation).bind fun spec =>
    ((c.operands spec).mapM (Argument.eval I env)).map (I.apply spec.kind (around.merge (c.attributes spec)))

/-- The name that a bare call rebinds. -/
def target? (c : Call) : Option String := c.positional.head?.bind Argument.identifier?

end Call

/-! ### Statements -/

namespace Statement

mutual

/-- The environment after a statement. -/
def run (I : Interpretation V) (r : Registry) (around : Params) : Statement → Environment V → Option (Environment V)
  | .assignment target c _, env => (c.eval I r around env).map (env.bind target)
  | .call c, env => (c.eval I r around env).map (fun v => match c.target? with
    | some name => env.bind name v
    | none => env)
  | .block _ parameters body _, env => runAll I r (around.merge (literalsOf parameters)) body env

/-- The environment after several statements. -/
def runAll (I : Interpretation V) (r : Registry) (around : Params) :
    List Statement → Environment V → Option (Environment V)
  | [], env => some env
  | s :: rest, env => (run I r around s env).bind (runAll I r around rest)

end

variable {I : Interpretation V} {r : Registry} {around : Params}

lemma run_call (c : Call) : (call c).run I r around = fun env => (c.eval I r around env).map (fun v =>
    match c.target? with
    | some name => env.bind name v
    | none => env) := by
  funext env
  unfold run
  rfl

lemma run_block (label : String) (parameters : List Argument) (body : List Statement) (span : Span) :
    (block label parameters body span).run I r around = runAll I r (around.merge (literalsOf parameters)) body := by
  funext env
  unfold run
  rfl

lemma runAll_nil : runAll I r around [] = some := by
  funext env
  unfold runAll
  rfl

lemma runAll_cons (s : Statement) (rest : List Statement) :
    runAll I r around (s :: rest) = fun env => (s.run I r around env).bind (runAll I r around rest) := by
  funext env
  rw [runAll]

end Statement

/-! ### Programs -/

namespace Program

/-- The environment in which the declared inputs have given values, in order. -/
def bindInputs : List Declaration → List V → Environment V → Environment V
  | d :: ds, v :: vs, env => bindInputs ds vs (env.bind d.name v)
  | _, _, env => env

/-- The environment after a program, from the values of its inputs. -/
def run (I : Interpretation V) (r : Registry) (p : Program) (inputs : List V) : Option (Environment V) :=
  Statement.runAll I r Dict.empty p.statements (bindInputs p.inputs inputs fun _ => none)

end Program

/-! ### Literals in lowering -/

/-- Blocks hand down their literals over those around them. -/
theorem Lowering.blockParams_eq (outer : Params) (parameters : List Argument) :
    Lowering.blockParams outer parameters = outer.merge (literalsOf parameters) := by
  unfold literalsOf
  rw [← Dict.foldl_insert_eq_merge, List.foldl_filterMap]
  unfold Lowering.blockParams
  congr 1
  funext params a
  unfold Argument.entry?
  cases a.name with
  | none => rfl
  | some name =>
    cases a.value with
    | literal value => rfl
    | identifier _ => rfl

/-- A call has the literals around it, and its own attribute parameters over them. -/
theorem Lowering.callParams_eq (spec : OpSpec) (around : Params) (c : Call) :
    Lowering.callParams spec around c = around.merge (c.attributes spec) := by
  unfold Call.attributes
  rw [← Dict.foldl_insert_eq_merge, List.foldl_filter, List.foldl_filterMap]
  unfold Lowering.callParams Call.named
  rw [List.foldl_filter]
  congr 1
  funext params a
  unfold Argument.isPositional Argument.entry? OpSpec.isAttribute
  cases a.name with
  | none => rfl
  | some name =>
    cases a.value with
    | identifier _ => rfl
    | literal value =>
      dsimp only
      cases hparam : spec.param? name with
      | none => simp
      | some p =>
        obtain ⟨_, role, _⟩ := p
        cases role <;> simp

end Waveflow
