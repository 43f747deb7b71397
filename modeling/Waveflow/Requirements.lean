import Waveflow.Compile.Options
import Waveflow.Operation.Registry
import Waveflow.Graph.Order

/-!
# Budgets and protection of nodes

Every node gets its coherence budget, its thermal budget and its protection requirement: from the
options, over them from its operation, over both from the literals of its call.  A node without an
explicit requirement then inherits the strongest fault-tolerant one among its inputs.  In the end no
requirement may weaken along an edge that leaves a fault-tolerant node.
-/

namespace Waveflow.Requirements

/-! ### Single nodes -/

/-- The attributes of a node before its literals are looked at. -/
def defaults (r : Registry) (o : Options) (n : Node) : Attributes :=
  let base := { n.attrs with
    coherence := o.defaultCoherence, thermal := .unbounded, correction := o.defaultCorrection }
  match n.kind with
  | .input => base
  | .constant _ => { base with thermal := .bounded 0.0, correction := .none }
  | .operation op =>
    match r.specOf? op with
    | none => base
    | some spec =>
      { base with
        thermal := .bounded (.ofFloat spec.thermalLoad)
        correction := spec.defaultCorrection.getD base.correction }

/-- Apply a level or a code to a requirement: a level makes it fault-tolerant, a code replaces that of
a requirement that has one. -/
def refine (current : Correction) (level : Option Nat) (code : Option String) : Correction :=
  let leveled := match level, current with
    | some level, .faultTolerant _ code => .faultTolerant level code
    | some level, _ => Correction.atLevel level
    | none, current => current
  match code with
  | some code => leveled.withCode code
  | none => leveled

/-- The budget that a literal gives, or the one there was. -/
def budgetParam (n : Node) (key : String) (current : Budget) : Except Refusal Budget :=
  match (n.params.get? key).bind Literal.number? with
  | some amount => Budget.make amount
  | none => .ok current

/-- The requirement that the literals give, or the one there was, refined. -/
def correctionParam (n : Node) (current : Correction) : Except Refusal Correction :=
  match (n.params.get? "correction").bind Literal.text? with
  | some name => Correction.ofParts name (levelOf n.params) (codeOf n.params)
  | none => .ok (refine current (levelOf n.params) (codeOf n.params))

/-- The attributes of a node, with the error that kept the last of them from being set. -/
def attributes (r : Registry) (o : Options) (n : Node) : Attributes × Option Refusal :=
  let a := defaults r o n
  match budgetParam n "coherence" a.coherence with
  | .error e => (a, some e)
  | .ok coherence =>
    let a := { a with coherence := coherence }
    match budgetParam n "thermal" a.thermal with
    | .error e => (a, some e)
    | .ok thermal =>
      let a := { a with thermal := thermal }
      match correctionParam n a.correction with
      | .error e => (a, some e)
      | .ok correction => ({ a with correction := correction }, none)

/-- The node with its attributes set. -/
def annotateNode (r : Registry) (o : Options) (n : Node) : Node := { n with attrs := (attributes r o n).1 }

/-- The error of a node, if its literals give one. -/
def nodeError? (r : Registry) (o : Options) (n : Node) : Option CompileError :=
  (attributes r o n).2.map (fun e => .constraintConflict n.id e.message)

/-! ### Inheritance -/

/-- The requirement of the greatest strength; of equal ones the last. -/
def strongest : List Correction → Checked (Option (Correction × Nat))
  | [] => .ok none
  | c :: rest => do
    let strength ← c.strength
    match ← strongest rest with
    | some (d, other) => return some (if other < strength then (c, strength) else (d, other))
    | none => return some (c, strength)

/-- The requirement of a node after it has looked at its inputs. -/
def inherited (g : Graph) (n : Node) : Checked Correction := do
  let above := ((n.inputs.filterMap g.node?).map (·.attrs.correction)).filter Correction.isFaultTolerant
  match ← strongest above with
  | none => return n.attrs.correction
  | some (required, strength) =>
    let own ← n.attrs.correction.strength
    return if own < strength then required else n.attrs.correction

/-- Let nodes inherit, each after its inputs. -/
def inheritAlong (g : Graph) : List NodeId → Checked Graph
  | [] => .ok g
  | id :: rest =>
    match g.node? id with
    | none => inheritAlong g rest
    | some n =>
      if n.params.contains "correction" then inheritAlong g rest
      else do
        let correction ← inherited g n
        inheritAlong (g.modify id (fun n => { n with attrs := { n.attrs with correction := correction } })) rest

/-- Let all nodes inherit; a graph with a cycle stays as it is. -/
def inherit (g : Graph) : Checked Graph := do
  match ← g.order with
  | .ok order => inheritAlong g order
  | .error _ => return g

/-! ### Conflicts -/

/-- The conflict of a node with one of its inputs. -/
def conflict? (n input : Node) : Checked (Option CompileError) :=
  let above := input.attrs.correction
  if !above.isFaultTolerant then .ok none
  else do
    let own ← n.attrs.correction.strength
    let required ← above.strength
    return if own < required then
      some (.constraintConflict n.id ("requires " ++ n.attrs.correction.text ++ " but depends on " ++
        input.id.text ++ " which requires " ++ above.text))
    else none

/-- The conflicts of a list of edges. -/
def conflictsOf : List (Node × Node) → Checked (List CompileError)
  | [] => .ok []
  | (n, input) :: rest => do
    let first ← conflict? n input
    let more ← conflictsOf rest
    return first.toList ++ more

/-- The edges of a graph between nodes that are there, as consumer and input. -/
def edges (g : Graph) : List (Node × Node) :=
  g.nodes.flatMap (fun n => (n.inputs.filterMap g.node?).map (fun input => (n, input)))

/-- Every edge along which a requirement weakens. -/
def conflicts (g : Graph) : Checked (List CompileError) := conflictsOf (edges g)

/-! ### Graphs -/

/-- Annotate every node, without a look at the others. -/
def annotateNodes (r : Registry) (o : Options) (g : Graph) : Graph :=
  { g with nodes := g.nodes.map (annotateNode r o) }

/-- The annotated graph with its errors. -/
def annotated (r : Registry) (o : Options) (g : Graph) : Checked (Graph × List CompileError) :=
  let errors := g.nodes.filterMap (nodeError? r o)
  let g := annotateNodes r o g
  if errors.isEmpty then do
    let g ← inherit g
    return (g, ← conflicts g)
  else .ok (g, errors)

/-- Annotate a graph, reporting into a list of diagnostics. -/
def annotate (r : Registry) (o : Options) (g : Graph) (sink : Diagnostics) :
    Checked (Graph × Except StageFailed Unit × Diagnostics) := do
  let (g, errors) ← annotated r o g
  let sink := sink ++ errors.map (·.diagnostic .annotate)
  return (g, sink.check .annotate, sink)

end Waveflow.Requirements
