import Waveflow.Pass.Coherence

/-!
# The thermal pass

An operation whose load is above the ceiling is divided into parts of equal load, and its node
becomes the join of the parts.  Atomic operations, and those that would need too many parts, are
reported instead, once.
-/

namespace Waveflow

/-- The mark of a divided node, with the number of its parts. -/
def dividedMark : String := "thermal.decomposed"

/-- The mark of a node that has been reported. -/
def warnedMark : String := "thermal.warned"

namespace ThermalPass

/-- The most parts of one node. -/
def maxParts : Nat := 64

/-- The number of parts that brings a load under the ceiling: the load over the ceiling, rounded up, if
that is not too much.  A negative ratio gives no part. -/
def parts? (load ceiling : Float) : Option Nat :=
  let ratio := load / ceiling
  if ratio.isNaN then none
  else if ratio.isInf then (if 0.0 < ratio then none else some 0)
  else if Decimal.ceiling ratio ≤ maxParts then some (Decimal.ceiling ratio).toNat
  else none

/-- The node is too hot: above the ceiling, and neither a part nor divided. -/
def isHot (ceiling : Float) (n : Node) (load : Float) : Bool :=
  !(load ≤ ceiling) && !n.attrs.hasFlag partMark && (n.attrs.mark? dividedMark).isNone

/-- The parts of a node: copies that carry an equal share of the load. -/
def part (n : Node) (load : Float) (parts : Nat) : Node :=
  { n with
    name := none
    attrs := { n.attrs with thermal := .bounded (.ofFloat (load / parts.toFloat)) }.mark partMark (.flag true) }

/-- Insert copies of a node; gives their numbers. -/
def insertCopies (template : Node) (inputs : List NodeId) : Nat → Graph → Checked (Attempt (List NodeId))
  | 0, g => .ok ⟨g, .ok []⟩
  | count + 1, g => do
    let first := Attempt.ofEdit g (← g.insertLike template inputs)
    first.andThen fun id g => do
      let more ← insertCopies template inputs count g
      return ⟨more.graph, more.result.map (id :: ·)⟩

/-- The load of a join. -/
def joinLoad (r : Registry) : Float :=
  match r.specOf? .join with
  | some spec => spec.thermalLoad
  | none => 0.0

/-- What becomes of a divided node. -/
def joined (r : Registry) (parts : Nat) (n : Node) : Node :=
  { n with
    kind := .operation .join
    params := Dict.empty
    attrs := { n.attrs with thermal := .bounded (.ofFloat (joinLoad r)) }.mark dividedMark (.number parts.toFloat) }

/-- Divide a node into parts. -/
def divide (r : Registry) (g : Graph) (n : Node) (load : Float) (parts : Nat) : Checked (Attempt Unit) := do
  let copies ← insertCopies (part n load parts) n.inputs parts g
  copies.andThen fun ids g =>
    match g.setInputs n.id ids with
    | .error e => .ok ⟨g, .error (.graph e)⟩
    | .ok g => .ok ⟨g.modify n.id (joined r parts), .ok ()⟩

/-- The report of a node that stays whole. -/
def warning (atomic : Bool) (n : Node) (load ceiling : Float) : Diagnostic :=
  let subject :=
    if atomic then "atomic " ++ n.displayName
    else n.displayName ++ " (over " ++ toString maxParts ++ " parts)"
  { Diagnostic.warning .optimize .budgetExceeded
      (subject ++ " has thermal load " ++ numberText load ++ " above the ceiling " ++ numberText ceiling) with
    node := some n.id }

/-- Deal with one node. -/
def step (r : Registry) (ceiling : Float) (g : Graph) (id : NodeId) : Checked Outcome :=
  match g.node? id with
  | none => .ok ⟨g, .ok false, []⟩
  | some n =>
    match n.op?.bind r.specOf?, n.attrs.thermal.amount? with
    | some spec, some load =>
      if !isHot ceiling n load then .ok ⟨g, .ok false, []⟩
      else match if spec.atomic then none else parts? load ceiling with
        | some parts => do
          let divided ← divide r g n load parts
          return ⟨divided.graph, divided.result.map (fun _ => true), []⟩
        | none =>
          if n.attrs.hasFlag warnedMark then .ok ⟨g, .ok false, []⟩
          else
            let g := g.modify id (fun n => { n with attrs := n.attrs.mark warnedMark (.flag true) })
            .ok ⟨g, .ok true, [warning spec.atomic n load ceiling]⟩
    | _, _ => .ok ⟨g, .ok false, []⟩

/-- Deal with nodes in order, up to the first failure. -/
def steps (r : Registry) (ceiling : Float) : List NodeId → Graph → Checked Outcome
  | [], g => .ok ⟨g, .ok false, []⟩
  | id :: rest, g => do
    let first ← step r ceiling g id
    match first.result with
    | .error _ => return first
    | .ok changed =>
      let more ← steps r ceiling rest first.graph
      return ⟨more.graph, more.result.map (changed || ·), first.reported ++ more.reported⟩

/-- Divide what is above the ceiling; without a ceiling nothing happens. -/
def run (ctx : PassContext) (g : Graph) : Checked Outcome :=
  match ctx.thermalCeiling with
  | none => .ok ⟨g, .ok false, []⟩
  | some ceiling => steps ctx.registry ceiling g.ids g

end ThermalPass

/-- The thermal pass. -/
def thermalPass : Pass where
  name := "thermal"
  capabilities := ⟨true, false, true, true⟩
  run := ThermalPass.run

end Waveflow
