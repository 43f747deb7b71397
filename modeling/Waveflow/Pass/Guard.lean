import Waveflow.Pass.Basic

/-!
# The guard around passes

After a pass the graph must have no dangling edge, no output without a node and no cycle; it must
have the inputs and outputs it had and the types of the nodes that are still there; and it may differ
from the graph before only in ways that the pass has declared.
-/

namespace Waveflow.Guard

/-- What is wrong with a graph by itself: the node concerned and the breach. -/
def structureBreach? (g : Graph) : Checked (Option (Option NodeId × Breach)) :=
  match g.dangling.head? with
  | some (consumer, missing) => .ok (some (some consumer, .danglingEdge missing))
  | none =>
    match g.outputs.find? (fun p => !g.contains p.node) with
    | some out => .ok (some (some out.node, .missingOutput out.name))
    | none => do
      match ← g.order with
      | .error stuck => return some (stuck.head?, .cycle)
      | .ok _ => return none

/-- What is wrong with the inputs and outputs of a graph after a pass. -/
def interfaceBreach? (before after : Graph) : Option (Option NodeId × Breach) :=
  if after.inputs ≠ before.inputs then some (none, .inputsChanged)
  else if after.outputs.length ≠ before.outputs.length then some (none, .outputsChanged)
  else ((after.outputs.zip before.outputs).find? (fun p => p.1 ≠ p.2)).map
    (fun (new, old) => (some new.node, .outputMoved old.name old.node new.node))

/-- What is wrong with a node after a pass. -/
def nodeBreach? (c : Capabilities) (after : Graph) (old : Node) : Option (Option NodeId × Breach) :=
  match after.node? old.id with
  | none => if c.remove then none else some (some old.id, .removed)
  | some new =>
    if new.ty ≠ old.ty then some (some old.id, .typeChanged old.ty.text new.ty.text)
    else if !(new.kind == old.kind) && !(c.insert && c.rewire) then some (some old.id, .kindChanged)
    else if new.inputs ≠ old.inputs ∧ c.rewire = false then some (some old.id, .rewired)
    else if !(new.attrs == old.attrs && new.params == old.params && new.name == old.name) && !c.attributes then
      some (some old.id, .attributesChanged)
    else none

/-- A node that the pass may not have added. -/
def insertedBreach? (c : Capabilities) (before after : Graph) : Option (Option NodeId × Breach) :=
  if c.insert then none
  else (after.nodes.find? (fun n => !before.ids.contains n.id)).map (fun n => (some n.id, .inserted))

/-- Hints that the pass may not have changed. -/
def hintsBreach? (c : Capabilities) (before after : Graph) : Option (Option NodeId × Breach) :=
  if after.hints ≠ before.hints ∧ c.attributes = false then some (none, .hintsChanged) else none

/-- What is wrong with a graph after a pass, compared with the graph before. -/
def changeBreach? (c : Capabilities) (before after : Graph) : Option (Option NodeId × Breach) :=
  (interfaceBreach? before after).orElse fun _ =>
  (before.byNumber.findSome? (nodeBreach? c after)).orElse fun _ =>
  (insertedBreach? c before after).orElse fun _ =>
  hintsBreach? c before after

/-- The first breach of the rules by a pass with these capabilities. -/
def breach? (c : Capabilities) (before after : Graph) : Checked (Option (Option NodeId × Breach)) := do
  let broken ← structureBreach? after
  return broken.orElse fun _ => changeBreach? c before after

/-- The graph after a pass is accepted, or the violation. -/
def verify (pass : String) (c : Capabilities) (before after : Graph) : Checked (Except CompileError Unit) := do
  match ← breach? c before after with
  | some (node, breach) => return .error (.invariantViolation pass node breach)
  | none => return .ok ()

/-- Run a pass and hold it to the rules. -/
def run (p : Pass) (ctx : PassContext) (g : Graph) : Checked Outcome := do
  let outcome ← p.run ctx g
  match outcome.result with
  | .error _ => return outcome
  | .ok _ =>
    match ← verify p.name p.capabilities g outcome.graph with
    | .ok _ => return outcome
    | .error e => return { outcome with result := .error e }

end Waveflow.Guard
