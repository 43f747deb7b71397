import Waveflow.Pass.Basic

/-!
# The coherence pass

Equal computations are merged into one, and every node is marked with the coherence that the longest
path into it consumes.  A node whose path goes over its budget is reported.
-/

namespace Waveflow

/-- The mark of the parts of a divided node. -/
def partMark : String := "thermal.part"

/-- The mark of the coherence consumed up to a node. -/
def pathMark : String := "coherence.path"

namespace CoherencePass

/-! ### Merging -/

/-- Two nodes compute the same. -/
def isDuplicate (a b : Node) : Bool :=
  a.kind == b.kind && a.inputs == b.inputs && a.params == b.params && a.ty == b.ty && a.attrs == b.attrs

/-- The node is a known operation without side effects, has inputs and is not a part. -/
def isCandidate (r : Registry) (n : Node) : Bool :=
  !n.inputs.isEmpty && !n.attrs.hasFlag partMark &&
    (match n.op?.bind r.specOf? with
      | some spec => !spec.sideEffecting
      | none => false)

/-- Move the uses of `id` to `keeper` and remove `id`. -/
def mergeInto (g : Graph) (id keeper : NodeId) : Attempt Unit :=
  match g.replaceUses id keeper none with
  | .error e => ⟨g, .error (.graph e)⟩
  | .ok (_, g) =>
    match g.remove id with
    | .error e => ⟨g, .error (.graph e)⟩
    | .ok (_, g) => ⟨g, .ok ()⟩

/-- The first of the kept nodes that computes the same as a node. -/
def keeper? (g : Graph) (kept : List NodeId) (n : Node) : Option NodeId :=
  kept.find? (fun k => match g.node? k with
    | some keep => isDuplicate keep n
    | none => false)

/-- Merge candidates into those kept before them; also gives the number of merged nodes. -/
def merge (g : Graph) (kept : List NodeId) : List NodeId → Attempt Nat
  | [] => ⟨g, .ok 0⟩
  | id :: rest =>
    if g.isOutput id then merge g (kept ++ [id]) rest
    else match g.node? id with
      | none => merge g kept rest
      | some n =>
        match keeper? g kept n with
        | none => merge g (kept ++ [id]) rest
        | some keeper =>
          let merged := mergeInto g id keeper
          match merged.result with
          | .error e => ⟨merged.graph, .error e⟩
          | .ok _ =>
            let more := merge merged.graph kept rest
            ⟨more.graph, more.result.map (· + 1)⟩

/-- Merge all equal computations. -/
def mergeAll (r : Registry) (g : Graph) : Attempt Nat :=
  merge g [] ((g.nodes.filter (isCandidate r)).map (·.id))

/-! ### Paths -/

/-- The larger of two doubles; a NaN gives way to the other. -/
def larger (a b : Float) : Float :=
  if a.isNaN then b else if b.isNaN then a else if a < b then b else a

/-- The coherence that a node itself consumes. -/
def cost (r : Registry) (n : Node) : Float :=
  match n.op?.bind r.specOf? with
  | some spec => spec.coherenceCost
  | none => 0.0

/-- The coherence consumed up to a node, given that up to its inputs. -/
def pathOf (r : Registry) (known : List (NodeId × Float)) (n : Node) : Float :=
  (n.inputs.filterMap (fun i => List.lookup i known)).foldl larger 0.0 + cost r n

/-- The node carries that path already. -/
def carries (n : Node) (path : Float) : Bool :=
  match n.attrs.mark? pathMark with
  | some (.number x) => x == path
  | _ => false

/-- The report of a path over its budget. -/
def exceeded (n : Node) (path : Float) : List Diagnostic :=
  if n.attrs.coherence.exceededBy path then
    [{ Diagnostic.warning .optimize .budgetExceeded (n.displayName ++ " needs coherence " ++ numberText path ++
        " but its budget is " ++ n.attrs.coherence.text) with node := some n.id }]
  else []

/-- The marked graph, whether a mark is new, and the reports. -/
structure Marked where
  graph : Graph
  changed : Bool
  reported : List Diagnostic

/-- Mark nodes with their paths, each after its inputs. -/
def markAlong (r : Registry) (g : Graph) (known : List (NodeId × Float)) : List NodeId → Marked
  | [] => ⟨g, false, []⟩
  | id :: rest =>
    match g.node? id with
    | none => markAlong r g known rest
    | some n =>
      let path := pathOf r known n
      let known := (id, path) :: known
      if carries n path then markAlong r g known rest
      else
        let marked := g.modify id (fun n => { n with attrs := n.attrs.mark pathMark (.number path) })
        let more := markAlong r marked known rest
        ⟨more.graph, true, exceeded n path ++ more.reported⟩

/-- Mark all nodes; a graph with a cycle stays as it is. -/
def markAll (r : Registry) (g : Graph) : Checked Marked := do
  match ← g.order with
  | .ok order => return markAlong r g [] order
  | .error _ => return ⟨g, false, []⟩

/-- Merge, then mark. -/
def run (ctx : PassContext) (g : Graph) : Checked Outcome := do
  let merged := mergeAll ctx.registry g
  match merged.result with
  | .error e => return ⟨merged.graph, .error e, []⟩
  | .ok count =>
    let marked ← markAll ctx.registry merged.graph
    return ⟨marked.graph, .ok (0 < count || marked.changed), marked.reported⟩

end CoherencePass

/-- The coherence pass. -/
def coherencePass : Pass where
  name := "coherence"
  capabilities := ⟨false, true, true, true⟩
  run := CoherencePass.run

end Waveflow
