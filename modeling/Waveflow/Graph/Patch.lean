import Waveflow.Graph.Edit

/-!
# Patching a graph

Unguarded changes of single nodes, and whole graphs put in place.  They can leave a graph that no
sequence of guarded edits makes; the checks around passes are there to find that out.
-/

namespace Waveflow

/-- New values for parts of a node. -/
structure NodePatch where
  name : Option String
  kind : Option NodeKind
  ty : Option ValueType
  coherence : Option Budget
  thermal : Option Budget
  correction : Option Correction
  params : Option Params
  marks : Dict AttrValue

/-- The node with the given parts replaced and the marks added. -/
def NodePatch.apply (p : NodePatch) (n : Node) : Node :=
  { n with
    name := p.name.orElse (fun _ => n.name)
    kind := p.kind.getD n.kind
    ty := p.ty.getD n.ty
    params := p.params.getD n.params
    attrs :=
      { coherence := p.coherence.getD n.attrs.coherence
        thermal := p.thermal.getD n.attrs.thermal
        correction := p.correction.getD n.attrs.correction
        extra := n.attrs.extra.merge p.marks } }

/-- A change of a graph, guarded or not. -/
inductive Change where
  | edit (e : Edit)
  /-- Add a copy of a node of the graph. -/
  | copy (template : NodeId) (inputs : List NodeId)
  /-- Replace the hints by those of some groups. -/
  | group (groups : List (List NodeId))
  /-- Replace the edges of a node without a look at what they come from. -/
  | rewire (node : NodeId) (inputs : List NodeId)
  /-- Replace parts of a node. -/
  | patch (node : NodeId) (p : NodePatch)
  /-- Lower a raised flag, raise any other mark. -/
  | toggle (node : NodeId) (key : String)
  /-- Put another graph in its place. -/
  | load (graph : Graph)

namespace Change

/-- Make a change. -/
def apply (c : Change) (g : Graph) : Checked Edited :=
  match c with
  | edit e => e.apply g
  | copy template inputs =>
    match g.node? template with
    | some node => (Edit.insertLike node inputs).apply g
    | none => .ok (.error (.unknownNode template))
  | group groups =>
    let (ids, hints) := Hints.empty.addAll groups
    .ok (.ok (.groups ids, g.setHints hints))
  | rewire node inputs => .ok (.ok (.flag (g.contains node), g.modify node (fun n => { n with inputs := inputs })))
  | patch node p => .ok (.ok (.flag (g.contains node), g.modify node p.apply))
  | toggle node key =>
    match g.node? node with
    | some n =>
      let raised := !n.attrs.hasFlag key
      .ok (.ok (.flag raised, g.modify node (fun n => { n with attrs := n.attrs.mark key (.flag raised) })))
    | none => .ok (.ok (.flag false, g))
  | load graph => .ok (.ok (.nothing, graph))

end Change

end Waveflow
