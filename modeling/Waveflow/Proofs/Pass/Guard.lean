import Waveflow.Proofs.Decimal.Double
import Waveflow.Proofs.Graph.Order
import Waveflow.Proofs.Pass.Trail

/-!
# What the guard lets through

Nothing is known of a pass but that it keeps the numbers of a graph ascending.  `Graph.Permitted` is what the
guard makes sure of when it accepts the graph after such a pass (`verify_permitted`); it compares with the graph
before the same pass, so that what holds of one pass adds up along a trail (`trail_contained`).
-/

namespace Waveflow

variable {c : Capabilities} {g g' g'' : Graph} {n n' : Node} {id : NodeId}

lemma NodeKind.beq_trans {j k l : NodeKind} (h : (j == k) = true) (h' : (k == l) = true) : (j == l) = true := by
  match j, k, l, h, h' with
  | .input, .input, .input, _, _ => rfl
  | .constant x, .constant y, .constant z, h, h' => exact Decimal.beq_trans (x := x.value) (y := y.value) h h'
  | .operation a, .operation b, .operation d, h, h' =>
    have hab : a = b := beq_iff_eq.1 h
    rw [hab]
    exact h'

lemma orElse_eq_none {α : Type} {x : Option α} {y : Unit → Option α} (h : x.orElse y = none) :
    x = none ∧ y () = none := by
  cases x with
  | none => exact ⟨rfl, h⟩
  | some a => cases h

/-! ### One pass -/

/-- A graph by itself that the guard accepts. -/
structure Graph.Intact (g : Graph) : Prop where
  closed : g.Closed
  acyclic : g.Acyclic
  outputs_mem : ∀ out ∈ g.outputs, out.node ∈ g.ids

/-- How a graph may differ from the one before a pass with these capabilities. -/
structure Graph.Permitted (c : Capabilities) (g g' : Graph) : Prop where
  inputs : g'.inputs = g.inputs
  outputs : g'.outputs = g.outputs
  ty : ∀ n ∈ g.nodes, ∀ n' ∈ g'.nodes, n'.id = n.id → n'.ty = n.ty
  kind : c.rewire = false → ∀ n ∈ g.nodes, ∀ n' ∈ g'.nodes, n'.id = n.id → (n'.kind == n.kind) = true
  edges : c.rewire = false → ∀ n ∈ g.nodes, ∀ n' ∈ g'.nodes, n'.id = n.id → n'.inputs = n.inputs
  removed : c.remove = false → ∀ id ∈ g.ids, id ∈ g'.ids
  inserted : c.insert = false → ∀ id ∈ g'.ids, id ∈ g.ids

namespace Guard

lemma intact_of_structure (h : g.Ordered) (hok : structureBreach? g = .ok none) : g.Intact := by
  unfold structureBreach? at hok
  split at hok
  · cases hok
  next hdangling =>
  split at hok
  · cases hok
  next houtputs =>
  obtain ⟨order, horder, hok⟩ := Checked.bind_eq_ok.1 hok
  cases order with
  | error stuck => cases hok
  | ok order =>
    refine ⟨(Graph.dangling_eq_nil_iff h).1 (List.head?_eq_none_iff.1 hdangling),
      Graph.acyclic_of_order h horder, ?_⟩
    intro out hout
    have hpresent := List.find?_eq_none.1 houtputs out hout
    exact (Graph.contains_iff h).1 (by simpa using hpresent)

lemma interface_of_none (hok : interfaceBreach? g g' = none) : g'.inputs = g.inputs ∧ g'.outputs = g.outputs := by
  unfold interfaceBreach? at hok
  split at hok
  · cases hok
  next hinputs =>
  split at hok
  · cases hok
  next hlength =>
  rw [not_not] at hinputs hlength
  refine ⟨hinputs, List.ext_getElem hlength fun i hi hi' => ?_⟩
  rw [Option.map_eq_none_iff, List.find?_eq_none] at hok
  have hpair : (g'.outputs[i], g.outputs[i]) ∈ g'.outputs.zip g.outputs := by
    have hlt : i < (g'.outputs.zip g.outputs).length := by
      rw [List.length_zip]
      omega
    rw [← List.getElem_zip (h := hlt)]
    exact List.getElem_mem hlt
  simpa using hok _ hpair

/-- What the guard has seen of a node that is still there. -/
lemma node_of_none (hok : nodeBreach? c g' n = none) (hsome : g'.node? n.id = some n') :
    n'.ty = n.ty ∧ (c.rewire = false → (n'.kind == n.kind) = true) ∧
    (c.rewire = false → n'.inputs = n.inputs) := by
  unfold nodeBreach? at hok
  rw [hsome] at hok
  dsimp only at hok
  split at hok
  · cases hok
  next hty =>
  split at hok
  · cases hok
  next hkind =>
  split at hok
  · cases hok
  next hedges =>
  refine ⟨not_not.1 hty, fun hfixed => ?_, fun hfixed => ?_⟩
  · simpa [hfixed] using hkind
  · simpa [hfixed] using hedges

/-- **What the guard accepts is intact, and changed only as declared.** -/
theorem verify_permitted {name : String} (h : g.Ordered) (h' : g'.Ordered)
    (hok : verify name c g g' = .ok (.ok ())) : g'.Intact ∧ g.Permitted c g' := by
  have hbreach : breach? c g g' = .ok none := by
    unfold verify at hok
    obtain ⟨breach, hbreach, hok⟩ := Checked.bind_eq_ok.1 hok
    cases breach with
    | none => exact hbreach
    | some b => cases hok
  unfold breach? at hbreach
  obtain ⟨broken, hstructure, hbreach⟩ := Checked.bind_eq_ok.1 hbreach
  obtain ⟨rfl, hchange⟩ := orElse_eq_none (Except.ok.inj hbreach)
  unfold changeBreach? at hchange
  obtain ⟨hinterface, hchange⟩ := orElse_eq_none hchange
  obtain ⟨hnodes, hchange⟩ := orElse_eq_none hchange
  obtain ⟨hinserted, -⟩ := orElse_eq_none hchange
  obtain ⟨hinputs, houtputs⟩ := interface_of_none hinterface
  rw [Graph.byNumber_eq h, List.findSome?_eq_none_iff] at hnodes
  have hnode : ∀ n ∈ g.nodes, ∀ n' ∈ g'.nodes, n'.id = n.id → n'.ty = n.ty ∧
      (c.rewire = false → (n'.kind == n.kind) = true) ∧ (c.rewire = false → n'.inputs = n.inputs) :=
    fun n hn n' hn' hid => node_of_none (hnodes n hn) (hid ▸ h'.node?_of_mem hn')
  refine ⟨intact_of_structure h' hstructure, hinputs, houtputs, ?_, ?_, ?_, ?_, ?_⟩
  · exact fun n hn n' hn' hid => (hnode n hn n' hn' hid).1
  · exact fun hfixed n hn n' hn' hid => (hnode n hn n' hn' hid).2.1 hfixed
  · exact fun hfixed n hn n' hn' hid => (hnode n hn n' hn' hid).2.2 hfixed
  · intro hkeeps id hid
    obtain ⟨n, hn, rfl⟩ := Graph.mem_ids.1 hid
    by_contra hgone
    have hnot := hnodes n hn
    unfold nodeBreach? at hnot
    rw [(Graph.node?_eq_none_iff h').2 hgone, hkeeps] at hnot
    cases hnot
  · intro hkeeps id hid
    obtain ⟨n, hn, rfl⟩ := Graph.mem_ids.1 hid
    unfold insertedBreach? at hinserted
    rw [hkeeps, if_neg Bool.false_ne_true, Option.map_eq_none_iff, List.find?_eq_none] at hinserted
    simpa using hinserted n hn

/-- A pass under the guard that has not failed was let through. -/
lemma verify_of_run {p : Pass} {ctx : PassContext} {out : Outcome} {changed : Bool} (h : run p ctx g = .ok out)
    (hok : out.result = .ok changed) :
    p.run ctx g = .ok out ∧ verify p.name p.capabilities g out.graph = .ok (.ok ()) := by
  unfold run at h
  obtain ⟨made, hmade, h⟩ := Checked.bind_eq_ok.1 h
  split at h
  · next e he =>
    obtain rfl := Except.ok.inj h
    rw [he] at hok
    cases hok
  · next changed' hchanged =>
    obtain ⟨decision, hdecision, h⟩ := Checked.bind_eq_ok.1 h
    cases decision with
    | ok _ =>
      obtain rfl := Except.ok.inj h
      exact ⟨hmade, hdecision⟩
    | error e =>
      obtain rfl := Except.ok.inj h
      cases hok

end Guard

/-! ### Passes one after the other -/

/-- The pass leaves graphs with ascending numbers. -/
def Pass.KeepsOrder (p : Pass) : Prop := ∀ ctx g out, g.Ordered → p.run ctx g = .ok out → out.graph.Ordered

/-- How a graph may differ from the one before some passes, which have left the given trail. -/
structure Graph.Contained (passes : List Pass) (outs : List Outcome) (g g' : Graph) : Prop where
  intact : g'.Intact
  inputs : g'.inputs = g.inputs
  outputs : g'.outputs = g.outputs
  ty : ∀ out ∈ g.outputs, ∀ n ∈ g.nodes, n.id = out.node → ∃ n' ∈ g'.nodes, n'.id = n.id ∧ n'.ty = n.ty
  inserted : (∀ p ∈ passes, p.capabilities.insert = false) → ∀ id ∈ g'.ids, id ∈ g.ids
  removed : (∀ p ∈ passes, p.capabilities.remove = false) → ∀ id ∈ g.ids, id ∈ g'.ids
  fixed : (∀ p ∈ passes, p.capabilities.rewire = false) →
      ∀ n ∈ g.nodes, (∀ out ∈ outs, n.id ∈ out.graph.ids) →
    ∀ n' ∈ g'.nodes, n'.id = n.id → n'.inputs = n.inputs ∧ (n'.kind == n.kind) = true

namespace Graph

variable {p : Pass} {passes : List Pass} {out : Outcome} {outs : List Outcome}

lemma Permitted.exists_output (h : g.Permitted c g') (hintact : g'.Intact) {port : Output} (hport : port ∈ g.outputs)
    (hn : n ∈ g.nodes) (hid : n.id = port.node) : ∃ n' ∈ g'.nodes, n'.id = n.id ∧ n'.ty = n.ty := by
  have hmem : port.node ∈ g'.ids := hintact.outputs_mem port (h.outputs ▸ hport)
  obtain ⟨n', hn', hid'⟩ := mem_ids.1 hmem
  have hsame : n'.id = n.id := hid'.trans hid.symm
  exact ⟨n', hn', hsame, h.ty n hn n' hn' hsame⟩

lemma Permitted.contained (h : g.Permitted p.capabilities g') (hintact : g'.Intact) : g.Contained [p] [out] g' where
  intact := hintact
  inputs := h.inputs
  outputs := h.outputs
  ty := fun _ hport _ hn hid => h.exists_output hintact hport hn hid
  inserted := fun hkeeps => h.inserted (hkeeps p (by simp))
  removed := fun hkeeps => h.removed (hkeeps p (by simp))
  fixed := fun hkeeps n hn _ n' hn' hid =>
    have hrewire := hkeeps p (by simp)
    ⟨h.edges hrewire n hn n' hn' hid, h.kind hrewire n hn n' hn' hid⟩

lemma Contained.cons (h : g.Permitted p.capabilities out.graph) (hintact : out.graph.Intact)
    (h' : out.graph.Contained passes outs g') : g.Contained (p :: passes) (out :: outs) g' where
  intact := h'.intact
  inputs := h'.inputs.trans h.inputs
  outputs := h'.outputs.trans h.outputs
  ty := by
    intro port hport n hn hid
    obtain ⟨m, hm, hmid, hmty⟩ := h.exists_output hintact hport hn hid
    obtain ⟨n', hn', hid', hty'⟩ := h'.ty port (h.outputs ▸ hport) m hm (hmid.trans hid)
    exact ⟨n', hn', hid'.trans hmid, hty'.trans hmty⟩
  inserted := by
    intro hkeeps id hid
    have hmid := h'.inserted (fun q hq => hkeeps q (List.mem_cons_of_mem p hq)) id hid
    exact h.inserted (hkeeps p (by simp)) id hmid
  removed := by
    intro hkeeps id hid
    have hmid := h.removed (hkeeps p (by simp)) id hid
    exact h'.removed (fun q hq => hkeeps q (List.mem_cons_of_mem p hq)) id hmid
  fixed := by
    intro hkeeps n hn hnever n' hn' hid
    -- the node is there in between, with the edges and the kind of before
    obtain ⟨m, hm, hmid⟩ := mem_ids.1 (hnever out (by simp))
    have hrewire := hkeeps p (by simp)
    have hafter : ∀ o ∈ outs, m.id ∈ o.graph.ids := by
      intro o ho
      rw [hmid]
      exact hnever o (List.mem_cons_of_mem _ ho)
    obtain ⟨hedges, hkind⟩ := h'.fixed (fun q hq => hkeeps q (List.mem_cons_of_mem p hq)) m hm hafter n' hn'
      (hid.trans hmid.symm)
    exact ⟨hedges.trans (h.edges hrewire n hn m hm hmid), NodeKind.beq_trans hkind (h.kind hrewire n hn m hm hmid)⟩

end Graph

namespace Pipeline

variable {ctx : PassContext} {p : Pass} {passes rest : List Pass} {outs : List Outcome} {r : Registry}

/-- **What the guard makes sure of adds up along a trail.** -/
theorem trail_contained (horder : ∀ q ∈ p :: rest, q.KeepsOrder) (h : g.Ordered)
    (htrail : trail ctx (p :: rest) g = .ok outs) (hpassed : Passed outs) :
    g.Contained (p :: rest) outs (lastGraph g outs) := by
  induction rest generalizing p g outs with
  | nil =>
    obtain ⟨first, more, changed, rfl, hfirst, hresult, hmore, -⟩ := exists_of_trail_cons htrail hpassed
    obtain ⟨hrun, hverify⟩ := Guard.verify_of_run hfirst hresult
    have hordered := horder p (by simp) _ _ _ h hrun
    obtain ⟨hintact, hpermitted⟩ := Guard.verify_permitted h hordered hverify
    cases hmore
    exact hpermitted.contained hintact
  | cons q rest ih =>
    obtain ⟨first, more, changed, rfl, hfirst, hresult, hmore, hpassed'⟩ := exists_of_trail_cons htrail hpassed
    obtain ⟨hrun, hverify⟩ := Guard.verify_of_run hfirst hresult
    have hordered := horder p (by simp) _ _ _ h hrun
    obtain ⟨hintact, hpermitted⟩ := Guard.verify_permitted h hordered hverify
    rw [lastGraph_cons]
    exact (ih (fun q hq => horder q (List.mem_cons_of_mem p hq)) hordered hmore hpassed').cons hpermitted hintact

/-- A pipeline that gives a graph has gone through its rounds without a failure. -/
lemma iterate_of_optimize {pl : Pipeline} {sink sink' : Diagnostics} (h : pl.optimize r g sink = .ok (.ok g', sink')) :
    ∃ out changed, iterate ⟨r, pl.thermalCeiling⟩ pl.passes pl.rounds g = .ok out ∧ out.result = .ok changed ∧
      out.graph = g' := by
  obtain ⟨out, hout, ⟨e, -, hfailed, -⟩ | ⟨changed, late, hresult, -, -, hgraph⟩⟩ := optimize_cases h
  · cases hfailed
  · refine ⟨out, changed, hout, hresult, ?_⟩
    cases hcheck : sink'.check .optimize with
    | error failed =>
      rw [hcheck] at hgraph
      cases hgraph
    | ok _ =>
      rw [hcheck] at hgraph
      exact (Except.ok.inj hgraph).symm

/-- **The guard contains passes.**  Whatever a pipeline of one or more passes does, in however many rounds, a
graph that it gives is intact, and it differs from the graph before only as the passes have declared: with the
inputs and outputs of before, and the types of the outputs; with no new node unless a pass declares to insert,
all nodes unless one declares to remove; and unless one declares to rewire, a node that stays there all along
keeps its edges and its kind. -/
theorem optimize_contained {fixedPoint : Bool} {maxIterations : Nat} {ceiling : Option Float}
    {sink sink' : Diagnostics} (hne : passes ≠ []) (horder : ∀ p ∈ passes, p.KeepsOrder) (hg : g.Ordered)
    (hok : (ofPasses passes fixedPoint maxIterations ceiling).optimize r g sink = .ok (.ok g', sink')) :
    g'.Closed ∧ g'.Acyclic ∧ (∀ out ∈ g'.outputs, out.node ∈ g'.ids) ∧
    g'.inputs = g.inputs ∧ g'.outputs = g.outputs ∧
    (∀ out ∈ g.outputs, ∀ n ∈ g.nodes, n.id = out.node → ∃ n' ∈ g'.nodes, n'.id = n.id ∧
      n'.ty = n.ty) ∧
    ((∀ p ∈ passes, p.capabilities.insert = false) → ∀ id ∈ g'.ids, id ∈ g.ids) ∧
    ((∀ p ∈ passes, p.capabilities.remove = false) → ∀ id ∈ g.ids, id ∈ g'.ids) ∧
    ∃ rounds outs, trail ⟨r, ceiling⟩ (List.replicate rounds passes).flatten g = .ok outs ∧
      lastGraph g outs = g' ∧
      ((∀ p ∈ passes, p.capabilities.rewire = false) →
        ∀ n ∈ g.nodes, (∀ out ∈ outs, n.id ∈ out.graph.ids) → ∀ n' ∈ g'.nodes, n'.id = n.id →
          n'.inputs = n.inputs ∧ (n'.kind == n.kind) = true) := by
  obtain ⟨out, changed, hiterate, hresult, rfl⟩ := iterate_of_optimize hok
  obtain ⟨k, -, hpos, outs, htraced⟩ := iterate_traced hiterate
  have hrounds : 0 < k := hpos (rounds_ofPasses_pos ..)
  have hsame : ∀ p, p ∈ (List.replicate k passes).flatten ↔ p ∈ passes := by
    intro p
    simp [Nat.ne_of_gt hrounds]
  obtain ⟨p, rest, hflat⟩ : ∃ p rest, (List.replicate k passes).flatten = p :: rest := by
    refine List.exists_cons_of_ne_nil fun hnil => hne (List.eq_nil_iff_forall_not_mem.2 fun p hp => ?_)
    rw [← hsame p, hnil] at hp
    exact List.not_mem_nil hp
  have hpassed : Passed outs := by
    have hends := htraced.ends
    rw [hresult] at hends
    exact hends
  have htrail := htraced.trail_eq
  have hgraph := htraced.graph_eq
  rw [hflat] at hsame
  have hcontained : g.Contained (p :: rest) outs (lastGraph g outs) :=
    trail_contained (fun q hq => horder q ((hsame q).1 hq)) hg (hflat ▸ htrail) hpassed
  rw [← hgraph] at hcontained
  refine ⟨hcontained.intact.closed, hcontained.intact.acyclic, hcontained.intact.outputs_mem, hcontained.inputs,
    hcontained.outputs, hcontained.ty, ?_, ?_, k, outs, htrail, hgraph.symm, ?_⟩
  · exact fun hkeeps => hcontained.inserted fun q hq => hkeeps q ((hsame q).1 hq)
  · exact fun hkeeps => hcontained.removed fun q hq => hkeeps q ((hsame q).1 hq)
  · exact fun hkeeps => hcontained.fixed fun q hq => hkeeps q ((hsame q).1 hq)

/-! ### A pass that drops an unused node -/

/-- An input, an output that uses it, and a node that nothing uses. -/
def idle : Graph where
  name := "idle"
  nodes := [Node.plain 0 .input [] .scalar, Node.plain 1 (.operation .split) [0] .scalar,
    Node.plain 2 (.operation .fourier) [0] .scalar]
  inputs := [0]
  outputs := [⟨"y", 1⟩]
  hints := Hints.empty
  nextId := 3

def pruned : Graph := { idle with nodes := idle.nodes.take 2 }

/-- The pass puts a whole graph in place, and always claims a change. -/
def prune : Pass := .scripted "prune" ⟨false, true, false, false⟩ [.load pruned] true []

theorem optimize_contained_prune : ∃ sink',
    (ofPasses [prune] true 3 none).optimize Registry.builtin idle [] = .ok (.ok pruned, sink') ∧
      pruned.Acyclic ∧ pruned.outputs = idle.outputs ∧ (∀ id ∈ pruned.ids, id ∈ idle.ids) := by
  have horder : ∀ p ∈ [prune], p.KeepsOrder := by
    intro p hp ctx g out _ hrun
    rw [List.mem_singleton.1 hp] at hrun
    cases hrun
    exact Graph.ordered_iff.2 (by decide)
  obtain ⟨sink', hrun⟩ : ∃ sink',
      (ofPasses [prune] true 3 none).optimize Registry.builtin idle [] = .ok (.ok pruned, sink') := ⟨_, rfl⟩
  obtain ⟨-, hacyclic, -, -, houtputs, -, hinserted, -⟩ :=
    optimize_contained (by simp) horder (Graph.ordered_iff.2 (by decide)) hrun
  exact ⟨sink', hrun, hacyclic, houtputs, hinserted (by decide)⟩

end Pipeline

end Waveflow
