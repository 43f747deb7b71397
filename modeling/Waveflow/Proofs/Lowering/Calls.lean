import Waveflow.Proofs.Lowering.Accepts
import Waveflow.Proofs.Source.Settings

/-!
# Calls become operations

Every call that is lowered puts one operation into the graph, with the literals that hold for the call, and nothing
else is an operation.  A phrase therefore extends the list of operations (`Graph.Writes`), by the settings of its
calls if it leaves no error behind; the operations of a graph are the settings of its program, in order
(`lower_writes`).  All nodes come without attributes, and only operations have literals.
-/

namespace Waveflow

/-! ### The operations of a graph -/

/-- The operation of a node, with its literals. -/
def Node.operation? (n : Node) : Option (OpKind × Params) := n.op?.map fun op => (op, n.params)

/-- The node has no attributes, and no literals unless it is an operation. -/
def Node.Bare (n : Node) : Prop := n.attrs = Attributes.plain ∧ (n.op? = none → n.params = Dict.empty)

/-- The operation of a call, with the literals that hold for it. -/
def Setting.operation (s : Setting) : OpKind × Params := (s.spec.kind, s.literals)

namespace Graph

variable {g g' g'' : Graph} {n : Node} {more more' : List (OpKind × Params)}

/-- The operations of a graph with their literals, in the order of the nodes. -/
def operations (g : Graph) : List (OpKind × Params) := g.nodes.filterMap Node.operation?

/-- More operations have been put in, and no other node has literals or attributes. -/
structure Writes (more : List (OpKind × Params)) (g g' : Graph) : Prop where
  operations : g'.operations = g.operations ++ more
  bare : (∀ n ∈ g.nodes, n.Bare) → ∀ n ∈ g'.nodes, n.Bare

lemma Writes.of_nodes_eq (h : g'.nodes = g.nodes) : Writes [] g g' where
  operations := by
    unfold Graph.operations
    rw [h, List.append_nil]
  bare := fun hbare n hn => hbare n (h ▸ hn)

lemma Writes.refl (g : Graph) : Writes [] g g := .of_nodes_eq rfl

lemma Writes.trans (h : Writes more g g') (h' : Writes more' g' g'') : Writes (more ++ more') g g'' where
  operations := by rw [h'.operations, h.operations, List.append_assoc]
  bare := fun hbare => h'.bare (h.bare hbare)

/-- What stands beside the nodes does not matter. -/
lemma Writes.congr (h : Writes more g g') (hnodes : g''.nodes = g'.nodes) : Writes more g g'' := by
  have htrans := h.trans (.of_nodes_eq hnodes)
  rwa [List.append_nil] at htrans

lemma Writes.appended (g : Graph) (hn : n.Bare) : Writes n.operation?.toList g (g.appended [n]) where
  operations := by
    show (g.nodes ++ [n]).filterMap Node.operation? = g.nodes.filterMap Node.operation? ++ _
    rw [List.filterMap_append]
    cases hop : n.operation? <;> simp [hop]
  bare := by
    intro hbare m hm
    rcases List.mem_append.1 hm with hm | hm
    · exact hbare m hm
    · rw [List.mem_singleton.1 hm]
      exact hn

/-- A name is not part of an operation. -/
lemma Writes.named (hg : g.Ordered) (id : NodeId) (name : String) :
    Writes [] g (g.modify id (fun n => { n with name := some name })) := by
  rw [modify_eq hg]
  refine ⟨?_, fun hbare m hm => ?_⟩
  · show (g.nodes.map _).filterMap Node.operation? = _
    rw [List.filterMap_map, List.append_nil]
    refine List.filterMap_congr fun n _ => ?_
    dsimp only [Function.comp]
    split
    · rfl
    · rfl
  · obtain ⟨n, hn, rfl⟩ := List.mem_map.1 hm
    split
    · exact hbare n hn
    · exact hbare n hn

end Graph

/-! ### Phrases -/

namespace Lowering

open Waveflow.Graph (Writes)

variable {r : Registry} {outputs : List Declaration} {around : Params} {st st' : State} {id : NodeId}

lemma constant_writes {x : Double} (h : constant x st = .ok (id, st')) : Writes [] st.graph st'.graph := by
  unfold constant at h
  split at h
  · cases h
    exact .refl _
  · obtain ⟨out, hout, h⟩ := Checked.bind_eq_ok.1 h
    rw [Graph.append_ok hout] at h
    cases h
    have hbare : (Node.plain st.graph.nextId (.constant x) [] ValueType.scalar).Bare := ⟨rfl, fun _ => rfl⟩
    exact .appended _ hbare

lemma operand_writes {a : Argument} {lowered : Lowered NodeId} (h : operand a st = .ok (lowered, st')) :
    Writes [] st.graph st'.graph := by
  unfold operand at h
  split at h
  · split at h
    · cases h
      exact .refl _
    · split at h <;> cases h <;> exact .refl _
  · obtain ⟨⟨i, st₁⟩, hconstant, h⟩ := Checked.bind_eq_ok.1 h
    cases h
    exact constant_writes hconstant
  · cases h
    exact .refl _

lemma operands_writes {arguments : List Argument} {lowered : Lowered (List NodeId)}
    (h : operands arguments st = .ok (lowered, st')) : Writes [] st.graph st'.graph := by
  induction arguments generalizing st st' lowered with
  | nil =>
    cases h
    exact .refl _
  | cons a rest ih =>
    unfold operands at h
    obtain ⟨⟨first, st₁⟩, hfirst, h⟩ := Checked.bind_eq_ok.1 h
    have hwrites := operand_writes hfirst
    cases first with
    | failed e =>
      cases h
      exact hwrites
    | poisoned =>
      cases h
      exact hwrites
    | value i =>
      obtain ⟨⟨more, st₂⟩, hmore, h⟩ := Checked.bind_eq_ok.1 h
      have hrest := hwrites.trans (ih hmore)
      cases more <;> cases h <;> exact hrest

/-- What the setting of a call puts into a graph. -/
def callOperations (r : Registry) (around : Params) (c : Call) : List (OpKind × Params) :=
  (c.setting? r around).toList.map Setting.operation

/-- What a call puts into the graph: its operation, if it has a node. -/
def CallWrites (r : Registry) (around : Params) (c : Call) (g : Graph) (st' : State) : Lowered NodeId → Prop
  | .value _ => Writes (callOperations r around c) g st'.graph
  | _ => Writes [] g st'.graph

lemma call_writes {c : Call} {lowered : Lowered NodeId} (h : st.Sound outputs)
    (hok : call r around c st = .ok (lowered, st')) : CallWrites r around c st.graph st' lowered := by
  unfold call at hok
  split at hok
  · cases hok
    exact .refl _
  · next spec hspec =>
    obtain ⟨⟨ids, st₁⟩, hids, hok⟩ := Checked.bind_eq_ok.1 hok
    have hoperands := operands_writes hids
    cases ids with
    | failed e =>
      cases hok
      exact hoperands
    | poisoned =>
      cases hok
      exact hoperands
    | value ids =>
      have hnumbered := (operands_extended outputs hids).numbered h.graph.wellFormed.numbered
      have hok : addCall spec around c ids st₁ = .ok (lowered, st') := hok
      unfold addCall at hok
      split at hok
      · cases hok
        exact hoperands
      · next ty _ =>
        obtain ⟨added, hadded, hok⟩ := Checked.bind_eq_ok.1 hok
        cases added with
        | error e =>
          cases hok
          exact hoperands
        | ok added =>
          obtain ⟨-, rfl⟩ := Graph.require_append_ok hnumbered.ordered hadded
          cases hok
          have hbare : (callNode spec around c ids ty st₁.graph.nextId).Bare := ⟨rfl, fun hnone => by cases hnone⟩
          have hcall := hoperands.trans (Writes.appended st₁.graph hbare)
          show Writes (callOperations r around c) st.graph _
          rw [Graph.modify_appended_one hnumbered rfl, callParams_eq]
          unfold callOperations Call.setting?
          rw [hspec]
          exact hcall

/-- A call that uses a poisoned name comes after an error. -/
lemma errors_of_poisoned {c : Call} (h : st.Sound outputs) (hok : call r around c st = .ok (.poisoned, st')) :
    st'.errors ≠ [] := by
  have hplain : c.Plain fun _ => True := fun _ _ _ _ => trivial
  obtain ⟨hfine, -, hholds⟩ := (call_yields (I := silent) (ρ := fun _ => ()) h r around hplain).of_ok hok
  exact poisoned_errors hfine hholds

lemma nodes_designate (d : Declaration) (id : NodeId) (st : State) :
    (designate d id st).graph.nodes = st.graph.nodes := by
  unfold designate
  split
  · rfl
  split
  · rfl
  split
  · next g hok =>
    obtain ⟨ports, rfl⟩ := Graph.eq_of_designate hok
    rfl
  · rfl

lemma nodes_rebind (name : String) (id : NodeId) (st : State) :
    (rebind outputs name id st).graph.nodes = st.graph.nodes := by
  unfold rebind
  dsimp only
  split
  · split
    · exact nodes_designate ..
    · rfl
  · rfl

/-- A phrase puts operations into the graph, those of its calls if it leaves no error. -/
def Puts (expected : List (OpKind × Params)) (g : Graph) (st' : State) : Prop :=
  ∃ more, Writes more g st'.graph ∧ (st'.errors = [] → more = expected)

lemma assignment_puts {target : String} {c : Call} (h : st.Sound outputs)
    (hok : assignment r outputs around target c st = .ok st') :
    Puts (callOperations r around c) st.graph st' := by
  unfold assignment at hok
  obtain ⟨⟨lowered, st₁⟩, hcall, hok⟩ := Checked.bind_eq_ok.1 hok
  have hordered := (call_sound h hcall).1.graph.wellFormed.ordered
  have hwrites := call_writes h hcall
  cases lowered with
  | failed e =>
    cases hok
    exact ⟨[], hwrites, fun hnil => absurd hnil (State.fail_errors st₁ e)⟩
  | poisoned =>
    have herrors := errors_of_poisoned h hcall
    cases hok
    exact ⟨[], hwrites, fun hnil => absurd hnil herrors⟩
  | value id =>
    refine ⟨callOperations r around c, ?_, fun _ => rfl⟩
    have hnamed : Writes (callOperations r around c) st.graph
        (st₁.graph.modify id fun n => { n with name := some target }) := by
      have htrans := Writes.trans hwrites (Writes.named hordered id target)
      rwa [List.append_nil] at htrans
    dsimp only at hok
    split at hok
    · cases hok
      exact hnamed.congr (nodes_designate ..)
    · cases hok
      exact hnamed

lemma bareCall_puts {c : Call} (h : st.Sound outputs) (hok : bareCall r outputs around c st = .ok st') :
    Puts (callOperations r around c) st.graph st' := by
  unfold bareCall at hok
  obtain ⟨⟨lowered, st₁⟩, hcall, hok⟩ := Checked.bind_eq_ok.1 hok
  have hwrites := call_writes h hcall
  cases lowered with
  | failed e =>
    cases hname : rebound? c <;> rw [hname] at hok <;> cases hok <;>
      exact ⟨[], hwrites, fun hnil => absurd hnil (State.fail_errors st₁ e)⟩
  | poisoned =>
    have herrors := errors_of_poisoned h hcall
    cases hok
    exact ⟨[], hwrites, fun hnil => absurd hnil herrors⟩
  | value id =>
    refine ⟨callOperations r around c, ?_, fun _ => rfl⟩
    cases hname : rebound? c with
    | none =>
      rw [hname] at hok
      cases hok
      exact hwrites
    | some name =>
      rw [hname] at hok
      cases hok
      exact Writes.congr hwrites (nodes_rebind ..)

mutual

/-- A statement puts the operations of its calls into the graph. -/
theorem statement_puts {st st' : State} (h : st.Calm outputs) (around : Params) :
    (s : Statement) → statement r outputs around s st = .ok st' →
      Puts ((s.settings r around).map Setting.operation) st.graph st'
  | .assignment target c span, hok => by
    unfold statement at hok
    unfold Statement.settings
    exact assignment_puts h.toFine hok
  | .call c, hok => by
    unfold statement at hok
    unfold Statement.settings
    exact bareCall_puts h.toFine hok
  | .block label parameters body span, hok => by
    unfold statement at hok
    unfold Statement.settings
    rw [blockParams_eq] at hok
    exact statements_puts h _ body hok

/-- Statements put the operations of their calls into the graph, in order. -/
theorem statements_puts {st st' : State} (h : st.Calm outputs) (around : Params) :
    (body : List Statement) → statements r outputs around body st = .ok st' →
      Puts ((Statement.settingsAll r around body).map Setting.operation) st.graph st'
  | [], hok => by
    unfold statements at hok
    unfold Statement.settingsAll
    cases hok
    exact ⟨[], .refl _, fun _ => rfl⟩
  | s :: rest, hok => by
    unfold statements at hok
    unfold Statement.settingsAll
    obtain ⟨st₁, hfirst, hok⟩ := Checked.bind_eq_ok.1 hok
    obtain ⟨h₁, -⟩ := calm_statement h hfirst
    obtain ⟨-, hback⟩ := calm_statements h₁ hok
    obtain ⟨more, hwrites, hexpected⟩ := statement_puts h around s hfirst
    obtain ⟨more', hwrites', hexpected'⟩ := statements_puts h₁ around rest hok
    refine ⟨more ++ more', hwrites.trans hwrites', fun hnil => ?_⟩
    rw [hexpected (hback hnil), hexpected' hnil, List.map_append]

end

/-! ### Programs -/

lemma inputs_writes {ds : List Declaration} (hok : inputs ds st = .ok st') : Writes [] st.graph st'.graph := by
  induction ds generalizing st with
  | nil =>
    unfold inputs at hok
    cases hok
    exact .refl _
  | cons d rest ih =>
    unfold inputs at hok
    obtain ⟨⟨id, g⟩, hadd, hok⟩ := Checked.bind_eq_ok.1 hok
    cases Graph.addInput_ok hadd
    let n : Node := { Node.plain st.graph.nextId .input [] d.ty with name := some d.name }
    have hbare : n.Bare := ⟨rfl, fun _ => rfl⟩
    have hinput : Writes [] st.graph ({ st.graph.appended [n] with inputs := st.graph.inputs ++ [n.id] } : Graph) :=
      (Writes.appended st.graph hbare).congr rfl
    exact hinput.trans (ih hok)

/-- **The operations of a graph are the calls of its program**, with the literals that hold for them; no node has
attributes, and only operations have literals. -/
theorem lower_writes {name : String} {p : Program} (hok : lower r name p = .ok st) :
    (∀ n ∈ st.graph.nodes, n.Bare) ∧
      (st.errors = [] → st.graph.operations = (p.settings r).map Setting.operation) := by
  unfold lower at hok
  obtain ⟨st₁, hinputs, hok⟩ := Checked.bind_eq_ok.1 hok
  obtain ⟨st₂, hstatements, hok⟩ := Checked.bind_eq_ok.1 hok
  obtain rfl := Except.ok.inj hok
  obtain ⟨hcalm, -⟩ := (inputs_yields (I := silent) (ρ := fun _ => ())
    (settled_start (fun _ => True) p.outputs name) rfl p.inputs).of_ok hinputs
  obtain ⟨more, hwrites, hexpected⟩ := statements_puts hcalm Dict.empty p.statements hstatements
  have hall := (inputs_writes hinputs).trans hwrites
  refine ⟨hall.bare fun _ hn => absurd hn List.not_mem_nil, fun hnil => ?_⟩
  show st₂.graph.operations = _
  rw [hall.operations, hexpected (List.append_eq_nil_iff.1 hnil).1]
  rfl

lemma operations_of_build {name : String} {p : Program} {g : Graph} {sink sink' : Diagnostics}
    (h : build r name p sink = .ok (.ok g, sink')) :
    (∀ n ∈ g.nodes, n.Bare) ∧ g.operations = (p.settings r).map Setting.operation := by
  unfold build at h
  obtain ⟨st, hst, h⟩ := Checked.bind_eq_ok.1 h
  obtain ⟨hbare, hoperations⟩ := lower_writes hst
  dsimp only at h
  split at h
  · cases h
  · next hcheck =>
    obtain ⟨hgraph, -⟩ := Prod.mk.inj (Except.ok.inj h)
    obtain rfl := Except.ok.inj hgraph
    exact ⟨hbare, hoperations (errors_eq_nil_of_check hcheck)⟩

end Lowering

end Waveflow
