import Waveflow.Proofs.Diagnostic
import Waveflow.Proofs.Lowering.Built
import Waveflow.Proofs.Meaning.Program
import Waveflow.Proofs.Source.Literals

/-!
# The walk through a program

The walk carries a graph, the nodes behind names and bits, the names that failed, and the errors.
`State.Fine` is what holds of these at every place.  `State.Follows` ties the state to the environment of
a run: a name that is bound to a node has the value that the node computes.  As long as no error is
recorded no name is poisoned, so that every call of the text has been given a node, and the run goes
through as well.
-/

namespace Waveflow

open Checked (Yields)

variable {V : Type*} {I : Interpretation V} {ρ : NodeId → V} {env : Environment V} {v : V}
variable {P : Float → Prop} {name : String} {id : NodeId} {ids : List NodeId}

lemma Call.mem_operands {spec : OpSpec} {c : Call} {a : Argument} (ha : a ∈ c.operands spec) : a ∈ c.arguments := by
  rcases List.mem_append.1 ha with ha | ha
  · exact List.mem_of_mem_filter ha
  · obtain ⟨p, -, hp⟩ := List.mem_filterMap.1 ha
    exact List.mem_of_find?_eq_some hp

namespace Lowering

variable {outputs : List Declaration} {st st' st'' : State}

/-! ### States -/

namespace State

/-- The graph is built, with the declared outputs only; names and bits stand for nodes of it; and no name
is poisoned without an error. -/
structure Fine (P : Float → Prop) (outputs : List Declaration) (st : State) : Prop where
  graph : st.graph.Built P
  bound : ∀ name id, st.bindings.lookup name = some id → id ∈ st.graph.ids
  shared : ∀ bits id, st.constants.lookup bits = some id →
    ∃ n ∈ st.graph.nodes, ∃ x, n.id = id ∧ n.kind = .constant x ∧ x.bits = bits
  declared : ∀ name id, st.graph.output? name = some id → (outputNamed? outputs name).isSome
  clean : st.errors = [] → st.poisoned = []

/-- An output stands for the node behind its name. -/
def Designated (st : State) : Prop :=
  ∀ name id, st.graph.output? name = some id → st.bindings.lookup name = some id

/-- Only the graph has grown, and with it the constants. -/
structure Grew (st st' : State) : Prop where
  grows : st.graph.Grows st'.graph
  inputs : st'.graph.inputs = st.graph.inputs
  outputs : st'.graph.outputs = st.graph.outputs
  bindings : st'.bindings = st.bindings
  poisoned : st'.poisoned = st.poisoned
  errors : st'.errors = st.errors

lemma Grew.refl (st : State) : st.Grew st := ⟨Graph.Grows.refl _, rfl, rfl, rfl, rfl, rfl⟩

lemma Grew.trans (h : st.Grew st') (h' : st'.Grew st'') : st.Grew st'' where
  grows := h.grows.trans h'.grows
  inputs := h'.inputs.trans h.inputs
  outputs := h'.outputs.trans h.outputs
  bindings := h'.bindings.trans h.bindings
  poisoned := h'.poisoned.trans h.poisoned
  errors := h'.errors.trans h.errors

lemma Grew.output? (h : st.Grew st') (name : String) : st'.graph.output? name = st.graph.output? name := by
  unfold Graph.output?
  rw [h.outputs]

lemma Grew.designated (h : st.Grew st') (hd : st.Designated) : st'.Designated := by
  intro name id hid
  rw [h.bindings]
  exact hd name id ((h.output? name).symm.trans hid)

lemma Fine.output?_eq_none (h : st.Fine P outputs) (hnone : outputNamed? outputs name = none) :
    st.graph.output? name = none := by
  refine Option.eq_none_iff_forall_ne_some.2 fun id hid => ?_
  have hdeclared := h.declared name id hid
  rw [hnone] at hdeclared
  cases hdeclared

/-- A state that has only grown is fine when its graph and its constants are. -/
lemma Fine.grew (h : st.Fine P outputs) (hgrew : st.Grew st') (hgraph : st'.graph.Built P)
    (hshared : ∀ bits id, st'.constants.lookup bits = some id →
      ∃ n ∈ st'.graph.nodes, ∃ x, n.id = id ∧ n.kind = .constant x ∧ x.bits = bits) : st'.Fine P outputs where
  graph := hgraph
  bound := fun name id hid => hgrew.grows.mem_ids (h.bound name id (hgrew.bindings ▸ hid))
  shared := hshared
  declared := fun name id hid => h.declared name id ((hgrew.output? name).symm.trans hid)
  clean := fun herrors => hgrew.poisoned ▸ h.clean (hgrew.errors ▸ herrors)

lemma Fine.shared_grows (h : st.Fine P outputs) {g : Graph} (hgrows : st.graph.Grows g) (bits : UInt64)
    (id : NodeId) (hid : st.constants.lookup bits = some id) :
    ∃ n ∈ g.nodes, ∃ x, n.id = id ∧ n.kind = .constant x ∧ x.bits = bits := by
  obtain ⟨n, hn, x, hnid, hkind, hx⟩ := h.shared bits id hid
  obtain ⟨m, hm, hmid, hmkind, -⟩ := hgrows n hn
  exact ⟨m, hm, x, hmid.trans hnid, hmkind.trans hkind, hx⟩

/-! ### Simulation -/

/-- Every name that is bound to a node has the value that the node computes. -/
def Simulates (I : Interpretation V) (ρ : NodeId → V) (st : State) (env : Environment V) : Prop :=
  ∀ name id, st.bindings.lookup name = some id → ∃ v, env name = some v ∧ st.graph.Computes I ρ id v

lemma Simulates.grows (h : st.Simulates I ρ env) (hgrows : st.graph.Grows st'.graph)
    (hbindings : st'.bindings = st.bindings) : st'.Simulates I ρ env := by
  intro name id hid
  rw [hbindings] at hid
  obtain ⟨v, hv, hcomp⟩ := h name id hid
  exact ⟨v, hv, hcomp.grows hgrows⟩

lemma lookup_bind (st : State) (name : String) (id : NodeId) (other : String) :
    (st.bind name id).bindings.lookup other = if other = name then some id else st.bindings.lookup other := by
  show List.lookup other ((name, id) :: st.bindings) = _
  rw [List.lookup_cons]
  by_cases h : other = name
  · simp [h]
  · rw [beq_false_of_ne h, if_neg h]

lemma Simulates.bind (h : st.Simulates I ρ env) (hid : st.graph.Computes I ρ id v) (name : String) :
    (st.bind name id).Simulates I ρ (env.bind name v) := by
  intro other i hi
  rw [lookup_bind] at hi
  unfold Environment.bind
  split at hi
  · next hother =>
    obtain rfl := Option.some.inj hi
    exact ⟨v, by rw [hother, Function.update_self], hid⟩
  · next hother =>
    rw [Function.update_of_ne hother]
    exact h other i hi

/-- **The run goes from the one state to the other**: when no error is recorded, a run from an environment
of the one ends in an environment of the other. -/
structure Follows (I : Interpretation V) (ρ : NodeId → V) (run : Environment V → Option (Environment V))
    (st st' : State) : Prop where
  inputs : st'.graph.inputs = st.graph.inputs
  errors : st'.errors = [] → st.errors = []
  runs : st'.errors = [] → ∀ env, st.Simulates I ρ env → ∃ env', run env = some env' ∧
      st'.Simulates I ρ env'

/-- After an error there is nothing to show of the run. -/
lemma Follows.of_errors {run : Environment V → Option (Environment V)}
    (hinputs : st'.graph.inputs = st.graph.inputs) (herrors : st'.errors ≠ []) : Follows I ρ run st st' :=
  ⟨hinputs, fun h => absurd h herrors, fun h => absurd h herrors⟩

end State

open State

/-! ### Operands and calls -/

/-- What a phrase has been lowered to: a value with the property, or a name that it uses is poisoned, or
it has an error. -/
def Lowered.Holds {α : Type} (st : State) (Q : α → Prop) : Lowered α → Prop
  | .value a => Q a
  | .poisoned => st.poisoned ≠ []
  | .failed _ => True

/-- The node is there and computes what the phrase evaluates to in every environment of the state. -/
def Carries (I : Interpretation V) (ρ : NodeId → V) (st st' : State) (eval : Environment V → Option V)
    (id : NodeId) : Prop :=
  id ∈ st'.graph.ids ∧ ∀ env, st.Simulates I ρ env → ∃ v, eval env = some v ∧ st'.graph.Computes I ρ id v

lemma fine_constant (h : st.Fine P outputs) {x : Double} (hx : P x.value) :
    let n := Node.plain st.graph.nextId (.constant x) [] ValueType.scalar
    let st' : State := { st with
      graph := st.graph.appended [n], constants := (x.bits, st.graph.nextId) :: st.constants }
    st'.Fine P outputs ∧ st.Grew st' := by
  intro n st'
  have hn : n ∈ st'.graph.nodes := List.mem_append_right _ (List.mem_singleton.2 rfl)
  have hgrew : st.Grew st' := ⟨Graph.grows_appended _ _, rfl, rfl, rfl, rfl, rfl⟩
  refine ⟨h.grew hgrew ?_ ?_, hgrew⟩
  · refine h.graph.appended rfl (fun i hi => absurd hi List.not_mem_nil) (fun e => NodeKind.noConfusion e) ?_
    intro y hy
    exact NodeKind.constant.inj hy ▸ hx
  · intro bits id hid
    change List.lookup bits ((x.bits, st.graph.nextId) :: st.constants) = some id at hid
    rw [List.lookup_cons] at hid
    split at hid
    · next hbits =>
      exact ⟨n, hn, x, Option.some.inj hid, rfl, (beq_iff_eq.1 hbits).symm⟩
    · exact h.shared_grows hgrew.grows bits id hid

/-- The node of a constant computes it. -/
lemma constant_yields (h : st.Fine P outputs) {x : Double} (hx : P x.value) :
    Yields (constant x st) fun out => out.2.Fine P outputs ∧ st.Grew out.2 ∧ out.1 ∈ out.2.graph.ids ∧
      out.2.graph.Computes I ρ out.1 (I.constant x.bits) := by
  unfold constant
  split
  · next id hid =>
    obtain ⟨n, hn, y, rfl, hkind, hy⟩ := h.shared _ _ hid
    refine ⟨h, Grew.refl st, Graph.id_mem_ids hn, ?_⟩
    rw [← hy]
    exact .constant hn hkind
  · refine (Graph.append_yields _ _).bind ?_
    rintro _ rfl
    obtain ⟨hfine, hgrew⟩ := fine_constant h hx
    let n := Node.plain st.graph.nextId (.constant x) [] ValueType.scalar
    have hn : n ∈ (st.graph.appended [n]).nodes := List.mem_append_right _ (List.mem_singleton.2 rfl)
    have hcomp : (st.graph.appended [n]).Computes I ρ n.id (I.constant x.bits) := .constant hn rfl
    exact ⟨hfine, hgrew, Graph.id_mem_ids hn, hcomp⟩

lemma operand_yields (h : st.Fine P outputs) {a : Argument} (ha : a.Plain P) :
    Yields (operand a st) fun out => out.2.Fine P outputs ∧ st.Grew out.2 ∧
      out.1.Holds out.2 (Carries I ρ st out.2 (a.eval I)) := by
  unfold operand
  split
  · next name hvalue =>
    split
    · next id hid =>
      refine ⟨h, Grew.refl st, h.bound name id hid, fun env henv => ?_⟩
      unfold Argument.eval
      rw [hvalue]
      exact henv name id hid
    · split
      · next hpoisoned =>
        refine ⟨h, Grew.refl st, fun hnil => ?_⟩
        rw [hnil] at hpoisoned
        cases hpoisoned
      · exact ⟨h, Grew.refl st, trivial⟩
  · next x hvalue =>
    refine (constant_yields (I := I) (ρ := ρ) h (ha x hvalue)).bind ?_
    rintro ⟨id, st'⟩ ⟨hfine, hgrew, hid, hcomp⟩
    refine ⟨hfine, hgrew, hid, fun env _ => ⟨_, ?_, hcomp⟩⟩
    unfold Argument.eval
    rw [hvalue]
  · exact ⟨h, Grew.refl st, trivial⟩

/-- The nodes of operands compute their values, one for one. -/
lemma operands_yields (h : st.Fine P outputs) {arguments : List Argument} (ha : ∀ a ∈ arguments, a.Plain P) :
    Yields (operands arguments st) fun out => out.2.Fine P outputs ∧ st.Grew out.2 ∧
      out.1.Holds out.2 fun ids => (∀ i ∈ ids, i ∈ out.2.graph.ids) ∧ ∀ env, st.Simulates I ρ env →
        ∃ vs, arguments.mapM (Argument.eval I env) = some vs ∧
          List.Forall₂ (out.2.graph.Computes I ρ) ids vs := by
  induction arguments generalizing st with
  | nil =>
    refine ⟨h, Grew.refl st, fun i hi => absurd hi List.not_mem_nil, fun env _ => ⟨[], ?_, .nil⟩⟩
    exact List.mapM_nil
  | cons a rest ih =>
    unfold operands
    have hfirst := operand_yields (I := I) (ρ := ρ) h (ha a (List.mem_cons_self ..))
    refine hfirst.bind ?_
    rintro ⟨first, st₁⟩ ⟨hfine₁, hgrew₁, hholds₁⟩
    cases first with
    | failed e => exact ⟨hfine₁, hgrew₁, trivial⟩
    | poisoned => exact ⟨hfine₁, hgrew₁, hholds₁⟩
    | value id =>
      refine (ih hfine₁ fun b hb => ha b (List.mem_cons_of_mem _ hb)).bind ?_
      rintro ⟨more, st₂⟩ ⟨hfine₂, hgrew₂, hholds₂⟩
      have hgrew := hgrew₁.trans hgrew₂
      cases more with
      | failed e => exact ⟨hfine₂, hgrew, trivial⟩
      | poisoned => exact ⟨hfine₂, hgrew, hholds₂⟩
      | value ids =>
        obtain ⟨hid, heval⟩ := hholds₁
        obtain ⟨hids, hmore⟩ := hholds₂
        refine ⟨hfine₂, hgrew, ?_, fun env henv => ?_⟩
        · intro i hi
          rcases List.mem_cons.1 hi with rfl | hi
          · exact hgrew₂.grows.mem_ids hid
          · exact hids i hi
        · obtain ⟨v, hv, hcomp⟩ := heval env henv
          obtain ⟨vs, hvs, hcomps⟩ := hmore env (henv.grows hgrew₁.grows hgrew₁.bindings)
          refine ⟨v :: vs, ?_, .cons (hcomp.grows hgrew₂.grows) hcomps⟩
          have hv : a.eval I env = some v := hv
          rw [List.mapM_cons, hv, hvs]
          rfl

/-- The node that a call adds. -/
def callNode (spec : OpSpec) (around : Params) (c : Call) (ids : List NodeId) (ty : ValueType) (id : NodeId) :
    Node :=
  { Node.plain id (.operation spec.kind) ids ty with params := around.merge (c.attributes spec) }

lemma addCall_yields (h : st.Fine P outputs) (spec : OpSpec) (around : Params) (c : Call)
    (hids : ∀ i ∈ ids, i ∈ st.graph.ids) :
    Yields (addCall spec around c ids st) fun out => out.2.Fine P outputs ∧ st.Grew out.2 ∧
      out.1.Holds out.2 fun id => id ∈ out.2.graph.ids ∧ ∀ vs, List.Forall₂ (st.graph.Computes I ρ) ids vs →
        out.2.graph.Computes I ρ id (I.apply spec.kind (around.merge (c.attributes spec)) vs) := by
  unfold addCall
  split
  · exact ⟨h, Grew.refl st, trivial⟩
  · next ty _ =>
    refine (Graph.addOperation_yields h.graph.wellFormed.ordered spec.kind ty hids).bind ?_
    rintro _ rfl
    dsimp only
    rw [callParams_eq, Graph.modify_appended_one h.graph.wellFormed.numbered rfl]
    let n := callNode spec around c ids ty st.graph.nextId
    have hn : n ∈ (st.graph.appended [n]).nodes := List.mem_append_right _ (List.mem_singleton.2 rfl)
    have hgrew : st.Grew { st with graph := st.graph.appended [n] } :=
      ⟨Graph.grows_appended _ _, rfl, rfl, rfl, rfl, rfl⟩
    have hbuilt : (st.graph.appended [n]).Built P :=
      h.graph.appended rfl hids (fun e => NodeKind.noConfusion e) (fun x e => NodeKind.noConfusion e)
    refine ⟨h.grew hgrew hbuilt (h.shared_grows hgrew.grows), hgrew, Graph.id_mem_ids hn, fun vs hvs => ?_⟩
    exact hbuilt.computes_operation hn rfl (hvs.imp fun _ _ hcomp => hcomp.grows hgrew.grows)

/-- **The node of a call computes what the call evaluates to.** -/
theorem call_yields (h : st.Fine P outputs) (r : Registry) (around : Params) {c : Call} (hc : c.Plain P) :
    Yields (call r around c st) fun out => out.2.Fine P outputs ∧ st.Grew out.2 ∧
      out.1.Holds out.2 (Carries I ρ st out.2 (c.eval I r around)) := by
  unfold call
  split
  · exact ⟨h, Grew.refl st, trivial⟩
  · next spec hspec =>
    have harguments : ∀ a ∈ c.operands spec, a.Plain P := fun a ha => hc a (Call.mem_operands ha)
    refine (operands_yields (I := I) (ρ := ρ) h harguments).bind ?_
    rintro ⟨lowered, st₁⟩ ⟨hfine₁, hgrew₁, hholds⟩
    cases lowered with
    | failed e => exact ⟨hfine₁, hgrew₁, trivial⟩
    | poisoned => exact ⟨hfine₁, hgrew₁, hholds⟩
    | value ids =>
      obtain ⟨hids, hvalues⟩ := hholds
      refine (addCall_yields (I := I) (ρ := ρ) hfine₁ spec around c hids).mono ?_
      rintro ⟨lowered, st₂⟩ ⟨hfine₂, hgrew₂, hholds⟩
      refine ⟨hfine₂, hgrew₁.trans hgrew₂, ?_⟩
      cases lowered with
      | failed e => trivial
      | poisoned => exact hholds
      | value id =>
        refine ⟨hholds.1, fun env henv => ?_⟩
        obtain ⟨vs, hvs, hcomps⟩ := hvalues env henv
        refine ⟨_, ?_, hholds.2 vs hcomps⟩
        show c.eval I r around env = _
        unfold Call.eval
        rw [hspec, Option.bind_some, hvs]
        rfl

/-! ### Names and outputs -/

namespace State

/-- A state is settled between statements: an output stands for the node behind its name. -/
structure Settled (P : Float → Prop) (outputs : List Declaration) (st : State) : Prop extends st.Fine P outputs where
  designated : st.errors = [] → st.Designated

lemma Settled.grew (h : st.Settled P outputs) (hfine : st'.Fine P outputs) (hgrew : st.Grew st') :
    st'.Settled P outputs :=
  ⟨hfine, fun herrors => hgrew.designated (h.designated (hgrew.errors ▸ herrors))⟩

lemma Fine.bind (h : st.Fine P outputs) (hid : id ∈ st.graph.ids) (name : String) :
    (st.bind name id).Fine P outputs where
  graph := h.graph
  bound := by
    intro other i hi
    rw [lookup_bind] at hi
    split at hi
    · exact Option.some.inj hi ▸ hid
    · exact h.bound other i hi
  shared := h.shared
  declared := h.declared
  clean := h.clean

lemma fail_errors (st : State) (e : CompileError) : (st.fail e).errors ≠ [] :=
  List.append_ne_nil_of_right_ne_nil _ (List.cons_ne_nil _ _)

lemma Fine.fail (h : st.Fine P outputs) (e : CompileError) : (st.fail e).Fine P outputs :=
  ⟨h.graph, h.bound, h.shared, h.declared, fun herrors => absurd herrors (fail_errors st e)⟩

lemma Fine.poison (h : st.Fine P outputs) (herrors : st.errors ≠ []) (name : String) :
    (st.poison name).Fine P outputs :=
  ⟨h.graph, h.bound, h.shared, h.declared, fun hnil => absurd hnil herrors⟩

lemma Fine.settled (h : st.Fine P outputs) (herrors : st.errors ≠ []) : st.Settled P outputs :=
  ⟨h, fun hnil => absurd hnil herrors⟩

end State

/-- A declared output is let stand for a node, unless there is an error. -/
lemma designate_spec (h : st.Fine P outputs) (hid : id ∈ st.graph.ids) {output : Declaration}
    (hout : outputNamed? outputs name = some output) :
    (designate output id st).Fine P outputs ∧ st.graph.Grows (designate output id st).graph ∧
      (designate output id st).graph.inputs = st.graph.inputs ∧
      (designate output id st).bindings = st.bindings ∧
      ((designate output id st).errors = [] → st.errors = [] ∧ ∀ other,
        (designate output id st).graph.output? other = if other = name then some id else st.graph.output? other) := by
  have hname : output.name = name := by
    have hbeq := List.find?_some (p := fun d : Declaration => d.name == name) hout
    exact beq_iff_eq.1 hbeq
  obtain ⟨n, hn⟩ := h.graph.wellFormed.ordered.exists_node? hid
  obtain ⟨moved, hmoved, hnodes⟩ := Graph.designate_ok h.graph.wellFormed.ordered hid output.name
  unfold designate
  rw [hn, hmoved]
  dsimp only
  split
  · refine ⟨(h.fail _).poison (fail_errors _ _) _, Graph.Grows.refl _, rfl, rfl, fun hnil => ?_⟩
    exact absurd hnil (fail_errors st _)
  · have houtput := Graph.output?_designate hmoved
    rw [hname] at houtput
    refine ⟨⟨?_, h.bound, h.shared, ?_, h.clean⟩, Graph.Grows.refl _, rfl, rfl, fun hnil => ⟨hnil, houtput⟩⟩
    · refine h.graph.withOutputs fun out hmem => ?_
      rcases hnodes out hmem with hold | hnode
      · exact h.graph.outputs out hold
      · rwa [hnode]
    · intro other i hi
      rw [houtput] at hi
      split at hi
      · next hother =>
        rw [hother, hout]
        rfl
      · exact h.declared other i hi

/-- The name is bound, and the declared output of the name goes with it. -/
inductive Bound (outputs : List Declaration) (name : String) (id : NodeId) (st : State) : State → Prop
  | plain : st.graph.output? name = none → Bound outputs name id st (st.bind name id)
  | output {output : Declaration} : outputNamed? outputs name = some output →
      Bound outputs name id st (designate output id (st.bind name id))

/-- Binding a name to a node keeps the state settled, and binds it to the value of the node in the run. -/
lemma Bound.follows {eval : Environment V → Option V} (hbound : Bound outputs name id st' st'')
    (h : st.Settled P outputs) (hfine : st'.Fine P outputs) (hgrew : st.Grew st')
    (hcarries : Carries I ρ st st' eval id) :
    st''.Settled P outputs ∧ Follows I ρ (fun env => (eval env).map (env.bind name)) st st'' := by
  obtain ⟨hid, hvalue⟩ := hcarries
  -- the run binds the name whether or not an output goes with it
  have hruns : ∀ env, st.Simulates I ρ env → ∃ env', (eval env).map (env.bind name) = some env' ∧
      (st'.bind name id).Simulates I ρ env' := by
    intro env henv
    obtain ⟨v, hv, hcomp⟩ := hvalue env henv
    refine ⟨env.bind name v, by rw [hv, Option.map_some], ?_⟩
    exact (henv.grows hgrew.grows hgrew.bindings).bind hcomp name
  have hfine' := hfine.bind hid name
  cases hbound with
  | plain hnone =>
    refine ⟨⟨hfine', fun herrors other i hi => ?_⟩, hgrew.inputs, fun hnil => hgrew.errors ▸ hnil,
      fun _ => hruns⟩
    have hne : other ≠ name := by
      rintro rfl
      cases hnone.symm.trans hi
    rw [lookup_bind, if_neg hne]
    exact hgrew.designated (h.designated (hgrew.errors ▸ herrors)) other i hi
  | @output output hout =>
    obtain ⟨hfine'', hgrows, hinputs, hbindings, hout⟩ := designate_spec hfine' hid hout
    refine ⟨⟨hfine'', fun herrors other i hi => ?_⟩, hinputs.trans hgrew.inputs,
      fun hnil => hgrew.errors ▸ (hout hnil).1, fun _ env henv => ?_⟩
    · obtain ⟨hnil, houtput⟩ := hout herrors
      rw [houtput] at hi
      rw [hbindings, lookup_bind]
      split at hi
      · next hother => rwa [if_pos hother]
      · next hother =>
        rw [if_neg hother]
        exact hgrew.designated (h.designated (hgrew.errors ▸ hnil)) other i hi
    · obtain ⟨env', hrun, hsim⟩ := hruns env henv
      exact ⟨env', hrun, hsim.grows hgrows hbindings⟩

/-! ### Statements -/

lemma poisoned_errors (h : st.Fine P outputs) (hpoisoned : st.poisoned ≠ []) : st.errors ≠ [] :=
  fun hnil => hpoisoned (h.clean hnil)

/-- A phrase that has failed leaves an error, before or now. -/
lemma follows_error {run : Environment V → Option (Environment V)} (hfine : st'.Fine P outputs)
    (hgrew : st.Grew st'') (hinputs : st'.graph.inputs = st''.graph.inputs) (herrors : st'.errors ≠ []) :
    st'.Settled P outputs ∧ Follows I ρ run st st' :=
  ⟨hfine.settled herrors, .of_errors (hinputs.trans hgrew.inputs) herrors⟩

lemma assignment_yields (h : st.Settled P outputs) (r : Registry) (around : Params) (target : String) {c : Call}
    (hc : c.Plain P) (span : Span) :
    Yields (assignment r outputs around target c st) fun st' => st'.Settled P outputs ∧
      Follows I ρ ((Statement.assignment target c span).run I r around) st st' := by
  unfold assignment
  refine (call_yields (I := I) (ρ := ρ) h.toFine r around hc).bind ?_
  rintro ⟨lowered, st₁⟩ ⟨hfine, hgrew, hholds⟩
  cases lowered with
  | failed e =>
    exact follows_error ((hfine.fail e).poison (fail_errors _ e) target) hgrew rfl (fail_errors _ e)
  | poisoned =>
    have herrors := poisoned_errors hfine hholds
    exact follows_error (hfine.poison herrors target) hgrew rfl herrors
  | value id =>
    have hnamed : Graph.Renames (fun n => { n with name := some target }) := fun _ => ⟨rfl, rfl, rfl, rfl⟩
    have hordered := hfine.graph.wellFormed.ordered
    -- the node gets the name of the target, which changes no value
    let st₂ : State := { st₁ with graph := st₁.graph.modify id (fun n => { n with name := some target }) }
    have hgrew₂ : st₁.Grew st₂ :=
      ⟨Graph.grows_modify hordered hnamed, Graph.inputs_modify hordered, Graph.outputs_modify hordered,
        rfl, rfl, rfl⟩
    have hfine₂ : st₂.Fine P outputs :=
      hfine.grew hgrew₂ (hfine.graph.modify hnamed) (hfine.shared_grows hgrew₂.grows)
    have hcarries : Carries I ρ st st₂ (c.eval I r around) id := by
      refine ⟨hgrew₂.grows.mem_ids hholds.1, fun env henv => ?_⟩
      obtain ⟨v, hv, hcomp⟩ := hholds.2 env henv
      exact ⟨v, hv, hcomp.grows hgrew₂.grows⟩
    dsimp only
    cases hout : outputNamed? outputs target with
    | some output => exact (Bound.output hout).follows h hfine₂ (hgrew.trans hgrew₂) hcarries
    | none =>
      have hnone := hfine₂.output?_eq_none hout
      exact (Bound.plain hnone).follows h hfine₂ (hgrew.trans hgrew₂) hcarries

lemma bound_rebind (h : st.Fine P outputs) (name : String) (id : NodeId) :
    Bound outputs name id st (rebind outputs name id st) := by
  unfold rebind
  dsimp only
  split
  · next output hout =>
    split
    · exact .output hout
    · next hnone => exact .plain (Option.not_isSome_iff_eq_none.1 hnone)
  · next hnone => exact .plain (h.output?_eq_none hnone)

lemma bareCall_yields (h : st.Settled P outputs) (r : Registry) (around : Params) {c : Call} (hc : c.Plain P) :
    Yields (bareCall r outputs around c st) fun st' => st'.Settled P outputs ∧
      Follows I ρ ((Statement.call c).run I r around) st st' := by
  unfold bareCall
  refine (call_yields (I := I) (ρ := ρ) h.toFine r around hc).bind ?_
  rintro ⟨lowered, st₁⟩ ⟨hfine, hgrew, hholds⟩
  have htarget : c.target? = rebound? c := rfl
  cases lowered with
  | failed e =>
    cases hname : rebound? c with
    | some name =>
      exact follows_error ((hfine.fail e).poison (fail_errors _ e) name) hgrew rfl (fail_errors _ e)
    | none => exact follows_error (hfine.fail e) hgrew rfl (fail_errors _ e)
  | poisoned => exact follows_error hfine hgrew rfl (poisoned_errors hfine hholds)
  | value id =>
    rw [Statement.run_call, htarget]
    cases rebound? c with
    | some name => exact (bound_rebind hfine name id).follows h hfine hgrew hholds
    | none =>
      refine ⟨h.grew hfine hgrew, hgrew.inputs, fun hnil => hgrew.errors ▸ hnil, fun _ env henv => ?_⟩
      obtain ⟨v, hv, -⟩ := hholds.2 env henv
      have hv : c.eval I r around env = some v := hv
      exact ⟨env, by rw [hv]; rfl, henv.grows hgrew.grows hgrew.bindings⟩

mutual

/-- Lowering a statement follows its run. -/
theorem statement_yields {st : State} (h : st.Settled P outputs) (r : Registry) (around : Params) :
    (s : Statement) → (∀ c ∈ s.calls, c.Plain P) → Yields (statement r outputs around s st) fun st' =>
      st'.Settled P outputs ∧ Follows I ρ (s.run I r around) st st'
  | .assignment target c span, hc => by
    unfold statement
    refine assignment_yields h r around target (hc c ?_) span
    unfold Statement.calls
    exact List.mem_singleton.2 rfl
  | .call c, hc => by
    unfold statement
    refine bareCall_yields h r around (hc c ?_)
    unfold Statement.calls
    exact List.mem_singleton.2 rfl
  | .block label parameters body span, hc => by
    unfold statement
    rw [blockParams_eq, Statement.run_block]
    unfold Statement.calls at hc
    exact statements_yields h r _ body hc

/-- Lowering statements in order follows their run. -/
theorem statements_yields {st : State} (h : st.Settled P outputs) (r : Registry) (around : Params) :
    (body : List Statement) → (∀ c ∈ Statement.callsAll body, c.Plain P) →
      Yields (statements r outputs around body st) fun st' =>
        st'.Settled P outputs ∧ Follows I ρ (Statement.runAll I r around body) st st'
  | [], _ => by
    unfold statements
    rw [Statement.runAll_nil]
    exact ⟨h, rfl, fun hnil => hnil, fun _ env henv => ⟨env, rfl, henv⟩⟩
  | s :: rest, hc => by
    unfold statements
    unfold Statement.callsAll at hc
    refine (statement_yields h r around s fun c hmem => hc c (List.mem_append_left _ hmem)).bind ?_
    rintro st₁ ⟨h₁, hfollows₁⟩
    refine (statements_yields h₁ r around rest fun c hmem => hc c (List.mem_append_right _ hmem)).mono ?_
    rintro st₂ ⟨h₂, hfollows₂⟩
    refine ⟨h₂, hfollows₂.inputs.trans hfollows₁.inputs,
      fun hnil => hfollows₁.errors (hfollows₂.errors hnil), fun hnil env henv => ?_⟩
    obtain ⟨env₁, hrun₁, henv₁⟩ := hfollows₁.runs (hfollows₂.errors hnil) env henv
    obtain ⟨env₂, hrun₂, henv₂⟩ := hfollows₂.runs hnil env₁ henv₁
    refine ⟨env₂, ?_, henv₂⟩
    rw [Statement.runAll_cons]
    dsimp only
    rw [hrun₁]
    exact hrun₂

end

/-! ### Programs -/

lemma settled_start (P : Float → Prop) (outputs : List Declaration) (name : String) :
    (State.start name).Settled P outputs where
  graph := Graph.built_empty name
  bound := fun _ _ h => by cases h
  shared := fun _ _ h => by cases h
  declared := fun _ _ h => by cases h
  clean := fun _ => rfl
  designated := fun _ _ _ h => by cases h

/-- The state with one more input. -/
def State.withInput (st : State) (d : Declaration) : State :=
  let n : Node := { Node.plain st.graph.nextId .input [] d.ty with name := some d.name }
  let g : Graph := { st.graph.appended [n] with inputs := st.graph.inputs ++ [n.id] }
  ({ st with graph := g } : State).bind d.name n.id

lemma inputs_cons (d : Declaration) (rest : List Declaration) {Q : State → Prop}
    (h : Yields (inputs rest (st.withInput d)) Q) : Yields (inputs (d :: rest) st) Q := by
  unfold inputs Graph.addInput
  have hadd := Graph.append_yields st.graph fun id => { Node.plain id .input [] d.ty with name := some d.name }
  refine (hadd.bind ?_).bind (P := (· = (st.graph.nextId, (st.withInput d).graph))) ?_
  · rintro _ rfl
    exact rfl
  · rintro _ rfl
    exact h

/-- A further input, as long as no output stands for a node. -/
lemma settled_withInput (h : st.Settled P outputs) (hnone : st.graph.outputs = []) (d : Declaration) :
    (st.withInput d).Settled P outputs ∧ ∀ env, st.Simulates I ρ env →
      (st.withInput d).Simulates I ρ (env.bind d.name (ρ st.graph.nextId)) := by
  let n : Node := { Node.plain st.graph.nextId .input [] d.ty with name := some d.name }
  let g : Graph := { st.graph.appended [n] with inputs := st.graph.inputs ++ [n.id] }
  have hn : n ∈ g.nodes := List.mem_append_right _ (List.mem_singleton.2 rfl)
  have hgrows : st.graph.Grows g := fun m hm => ⟨m, List.mem_append_left _ hm, rfl, rfl, rfl, rfl⟩
  have houtput : ∀ name id, g.output? name ≠ some id := by
    intro name id hid
    change (st.graph.outputs.find? _).map _ = some id at hid
    rw [hnone] at hid
    cases hid
  have hfine : State.Fine P outputs { st with graph := g } :=
    ⟨h.graph.appended_input rfl rfl rfl, fun name id hid => hgrows.mem_ids (h.bound name id hid),
      h.shared_grows hgrows, fun name id hid => absurd hid (houtput name id), h.clean⟩
  refine ⟨⟨hfine.bind (Graph.id_mem_ids hn) d.name, fun _ name id hid => absurd hid (houtput name id)⟩, ?_⟩
  intro env henv
  have hcomp : g.Computes I ρ n.id (ρ n.id) := .input hn rfl
  have hsim : State.Simulates I ρ { st with graph := g } env := henv.grows hgrows rfl
  exact hsim.bind hcomp d.name

/-- The declared inputs become the inputs of the graph, in order, and have their values in the run. -/
lemma inputs_yields (h : st.Settled P outputs) (hnone : st.graph.outputs = []) (ds : List Declaration) :
    Yields (inputs ds st) fun st' => st'.Settled P outputs ∧ ∃ added,
      st'.graph.inputs = st.graph.inputs ++ added ∧ added.length = ds.length ∧
      ∀ env, st.Simulates I ρ env → st'.Simulates I ρ (Program.bindInputs ds (added.map ρ) env) := by
  induction ds generalizing st with
  | nil =>
    unfold inputs
    exact ⟨h, [], (List.append_nil _).symm, rfl, fun env henv => henv⟩
  | cons d rest ih =>
    obtain ⟨hsettled, hbind⟩ := settled_withInput (I := I) (ρ := ρ) h hnone d
    refine inputs_cons d rest ((ih hsettled hnone).mono ?_)
    rintro st' ⟨hst', added, hinputs, hlength, hsim⟩
    refine ⟨hst', st.graph.nextId :: added, ?_, congrArg (· + 1) hlength, fun env henv => hsim _ (hbind env henv)⟩
    rw [hinputs]
    exact List.append_assoc ..

/-- No output dangles: each stands for a node. -/
lemma exists_output (h : danglingOutputs outputs st = []) (hpoisoned : st.poisoned = []) {o : Declaration}
    (ho : o ∈ outputs) : ∃ id, st.graph.output? o.name = some id := by
  unfold danglingOutputs at h
  have hnot := List.filter_eq_nil_iff.1 (List.map_eq_nil_iff.1 h) o ho
  rw [hpoisoned] at hnot
  cases hout : st.graph.output? o.name with
  | some id => exact ⟨id, rfl⟩
  | none => simp [hout] at hnot

/-- What a graph has to do with the program that it was made from: the program can be run on values for the
inputs, and in the end every declared output has the value of the node that it stands for. -/
def Implements (I : Interpretation V) (ρ : NodeId → V) (r : Registry) (p : Program) (g : Graph) : Prop :=
  g.inputs.length = p.inputs.length ∧ ∃ env, p.run I r (g.inputs.map ρ) = some env ∧
    ∀ o ∈ p.outputs, ∃ id v, g.output? o.name = some id ∧ env o.name = some v ∧ g.Computes I ρ id v

/-- **Lowering follows the run of the program.** -/
theorem lower_yields (I : Interpretation V) (ρ : NodeId → V) (r : Registry) (name : String) {p : Program}
    (hp : ∀ c ∈ Statement.callsAll p.statements, c.Plain P) :
    Yields (lower r name p) fun st => st.graph.Built P ∧ (st.errors = [] → Implements I ρ r p st.graph) := by
  unfold lower
  refine (inputs_yields (I := I) (ρ := ρ) (settled_start P p.outputs name) rfl p.inputs).bind ?_
  rintro st₁ ⟨h₁, added, hinputs, hlength, hsim⟩
  refine (statements_yields (I := I) (ρ := ρ) h₁ r Dict.empty p.statements hp).bind ?_
  rintro st₂ ⟨h₂, hfollows⟩
  have hinputs : st₂.graph.inputs = added := hfollows.inputs.trans hinputs
  refine ⟨h₂.graph, fun hnil => ?_⟩
  obtain ⟨herrors, hdangling⟩ := List.append_eq_nil_iff.1 hnil
  have henv : st₁.Simulates I ρ (Program.bindInputs p.inputs (added.map ρ) fun _ => none) :=
    hsim _ fun name id hid => by cases hid
  obtain ⟨env, hrun, henv⟩ := hfollows.runs herrors _ henv
  refine ⟨hinputs.symm ▸ hlength, env, hinputs.symm ▸ hrun, fun o ho => ?_⟩
  obtain ⟨id, hid⟩ := exists_output hdangling (h₂.clean herrors) ho
  obtain ⟨v, hv, hcomp⟩ := henv o.name id (h₂.designated herrors o.name id hid)
  exact ⟨id, v, hid, hv, hcomp⟩

/-- How lowering ends: with a graph that does what the program says, or with errors of its stage. -/
def Delivers (P : Float → Prop) (I : Interpretation V) (ρ : NodeId → V) (r : Registry) (p : Program)
    (sink : Diagnostics) : Except StageFailed Graph → Prop
  | .ok g => g.Built P ∧ Implements I ρ r p g ∧ ¬ sink.Failing .build
  | .error _ => sink.Failing .build

lemma unusedOutputs_warns (g : Graph) : Warns .build (unusedOutputs g) := by
  intro d hd
  obtain ⟨out, -, rfl⟩ := List.mem_map.1 hd
  exact ⟨rfl, rfl⟩

lemma unusedValues_warns (g : Graph) : Warns .build (unusedValues g) := by
  intro d hd
  obtain ⟨n, -, rfl⟩ := List.mem_map.1 hd
  exact ⟨rfl, rfl⟩

theorem build_yields (I : Interpretation V) (ρ : NodeId → V) (r : Registry) (name : String) {p : Program}
    (hp : ∀ c ∈ Statement.callsAll p.statements, c.Plain P) (sink : Diagnostics) :
    Yields (build r name p sink) fun out =>
      Delivers P I ρ r p out.2 out.1 ∧ ∀ d ∈ out.2, d ∈ sink ∨ d.stage = .build := by
  unfold build
  refine (lower_yields I ρ r name hp).bind ?_
  rintro st ⟨hbuilt, himplements⟩
  dsimp only
  have herrors : ∀ d ∈ sink ++ st.errors.map (·.diagnostic .build), d ∈ sink ∨ d.stage = .build := by
    intro d hd
    rcases List.mem_append.1 hd with hd | hd
    · exact .inl hd
    · obtain ⟨e, -, rfl⟩ := List.mem_map.1 hd
      exact .inr rfl
  split
  · next failed hcheck => exact ⟨Diagnostics.failing_of_check hcheck, herrors⟩
  · next hcheck =>
    refine ⟨⟨hbuilt, himplements (errors_eq_nil_of_check hcheck), ?_⟩, fun d hd => ?_⟩
    · rintro ⟨d, hd, hstage, herror⟩
      simp only [List.mem_append] at hd
      rcases hd with (hd | hd) | hd
      · exact Diagnostics.check_eq_ok_iff.1 hcheck ⟨d, List.mem_append.2 hd, hstage, herror⟩
      · exact Bool.false_ne_true (((unusedOutputs_warns _).isError hd).symm.trans herror)
      · exact Bool.false_ne_true (((unusedValues_warns _).isError hd).symm.trans herror)
    · simp only [List.mem_append] at hd
      rcases hd with (hd | hd) | hd
      · exact herrors d (List.mem_append.2 hd)
      · exact .inr (unusedOutputs_warns _ d hd).2
      · exact .inr (unusedValues_warns _ d hd).2

end Lowering

end Waveflow
