import Waveflow.Proofs.Lowering.Calls
import Waveflow.Proofs.Operation.Registry

/-!
# The shape of a graph that is built

The nodes of a graph that is built are numbered from zero without a gap: first the declared inputs, then constants and
operations as the walk comes to them, each after the nodes that it uses.  There is one operation for every call, in the
order of the walk, with the type that its operation gives for the types of its inputs (`Graph.Performs`), and one
constant for every number that some call has as an operand, shared by its bits.  `build_shape` says so of every program
that is lowered without an error, whether it follows the rules or not.

The walk is followed by `State.Stocked`: what has been put into the graph for the calls so far, and for the operands of
the call that is being lowered.
-/

namespace Waveflow

/-! ### Numbers and constants -/

/-- The bits of the number that an argument is. -/
def Argument.bits? (a : Argument) : Option UInt64 := (a.literal?.bind Literal.number?).map Double.bits

/-- The bits of a constant. -/
def Node.bits? (n : Node) : Option UInt64 :=
  match n.kind with
  | .constant x => some x.bits
  | _ => none

/-- The bits of the numbers among the operands of a call. -/
def Call.numbers (r : Registry) (c : Call) : List UInt64 :=
  match r.callable? c.operation with
  | some spec => (c.operands spec).filterMap Argument.bits?
  | none => []

/-- The bits of the numbers that the calls of a program have as operands. -/
def Program.numbers (r : Registry) (p : Program) : List UInt64 :=
  (Statement.callsAll p.statements).flatMap (Call.numbers r)

/-- The node is the input that is declared. -/
def Node.Declares (n : Node) (d : Declaration) : Prop :=
  n.kind = .input ∧ n.name = some d.name ∧ n.ty = d.ty ∧ n.inputs = []

lemma Node.isConstant_iff {n : Node} : n.isConstant = true ↔ ∃ b, n.bits? = some b := by
  unfold isConstant bits?
  cases n.kind <;> simp

lemma Node.isOperation_iff {n : Node} : n.isOperation = true ↔ ∃ op, n.kind = .operation op := by
  unfold isOperation
  cases n.kind <;> simp

section Related

variable {α β : Type*} {R : α → β → Prop} {as : List α} {bs : List β}

lemma exists_of_mem_left (h : List.Forall₂ R as bs) {a : α} (ha : a ∈ as) : ∃ b ∈ bs, R a b := by
  induction h with
  | nil => cases ha
  | cons hab _ ih =>
    rcases List.mem_cons.1 ha with rfl | ha
    · exact ⟨_, List.mem_cons_self .., hab⟩
    · obtain ⟨b, hb, hr⟩ := ih ha
      exact ⟨b, List.mem_cons_of_mem _ hb, hr⟩

lemma exists_of_mem_right (h : List.Forall₂ R as bs) {b : β} (hb : b ∈ bs) : ∃ a ∈ as, R a b :=
  exists_of_mem_left h.flip hb

end Related

namespace Graph

variable {r : Registry} {g g' : Graph} {n : Node} {c : Call} {id : NodeId} {a : Argument}

/-- The bits of the constants, in the order of the nodes. -/
def bits (g : Graph) : List UInt64 := g.nodes.filterMap Node.bits?

/-- The node stands for the operand: the operand is a name, or the node is the constant with its bits. -/
def Supplies (g : Graph) (id : NodeId) (a : Argument) : Prop :=
  ∃ n ∈ g.nodes, n.id = id ∧ ∀ b, a.bits? = some b → n.bits? = some b

/-- The node performs the call: it is of the called operation, has a node for each operand, and its type is that which
the operation gives for the types of its inputs. -/
def Performs (r : Registry) (g : Graph) (n : Node) (c : Call) : Prop :=
  ∃ spec, r.callable? c.operation = some spec ∧ n.kind = .operation spec.kind ∧
    List.Forall₂ g.Supplies n.inputs (c.operands spec) ∧
    ∃ types, List.Forall₂ g.HasType n.inputs types ∧ spec.resultType types = .ok n.ty

/-- Every operation has the type that its entry in the registry gives for the types of its inputs. -/
def WellTyped (r : Registry) (g : Graph) : Prop :=
  ∀ n ∈ g.nodes, ∀ op, n.kind = .operation op → ∃ spec, r.specOf? op = some spec ∧
    ∃ types, List.Forall₂ g.HasType n.inputs types ∧ spec.resultType types = .ok n.ty

lemma mem_bits {b : UInt64} : b ∈ g.bits ↔ ∃ n ∈ g.nodes, n.bits? = some b := List.mem_filterMap

lemma bits_appended (g : Graph) (n : Node) : (g.appended [n]).bits = g.bits ++ n.bits?.toList := by
  unfold bits appended
  cases h : n.bits? <;> simp [h]

/-- Constants are told apart by their bits. -/
lemma eq_of_bits (h : g.bits.Nodup) {m : Node} {b : UInt64} (hm : m ∈ g.nodes) (hn : n ∈ g.nodes)
    (hb : m.bits? = some b) (hb' : n.bits? = some b) : m = n := by
  by_contra hne
  let apart : Node → Node → Prop := fun x y => ∀ c, x.bits? = some c → ∀ c', y.bits? = some c' → c ≠ c'
  have hsymm : Std.Symm apart := ⟨fun x y hxy c hc c' hc' heq => hxy c' hc' c hc heq.symm⟩
  have hpair : g.nodes.Pairwise apart := List.pairwise_filterMap.1 h
  exact hpair.forall hm hn hne b hb b hb' rfl

/-- Every number is that of a node, with its type. -/
lemma forall_hasType (h : g.Ordered) {ids : List NodeId} (hids : ∀ i ∈ ids, i ∈ g.ids) :
    List.Forall₂ g.HasType ids ((ids.filterMap g.node?).map (·.ty)) := by
  induction ids with
  | nil => exact .nil
  | cons i rest ih =>
    obtain ⟨n, hn, rfl⟩ := mem_ids.1 (hids i (List.mem_cons_self ..))
    rw [List.filterMap_cons_some (h.node?_of_mem hn), List.map_cons]
    exact .cons ⟨n, hn, rfl, rfl⟩ (ih fun i hi => hids i (List.mem_cons_of_mem _ hi))

/-! ### Nodes that stay -/

/-- Every node is still there, but perhaps for its name and its literals. -/
def Retains (g g' : Graph) : Prop :=
  ∀ n ∈ g.nodes, ∃ n' ∈ g'.nodes, n'.id = n.id ∧ n'.kind = n.kind ∧ n'.inputs = n.inputs ∧ n'.ty = n.ty

lemma Retains.of_subset (h : ∀ n ∈ g.nodes, n ∈ g'.nodes) : g.Retains g' :=
    fun n hn => ⟨n, h n hn, rfl, rfl, rfl, rfl⟩

lemma Supplies.retained (h : g.Supplies id a) (hkeeps : g.Retains g') : g'.Supplies id a := by
  obtain ⟨n, hn, hid, hbits⟩ := h
  obtain ⟨n', hn', hid', hkind, -⟩ := hkeeps n hn
  refine ⟨n', hn', hid'.trans hid, fun b hb => ?_⟩
  rw [← hbits b hb, Node.bits?, Node.bits?, hkind]

lemma HasType.retained {ty : ValueType} (h : g.HasType id ty) (hkeeps : g.Retains g') : g'.HasType id ty := by
  obtain ⟨n, hn, hid, hty⟩ := h
  obtain ⟨n', hn', hid', -, -, hty'⟩ := hkeeps n hn
  exact ⟨n', hn', hid'.trans hid, hty'.trans hty⟩

lemma Performs.retained (h : g.Performs r n c) (hkeeps : g.Retains g') : g'.Performs r n c := by
  obtain ⟨spec, hspec, hkind, hsupplies, types, htypes, hty⟩ := h
  exact ⟨spec, hspec, hkind, hsupplies.imp fun _ _ hs => hs.retained hkeeps, types,
    htypes.imp fun _ _ ht => ht.retained hkeeps, hty⟩

end Graph

/-! ### What lowering leaves in place -/

namespace Lowering

open Waveflow.Graph (Performs Supplies)

variable {r : Registry} {outputs : List Declaration} {around : Params} {st st' : State} {g g' : Graph} {id : NodeId}
variable {calls : List Call} {held : List UInt64}

/-- Nodes that are not inputs have come behind those that were there, with the next numbers. -/
structure Behind (g g' : Graph) : Prop where
  nodes : ∃ fresh, g'.nodes = g.nodes ++ fresh ∧ ∀ n ∈ fresh, n.kind ≠ .input
  dense : g.ids = List.range g.nextId → g'.ids = List.range g'.nextId
  inputs : g'.inputs = g.inputs

lemma Behind.refl (g : Graph) : Behind g g :=
  ⟨⟨[], (List.append_nil _).symm, fun _ hn => absurd hn List.not_mem_nil⟩, fun h => h, rfl⟩

lemma Behind.trans {g'' : Graph} (h : Behind g g') (h' : Behind g' g'') : Behind g g'' := by
  obtain ⟨fresh, hnodes, hfresh⟩ := h.nodes
  obtain ⟨fresh', hnodes', hfresh'⟩ := h'.nodes
  refine ⟨⟨fresh ++ fresh', ?_, fun n hn => ?_⟩, fun hdense => h'.dense (h.dense hdense),
    h'.inputs.trans h.inputs⟩
  · rw [hnodes', hnodes, List.append_assoc]
  · rcases List.mem_append.1 hn with hn | hn
    · exact hfresh n hn
    · exact hfresh' n hn

lemma dense_appended {n : Node} (hid : n.id = g.nextId) (h : g.ids = List.range g.nextId) :
    (g.appended [n]).ids = List.range (g.appended [n]).nextId := by
  rw [Graph.ids_appended, h, List.map_singleton, hid]
  exact List.range_succ.symm

lemma Extends.behind (h : Extends outputs g g') : Behind g g' := by
  cases h with
  | @append n hid hkind =>
    exact ⟨⟨[n], rfl, fun m hm => List.mem_singleton.1 hm ▸ hkind⟩, dense_appended hid, rfl⟩
  | designate hd hty hok =>
    obtain ⟨ports, rfl⟩ := Graph.eq_of_designate hok
    exact ⟨(Behind.refl g).nodes, fun h => h, rfl⟩

lemma Extended.behind (h : Extended outputs g g') : Behind g g' := by
  induction h with
  | refl => exact .refl g
  | tail _ hstep ih => exact ih.trans hstep.behind

/-- The inputs that are declared come one after the other. -/
lemma inputs_declare {ds : List Declaration} (hdense : st.graph.ids = List.range st.graph.nextId)
    (hok : inputs ds st = .ok st') :
    st'.graph.ids = List.range st'.graph.nextId ∧ ∃ fresh, st'.graph.nodes = st.graph.nodes ++ fresh ∧
      st'.graph.inputs = st.graph.inputs ++ fresh.map (·.id) ∧ List.Forall₂ Node.Declares fresh ds := by
  induction ds generalizing st with
  | nil =>
    unfold inputs at hok
    cases hok
    exact ⟨hdense, [], by simp, by simp, .nil⟩
  | cons d rest ih =>
    unfold inputs at hok
    obtain ⟨⟨id, g⟩, hadd, hok⟩ := Checked.bind_eq_ok.1 hok
    cases Graph.addInput_ok hadd
    let n : Node := { Node.plain st.graph.nextId .input [] d.ty with name := some d.name }
    have hone : (st.graph.appended [n]).ids = List.range (st.graph.appended [n]).nextId := dense_appended rfl hdense
    obtain ⟨hdense', fresh, hnodes, hinputs, hfresh⟩ := ih hone hok
    refine ⟨hdense', n :: fresh, ?_, ?_, .cons ⟨rfl, rfl, rfl, rfl⟩ hfresh⟩
    · rw [hnodes]
      exact List.append_assoc ..
    · rw [hinputs]
      exact List.append_assoc ..

/-! ### What has been put into the graph -/

/-- Every call so far has its operation, in order, and the constants are those of the numbers among the operands of
these calls and of those that are `held` for the call that is being lowered. -/
structure State.Stocked (r : Registry) (calls : List Call) (held : List UInt64) (st : State) : Prop where
  known : ∀ b ∈ st.graph.bits, (st.constants.lookup b).isSome
  distinct : st.graph.bits.Nodup
  numbers : ∀ b, b ∈ st.graph.bits ↔ b ∈ calls.flatMap (Call.numbers r) ++ held
  performed : List.Forall₂ (st.graph.Performs r) (st.graph.nodes.filter Node.isOperation) calls

namespace State

/-- What stands beside nodes and constants does not matter. -/
lemma Stocked.congr (h : st.Stocked r calls held) (hnodes : st'.graph.nodes = st.graph.nodes)
    (hconstants : st'.constants = st.constants) : st'.Stocked r calls held := by
  have hbits : st'.graph.bits = st.graph.bits := by rw [Graph.bits, Graph.bits, hnodes]
  have hkeeps : st.graph.Retains st'.graph := .of_subset fun n hn => hnodes ▸ hn
  refine ⟨?_, hbits ▸ h.distinct, fun b => hbits ▸ h.numbers b, ?_⟩
  · rw [hbits, hconstants]
    exact h.known
  · rw [hnodes]
    exact h.performed.imp fun _ _ hp => hp.retained hkeeps

/-- A name does not matter either. -/
lemma Stocked.named (h : st.Stocked r calls held) (hg : st.graph.Ordered) (id : NodeId) (name : String) :
    ({ st with graph := st.graph.modify id fun n => { n with name := some name } } : State).Stocked r calls held := by
  let f : Node → Node := fun n => if n.id = id then { n with name := some name } else n
  have hf : ∀ n, (f n).id = n.id ∧ (f n).kind = n.kind ∧ (f n).inputs = n.inputs ∧ (f n).ty = n.ty := by
    intro n
    by_cases hn : n.id = id <;> simp [f, hn]
  have hgraph : st.graph.modify id (fun n => { n with name := some name }) =
      { st.graph with nodes := st.graph.nodes.map f } := Graph.modify_eq hg _
  have hbits : Graph.bits { st.graph with nodes := st.graph.nodes.map f } = st.graph.bits := by
    unfold Graph.bits
    rw [List.filterMap_map]
    exact List.filterMap_congr fun n _ => by rw [Function.comp, Node.bits?, (hf n).2.1, Node.bits?]
  have hkeeps : st.graph.Retains { st.graph with nodes := st.graph.nodes.map f } :=
    fun n hn => ⟨f n, List.mem_map_of_mem hn, hf n⟩
  rw [hgraph]
  refine ⟨?_, ?_, ?_, ?_⟩
  · rw [hbits]
    exact h.known
  · rw [hbits]
    exact h.distinct
  · rw [hbits]
    exact h.numbers
  · show List.Forall₂ _ ((st.graph.nodes.map f).filter Node.isOperation) calls
    have hops : Node.isOperation ∘ f = Node.isOperation := by
      funext n
      rw [Function.comp, Node.isOperation, (hf n).2.1, Node.isOperation]
    rw [List.filter_map, hops, List.forall₂_map_left_iff]
    refine h.performed.imp fun n c hp => ?_
    obtain ⟨spec, hspec, hkind, hinputs⟩ := hp.retained hkeeps
    refine ⟨spec, hspec, (hf n).2.1.trans hkind, ?_⟩
    rw [(hf n).2.2.1, (hf n).2.2.2]
    exact hinputs

end State

/-! ### Operands and calls -/

lemma constant_stocked (h : st.Stocked r calls held) (hsound : st.Sound outputs) {x : Double}
    (hok : constant x st = .ok (id, st')) : st'.Stocked r calls (held ++ [x.bits]) ∧
      ∃ n ∈ st'.graph.nodes, n.id = id ∧ n.bits? = some x.bits := by
  unfold constant at hok
  split at hok
  · next hid =>
    cases hok
    obtain ⟨n, hn, y, hnid, hkind, hy⟩ := hsound.shared _ _ hid
    have hbits : n.bits? = some x.bits := by rw [Node.bits?, hkind, ← hy]
    have hmem : x.bits ∈ st.graph.bits := Graph.mem_bits.2 ⟨n, hn, hbits⟩
    refine ⟨⟨h.known, h.distinct, fun b => ?_, h.performed⟩, n, hn, hnid, hbits⟩
    rw [← List.append_assoc, List.mem_append, ← h.numbers, List.mem_singleton]
    constructor
    · exact .inl
    · rintro (hb | rfl)
      · exact hb
      · exact hmem
  · next hnone =>
    obtain ⟨out, hout, hok⟩ := Checked.bind_eq_ok.1 hok
    rw [Graph.append_ok hout] at hok
    cases hok
    let n : Node := Node.plain st.graph.nextId (.constant x) [] ValueType.scalar
    have hbits : (st.graph.appended [n]).bits = st.graph.bits ++ [x.bits] := Graph.bits_appended st.graph n
    have hnew : x.bits ∉ st.graph.bits := by
      intro hmem
      have hsome := h.known _ hmem
      rw [hnone] at hsome
      cases hsome
    refine ⟨⟨fun b hb => ?_, ?_, fun b => ?_, ?_⟩, n,
      List.mem_append_right _ (List.mem_singleton.2 rfl), rfl, rfl⟩
    · show (List.lookup b ((x.bits, st.graph.nextId) :: st.constants)).isSome
      rw [List.lookup_cons]
      split
      · rfl
      · next hne =>
        have hb : b ∈ st.graph.bits ++ [x.bits] := hbits ▸ hb
        rcases List.mem_append.1 hb with hb | hb
        · exact h.known b hb
        · rw [List.mem_singleton.1 hb, beq_self_eq_true] at hne
          cases hne
    · show (st.graph.appended [n]).bits.Nodup
      rw [hbits, List.nodup_append]
      refine ⟨h.distinct, List.nodup_singleton _, fun b hb b' hb' => ?_⟩
      rw [List.mem_singleton.1 hb']
      rintro rfl
      exact hnew hb
    · show b ∈ (st.graph.appended [n]).bits ↔ _
      rw [hbits, ← List.append_assoc, List.mem_append, h.numbers, List.mem_append (s := _ ++ held)]
    · show List.Forall₂ _ ((st.graph.nodes ++ [n]).filter Node.isOperation) calls
      rw [List.filter_append, List.filter_singleton]
      simp only [n, Node.isOperation, Node.plain, cond_false, List.append_nil]
      have hkeeps : st.graph.Retains (st.graph.appended [n]) := .of_subset fun m hm => List.mem_append_left _ hm
      exact h.performed.imp fun _ _ hp => hp.retained hkeeps

lemma operand_stocked (h : st.Stocked r calls held) (hsound : st.Sound outputs) {a : Argument}
    (hok : operand a st = .ok (.value id, st')) :
    st'.Stocked r calls (held ++ a.bits?.toList) ∧ st'.graph.Supplies id a := by
  unfold operand at hok
  split at hok
  · next name hvalue =>
    have hnone : a.bits? = none := by simp [Argument.bits?, Argument.literal?, hvalue]
    split at hok
    · next i hi =>
      cases hok
      obtain ⟨n, hn, hid⟩ := Graph.mem_ids.1 (hsound.bound name id hi)
      refine ⟨by simpa [hnone] using h, n, hn, hid, fun b hb => ?_⟩
      rw [hnone] at hb
      cases hb
    · split at hok <;> cases hok
  · next x hvalue =>
    have hsome : a.bits? = some x.bits := by simp [Argument.bits?, Argument.literal?, Literal.number?, hvalue]
    obtain ⟨⟨i, st₁⟩, hconstant, hok⟩ := Checked.bind_eq_ok.1 hok
    cases hok
    obtain ⟨hstocked, n, hn, hid, hbits⟩ := constant_stocked h hsound hconstant
    refine ⟨by simpa [hsome] using hstocked, n, hn, hid, fun b hb => ?_⟩
    rw [hbits, ← hsome, hb]
  · cases hok

lemma operands_stocked (h : st.Stocked r calls held) (hsound : st.Sound outputs) {arguments : List Argument}
    {ids : List NodeId} (hok : operands arguments st = .ok (.value ids, st')) :
    st'.Stocked r calls (held ++ arguments.filterMap Argument.bits?) ∧
      List.Forall₂ st'.graph.Supplies ids arguments := by
  induction arguments generalizing st held ids with
  | nil =>
    cases hok
    exact ⟨by simpa using h, .nil⟩
  | cons a rest ih =>
    unfold operands at hok
    obtain ⟨⟨first, st₁⟩, hfirst, hok⟩ := Checked.bind_eq_ok.1 hok
    cases first with
    | failed e => cases hok
    | poisoned => cases hok
    | value i =>
      obtain ⟨⟨more, st₂⟩, hmore, hok⟩ := Checked.bind_eq_ok.1 hok
      cases more with
      | failed e => cases hok
      | poisoned => cases hok
      | value more =>
        cases hok
        obtain ⟨hstocked₁, hsupplies₁⟩ := operand_stocked h hsound hfirst
        obtain ⟨hstocked₂, hsupplies₂⟩ := ih hstocked₁ (operand_sound hsound hfirst).1 hmore
        have hkeeps : st₁.graph.Retains st'.graph := .of_subset (operands_extended outputs hmore).subset
        refine ⟨?_, .cons (hsupplies₁.retained hkeeps) hsupplies₂⟩
        rw [List.append_assoc] at hstocked₂
        cases hbits : a.bits? with
        | none => simpa [hbits] using hstocked₂
        | some b => simpa [hbits] using hstocked₂

/-- **A call that is lowered puts its operation in**, and its numbers are no longer held. -/
theorem call_stocked (h : st.Stocked r calls []) (hsound : st.Sound outputs) {c : Call}
    (hok : call r around c st = .ok (.value id, st')) : st'.Stocked r (calls ++ [c]) [] := by
  unfold call at hok
  split at hok
  · cases hok
  next spec hspec =>
  obtain ⟨⟨lowered, st₁⟩, hids, hok⟩ := Checked.bind_eq_ok.1 hok
  cases lowered with
  | failed e => cases hok
  | poisoned => cases hok
  | value ids =>
    obtain ⟨hstocked, hsupplies⟩ := operands_stocked h hsound hids
    have hnumbered := (operands_extended outputs hids).numbered hsound.graph.wellFormed.numbered
    have hok : addCall spec around c ids st₁ = .ok (.value id, st') := hok
    unfold addCall at hok
    split at hok
    · cases hok
    next ty hty =>
    obtain ⟨added, hadded, hok⟩ := Checked.bind_eq_ok.1 hok
    cases added with
    | error e => cases hok
    | ok added =>
      obtain ⟨hpresent, rfl⟩ := Graph.require_append_ok hnumbered.ordered hadded
      cases hok
      rw [Graph.modify_appended_one hnumbered rfl, callParams_eq]
      let n : Node := callNode spec around c ids ty st₁.graph.nextId
      have hbits : (st₁.graph.appended [n]).bits = st₁.graph.bits := by
        rw [Graph.bits_appended]
        exact List.append_nil _
      have hkeeps : st₁.graph.Retains (st₁.graph.appended [n]) := .of_subset fun m hm => List.mem_append_left _ hm
      have hperforms : (st₁.graph.appended [n]).Performs r n c := by
        refine Performs.retained ⟨spec, hspec, rfl, hsupplies, _,
          Graph.forall_hasType hnumbered.ordered hpresent, ?_⟩ hkeeps
        unfold callType at hty
        split at hty
        · next hresult =>
          cases hty
          exact hresult
        · cases hty
      refine ⟨?_, ?_, fun b => ?_, ?_⟩
      · show ∀ b ∈ (st₁.graph.appended [n]).bits, _
        rw [hbits]
        exact hstocked.known
      · show (st₁.graph.appended [n]).bits.Nodup
        rw [hbits]
        exact hstocked.distinct
      · show b ∈ (st₁.graph.appended [n]).bits ↔ _
        have hnumbers : c.numbers r = (c.operands spec).filterMap Argument.bits? := by rw [Call.numbers, hspec]
        rw [hbits, hstocked.numbers, List.nil_append, List.append_nil, List.flatMap_append, List.flatMap_singleton,
          hnumbers]
        exact Iff.rfl
      · show List.Forall₂ _ ((st₁.graph.nodes ++ [n]).filter Node.isOperation) (calls ++ [c])
        rw [List.filter_append]
        exact List.rel_append (hstocked.performed.imp fun _ _ hp => hp.retained hkeeps) (.cons hperforms .nil)

/-! ### Statements -/

lemma constants_designate (d : Declaration) (id : NodeId) (st : State) :
    (designate d id st).constants = st.constants := by
  unfold designate
  split
  · rfl
  split
  · rfl
  split <;> rfl

lemma constants_rebind (name : String) (id : NodeId) (st : State) :
    (rebind outputs name id st).constants = st.constants := by
  unfold rebind
  dsimp only
  split
  · split
    · exact constants_designate ..
    · rfl
  · rfl

lemma assignment_stocked {target : String} {c : Call} (h : st.Stocked r calls []) (hsound : st.Sound outputs)
    (hok : assignment r outputs around target c st = .ok st') (hclean : st'.errors = []) :
    st'.Stocked r (calls ++ [c]) [] := by
  unfold assignment at hok
  obtain ⟨⟨lowered, st₁⟩, hcall, hok⟩ := Checked.bind_eq_ok.1 hok
  cases lowered with
  | failed e =>
    cases hok
    exact absurd hclean (State.fail_errors st₁ e)
  | poisoned =>
    have herrors := errors_of_poisoned hsound hcall
    cases hok
    exact absurd hclean herrors
  | value id =>
    have hordered := (call_sound hsound hcall).1.graph.wellFormed.ordered
    have hnamed := (call_stocked h hsound hcall).named hordered id target
    dsimp only at hok
    split at hok
    · cases hok
      exact hnamed.congr (nodes_designate ..) (constants_designate ..)
    · cases hok
      exact hnamed.congr rfl rfl

lemma bareCall_stocked {c : Call} (h : st.Stocked r calls []) (hsound : st.Sound outputs)
    (hok : bareCall r outputs around c st = .ok st') (hclean : st'.errors = []) : st'.Stocked r (calls ++ [c]) [] := by
  unfold bareCall at hok
  obtain ⟨⟨lowered, st₁⟩, hcall, hok⟩ := Checked.bind_eq_ok.1 hok
  cases lowered with
  | failed e =>
    cases hname : rebound? c <;> rw [hname] at hok <;> cases hok <;> exact absurd hclean (State.fail_errors st₁ e)
  | poisoned =>
    have herrors := errors_of_poisoned hsound hcall
    cases hok
    exact absurd hclean herrors
  | value id =>
    have hstocked := call_stocked h hsound hcall
    cases hname : rebound? c with
    | none =>
      rw [hname] at hok
      cases hok
      exact hstocked
    | some name =>
      rw [hname] at hok
      cases hok
      exact hstocked.congr (nodes_rebind ..) (constants_rebind ..)

mutual

/-- A statement that leaves no error puts the operations of its calls in. -/
theorem statement_stocked {st st' : State} {calls : List Call} (h : st.Stocked r calls []) (hcalm : st.Calm outputs)
    (around : Params) : (s : Statement) → statement r outputs around s st = .ok st' → st'.errors = [] →
      st'.Stocked r (calls ++ s.calls) []
  | .assignment target c span, hok, hclean => by
    unfold statement at hok
    unfold Statement.calls
    exact assignment_stocked h hcalm.toFine hok hclean
  | .call c, hok, hclean => by
    unfold statement at hok
    unfold Statement.calls
    exact bareCall_stocked h hcalm.toFine hok hclean
  | .block label parameters body span, hok, hclean => by
    unfold statement at hok
    unfold Statement.calls
    exact statements_stocked h hcalm _ body hok hclean

/-- Statements that leave no error put the operations of their calls in, in order. -/
theorem statements_stocked {st st' : State} {calls : List Call} (h : st.Stocked r calls []) (hcalm : st.Calm outputs)
    (around : Params) : (body : List Statement) → statements r outputs around body st = .ok st' →
    st'.errors = [] →
      st'.Stocked r (calls ++ Statement.callsAll body) []
  | [], hok, _ => by
    unfold statements at hok
    unfold Statement.callsAll
    cases hok
    rwa [List.append_nil]
  | s :: rest, hok, hclean => by
    unfold statements at hok
    unfold Statement.callsAll
    obtain ⟨st₁, hfirst, hok⟩ := Checked.bind_eq_ok.1 hok
    obtain ⟨hcalm₁, -⟩ := calm_statement hcalm hfirst
    obtain ⟨-, hback⟩ := calm_statements hcalm₁ hok
    have hstocked₁ := statement_stocked h hcalm around s hfirst (hback hclean)
    rw [← List.append_assoc]
    exact statements_stocked hstocked₁ hcalm₁ around rest hok hclean

end

/-! ### Programs -/

/-- **The shape of the graph of a program.** -/
structure Shaped (r : Registry) (p : Program) (g : Graph) : Prop where
  /-- The numbers have no gap. -/
  dense : g.ids = List.range g.nodes.length
  /-- The declared inputs come first, in order, and nothing else is an input. -/
  inputs : ∃ declared rest, g.nodes = declared ++ rest ∧ List.Forall₂ Node.Declares declared p.inputs ∧
    g.inputs = declared.map (·.id) ∧ ∀ n ∈ rest, n.kind ≠ .input
  /-- Every edge leads from a smaller to a larger number. -/
  ascending : ∀ n ∈ g.nodes, ∀ i ∈ n.inputs, i < n.id
  acyclic : g.Acyclic
  closed : g.Closed
  /-- The operations are those of the calls, one for one and in order. -/
  operations : List.Forall₂ (g.Performs r) (g.nodes.filter Node.isOperation) (Statement.callsAll p.statements)
  count : (g.nodes.filter Node.isOperation).length = p.callCount
  /-- No two constants have the same bits. -/
  distinct : g.bits.Nodup
  /-- The constants are those of the numbers that are operands. -/
  numbers : ∀ b, b ∈ g.bits ↔ b ∈ p.numbers r
  /-- Every constant is used by an operation. -/
  used : ∀ n ∈ g.nodes, n.isConstant → ∃ m ∈ g.nodes, m.isOperation ∧ n.id ∈ m.inputs
  typed : r.Keyed → g.WellTyped r

lemma stocked_inputs {ds : List Declaration} {name : String} (hok : inputs ds (State.start name) = .ok st) :
    st.Stocked r [] [] := by
  obtain ⟨-, fresh, hnodes, -, hfresh⟩ := inputs_declare rfl hok
  have hinput : ∀ n ∈ st.graph.nodes, n.kind = .input := by
    intro n hn
    rw [hnodes] at hn
    obtain ⟨d, -, hd⟩ := exists_of_mem_left hfresh hn
    exact hd.1
  have hnone : st.graph.bits = [] := by
    rw [Graph.bits, List.filterMap_eq_nil_iff]
    intro n hn
    rw [Node.bits?, hinput n hn]
  have hfilter : st.graph.nodes.filter Node.isOperation = [] := by
    rw [List.filter_eq_nil_iff]
    intro n hn
    simp [Node.isOperation, hinput n hn]
  exact ⟨by simp [hnone], by simp [hnone], by simp [hnone], hfilter ▸ .nil⟩

/-- The constant that an operand asks for is the one with its bits, so that every constant is used. -/
lemma used_of_stocked (h : st.Stocked r calls []) {n : Node} (hn : n ∈ st.graph.nodes) (hconstant : n.isConstant) :
    ∃ m ∈ st.graph.nodes, m.isOperation ∧ n.id ∈ m.inputs := by
  obtain ⟨b, hb⟩ := Node.isConstant_iff.1 hconstant
  have hmem := (h.numbers b).1 (Graph.mem_bits.2 ⟨n, hn, hb⟩)
  rw [List.append_nil] at hmem
  obtain ⟨c, hc, hmem⟩ := List.mem_flatMap.1 hmem
  obtain ⟨m, hm, spec, hspec, -, hsupplies, -⟩ := exists_of_mem_right h.performed hc
  rw [Call.numbers, hspec] at hmem
  obtain ⟨a, ha, hbits⟩ := List.mem_filterMap.1 hmem
  obtain ⟨i, hi, k, hk, rfl, hsame⟩ := exists_of_mem_right hsupplies ha
  obtain ⟨hmem, hop⟩ := List.mem_filter.1 hm
  rw [Graph.eq_of_bits h.distinct hn hk hb (hsame b hbits)]
  exact ⟨m, hmem, hop, hi⟩

lemma typed_of_stocked (h : st.Stocked r calls []) (hkeyed : r.Keyed) : st.graph.WellTyped r := by
  intro n hn op hop
  have hmem : n ∈ st.graph.nodes.filter Node.isOperation :=
    List.mem_filter.2 ⟨hn, Node.isOperation_iff.2 ⟨op, hop⟩⟩
  obtain ⟨c, -, spec, hspec, hkind, -, htypes⟩ := exists_of_mem_left h.performed hmem
  obtain rfl : op = spec.kind := NodeKind.operation.inj (hop.symm.trans hkind)
  exact ⟨spec, hkeyed.specOf?_of_callable? hspec, htypes⟩

lemma shaped_of_lower {name : String} {p : Program} (hok : lower r name p = .ok st) (hclean : st.errors = []) :
    Shaped r p st.graph := by
  have hbuilt := ((lower_yields silent (fun _ => ()) r name (P := fun _ => True)
    fun _ _ _ _ _ _ => trivial).of_ok hok).1
  unfold lower at hok
  obtain ⟨st₁, hinputs, hok⟩ := Checked.bind_eq_ok.1 hok
  obtain ⟨st₂, hstatements, hok⟩ := Checked.bind_eq_ok.1 hok
  obtain rfl := Except.ok.inj hok
  have hclean : st₂.errors = [] := (List.append_eq_nil_iff.1 hclean).1
  obtain ⟨hcalm, -⟩ := (inputs_yields (I := silent) (ρ := fun _ => ())
    (settled_start (fun _ => True) p.outputs name) rfl p.inputs).of_ok hinputs
  obtain ⟨hdense, declared, hnodes, hlisted, hdeclared⟩ := inputs_declare rfl hinputs
  have hbehind := (statements_extended hcalm.graph.wellFormed.numbered Dict.empty p.statements hstatements).behind
  have hstocked := statements_stocked (stocked_inputs (r := r) hinputs) hcalm Dict.empty p.statements hstatements hclean
  obtain ⟨rest, hrest, hkinds⟩ := hbehind.nodes
  have hnext : st₂.graph.nodes.length = st₂.graph.nextId := by
    simpa [Graph.ids] using congrArg List.length (hbehind.dense hdense)
  exact
    { dense := hnext.symm ▸ hbehind.dense hdense
      inputs :=
        ⟨declared, rest, by rw [hrest, hnodes]; rfl, hdeclared, by rw [hbehind.inputs, hlisted]; rfl, hkinds⟩
      ascending := hbuilt.ascending
      acyclic := hbuilt.acyclic
      closed := hbuilt.wellFormed.closed
      operations := hstocked.performed
      count := hstocked.performed.length_eq
      distinct := hstocked.distinct
      numbers := fun b => by rw [hstocked.numbers, List.append_nil]; exact Iff.rfl
      used := fun n hn hconstant => used_of_stocked hstocked hn hconstant
      typed := fun hkeyed => show st₂.graph.WellTyped r from typed_of_stocked hstocked hkeyed }

/-- **Every graph that is built has the shape of its program.** -/
theorem build_shape {name : String} {p : Program} {sink sink' : Diagnostics}
    (h : build r name p sink = .ok (.ok g, sink')) : Shaped r p g := by
  unfold build at h
  obtain ⟨st, hst, h⟩ := Checked.bind_eq_ok.1 h
  dsimp only at h
  split at h
  · cases h
  · next hcheck =>
    obtain ⟨hgraph, -⟩ := Prod.mk.inj (Except.ok.inj h)
    obtain rfl := Except.ok.inj hgraph
    exact shaped_of_lower hst (errors_eq_nil_of_check hcheck)

/-- Two phases are given by the same number, one of them in a block, and a split is called for nothing, which the rules
do not allow. -/
def detour : Program where
  declarations := [⟨.input, "a", .scalar, .nowhere⟩, ⟨.output, "y", .scalar, .nowhere⟩]
  statements :=
    [.assignment "u" ⟨"phase_shift", [⟨none, .identifier "a", .nowhere⟩,
        ⟨some "phase", .literal (.number 0.5), .nowhere⟩], .nowhere⟩ .nowhere,
      .call ⟨"split", [⟨none, .identifier "u", .nowhere⟩], .nowhere⟩,
      .block "inner" [⟨some "coherence", .literal (.number 2.0), .nowhere⟩]
        [.assignment "y" ⟨"phase_shift", [⟨none, .identifier "u", .nowhere⟩,
          ⟨some "phase", .literal (.number 0.5), .nowhere⟩], .nowhere⟩ .nowhere] .nowhere]

theorem build_shape_detour : Rules.check .builtin detour ≠ [] ∧ ∃ g sink,
    build .builtin "detour" detour [] = .ok (.ok g, sink) ∧ Shaped .builtin detour g ∧ g.WellTyped .builtin ∧
      g.nodes.map (·.inputs) = [[], [], [0, 1], [2], [3, 1]] ∧ g.bits = [(0.5 : Double).bits] := by
  have haccepted : accepted (build .builtin "detour" detour []) = true := by decide +kernel
  obtain ⟨g, sink, hbuild⟩ := exists_of_accepted haccepted
  have hbuilt : (build .builtin "detour" detour []).toOption.map
      (fun out => out.1.toOption.map fun g => (g.nodes.map (·.inputs), g.bits)) =
        some (some ([[], [], [0, 1], [2], [3, 1]], [(0.5 : Double).bits])) := by decide +kernel
  rw [hbuild] at hbuilt
  obtain ⟨hinputs, hbits⟩ := Prod.mk.inj (Option.some.inj (Option.some.inj hbuilt))
  have hshaped := build_shape hbuild
  have hbuiltin : Registry.builtin.Extends := ⟨[], rfl⟩
  exact ⟨by decide +kernel, g, sink, hbuild, hshaped, hshaped.typed hbuiltin.keyed, hinputs, hbits⟩

end Lowering

end Waveflow
