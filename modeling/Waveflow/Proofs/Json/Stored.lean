import Waveflow.Artifact
import Waveflow.Proofs.Decimal.Bits
import Waveflow.Proofs.Decimal.Double
import Waveflow.Proofs.Json.Decode
import Mathlib.Tactic.MkIffOfInductiveProp

/-!
# Graphs, schedules, diagnostics, results and artifacts come back from their text

Counters are natural numbers, so each type says with `InRange` that its numbers fit into the words in which they are
stored, and lists its `doubles`.  One lemma a type shows that it is stored if its parts are: a record through its
fields, a tagged value case by case.  What is stored in the end, compact or indented, is decoded as what it was
(`decode_render`).
-/

namespace Waveflow

open Json

/-! ### Words -/

lemma Severity.ofName?_name (s : Severity) : ofName? s.name = some s := by cases s <;> rfl

lemma Stage.ofName?_name (s : Stage) : ofName? s.name = some s := by cases s <;> rfl

lemma DiagnosticKind.ofName?_name (k : DiagnosticKind) : ofName? k.name = some k := by cases k <;> rfl

/-- A tag without content. -/
lemma given_name {α : Type} {name : α → String} {ofName? : String → Option α}
    (h : ∀ a, ofName? (name a) = some a) (a : α) :
    Given (need (Diagnostic.word? ofName?)) (some (.str (name a))) a where
  legible := by rintro _ ⟨⟩; exact .str _
  decoded := h a

/-! ### Diagnostics -/

/-- The numbers of a span fit into 64 bits. -/
@[mk_iff]
structure Span.InRange (s : Span) : Prop where
  offset : s.offset < longLimit
  len : s.len < longLimit
  line : s.line < longLimit
  column : s.column < longLimit

instance (s : Span) : Decidable s.InRange := decidable_of_iff' _ (Span.inRange_iff s)

lemma Span.stored {s : Span} (h : s.InRange) : Stored toJson ofJson? s := by
  have hoffset := (stored_long h.offset).need
  have hlen := (stored_long h.len).need
  have hline := (stored_long h.line).need
  have hcolumn := (stored_long h.column).need
  refine stored_record ["offset", "len", "line", "column"]
    [some (nat s.offset), some (nat s.len), some (nat s.line), some (nat s.column)] rfl (by decide) rfl
    ⟨hoffset.legible, hlen.legible, hline.legible, hcolumn.legible⟩ fun hrecord => ?_
  simp [ofJson?, hrecord, hoffset.decoded, hlen.decoded, hline.decoded, hcolumn.decoded]

/-- The numbers of a diagnostic fit into their words. -/
@[mk_iff]
structure Diagnostic.InRange (d : Diagnostic) : Prop where
  node : ∀ id ∈ d.node, id < wordLimit
  span : ∀ s ∈ d.span, s.InRange

instance (d : Diagnostic) : Decidable d.InRange := decidable_of_iff' _ (Diagnostic.inRange_iff d)

lemma Diagnostic.stored {d : Diagnostic} (h : d.InRange) : Stored toJson ofJson? d := by
  have hseverity := given_name Severity.ofName?_name d.severity
  have hstage := given_name Stage.ofName?_name d.stage
  have hkind := given_name DiagnosticKind.ofName?_name d.kind
  have hnode := given_opt (fun id hid => stored_word (h.node id hid)) fun _ => nofun
  have hspan := given_opt (fun s hs => Span.stored (h.span s hs)) fun _ => nofun
  have hmessage := (stored_str d.message).need
  refine stored_record ["severity", "stage", "kind", "node", "span", "message"]
    [some (.str d.severity.name), some (.str d.stage.name), some (.str d.kind.name), d.node.map nat,
      d.span.map Span.toJson, some (.str d.message)] ?_ (by decide) rfl
    ⟨hseverity.legible, hstage.legible, hkind.legible, hnode.legible, hspan.legible, hmessage.legible⟩
      fun hrecord => ?_
  · rcases d with ⟨_, _, _, _ | _, _ | _, _⟩ <;> rfl
  · simp [ofJson?, hrecord, hseverity.decoded, hstage.decoded, hkind.decoded, hnode.decoded, hspan.decoded,
      hmessage.decoded]

lemma Diagnostics.stored {ds : Diagnostics} (h : ∀ d ∈ ds, d.InRange) : Stored toJson ofJson? ds :=
  stored_list fun d hd => Diagnostic.stored (h d hd)

/-! ### Types, budgets and protection -/

/-- The dimensions of a type fit into 64 bits. -/
def ValueType.InRange (t : ValueType) : Prop := ∀ n ∈ t.shape, n < longLimit

instance (t : ValueType) : Decidable t.InRange := inferInstanceAs (Decidable (∀ n ∈ t.shape, n < longLimit))

lemma ValueType.stored {t : ValueType} (h : t.InRange) : Stored toJson ofJson? t := by
  have helement : Given (need elementOfJson?) (some (.str t.element.name)) t.element :=
    given_name ElementKind.ofName?_name t.element
  have hshape := (stored_list fun n hn => stored_long (h n hn)).orElse []
  refine stored_record ["element", "shape"] [some (.str t.element.name), some (list nat t.shape)] rfl (by decide) rfl
    ⟨helement.legible, hshape.legible⟩ fun hrecord => ?_
  simp [ofJson?, hrecord, helement.decoded, hshape.decoded]

/-- A tag with its content. -/
lemma legible_tag {name : String} {j : Json} (h : Legible j) : Legible (.obj [(name, j)]) :=
  .obj (by simpa using h)

/-- A finite double has the bits of its value. -/
lemma Json.Exact.ofFloat_value {d : Double} (h : Exact d.value) : Double.ofFloat d.value = d :=
  Double.ofFloat_value (Decimal.isNaN_of_isFinite h.finite)

/-- The doubles of a budget. -/
def Budget.doubles : Budget → List Float
  | bounded amount => [amount.value]
  | unbounded => []

lemma Budget.stored {b : Budget} (h : ∀ x ∈ b.doubles, Exact x) : Stored toJson ofJson? b := by
  cases b with
  | bounded amount =>
    have hexact := h amount.value (List.mem_singleton_self _)
    exact ⟨legible_tag (.float hexact), congrArg (fun d => some (bounded d)) hexact.ofFloat_value⟩
  | unbounded => exact ⟨.str _, rfl⟩

/-- The level of a requirement fits into 32 bits. -/
def Correction.InRange : Correction → Prop
  | faultTolerant level _ => level < wordLimit
  | _ => True

instance : (c : Correction) → Decidable c.InRange
  | .faultTolerant level _ => inferInstanceAs (Decidable (level < wordLimit))
  | .none | .basic _ => .isTrue trivial

lemma Correction.stored {c : Correction} (h : c.InRange) : Stored toJson ofJson? c := by
  cases c with
  | none => exact ⟨.str _, rfl⟩
  | basic code => exact ⟨legible_tag (legible_tag (.str _)), rfl⟩
  | faultTolerant level code =>
    have hlevel := stored_word h
    refine ⟨legible_tag (.obj ?_), ?_⟩
    · simpa using ⟨hlevel.legible, .str code⟩
    · show (word? (nat level)).bind (fun level => some (faultTolerant level code)) = _
      rw [hlevel.decoded]
      rfl

/-! ### Attributes -/

/-- The doubles of a literal. -/
def Literal.doubles : Literal → List Float
  | number x => [x.value]
  | text _ => []

lemma Literal.stored {l : Literal} (h : ∀ x ∈ l.doubles, Exact x) : Stored toJson ofJson? l := by
  cases l with
  | number x =>
    have hexact := h x.value (List.mem_singleton_self _)
    exact ⟨.float hexact, congrArg (fun d => some (number d)) hexact.ofFloat_value⟩
  | text s => exact ⟨.str s, rfl⟩

/-- The doubles of a mark. -/
def AttrValue.doubles : AttrValue → List Float
  | number x => [x]
  | flag _ | text _ => []

lemma AttrValue.stored {v : AttrValue} (h : ∀ x ∈ v.doubles, Exact x) : Stored toJson ofJson? v := by
  cases v with
  | flag b => exact ⟨.bool b, rfl⟩
  | number x => exact ⟨.float (h x (List.mem_singleton_self _)), rfl⟩
  | text s => exact ⟨.str s, rfl⟩

/-- The doubles of attributes, in their budgets and marks. -/
def Attributes.doubles (a : Attributes) : List Float :=
  a.coherence.doubles ++ a.thermal.doubles ++ a.extra.entries.flatMap fun e => e.2.doubles

lemma Attributes.stored {a : Attributes} (h : a.correction.InRange) (hx : ∀ x ∈ a.doubles, Exact x) :
    Stored toJson ofJson? a := by
  simp only [doubles, List.forall_mem_append, List.forall_mem_flatMap] at hx
  have hcoherence := (Budget.stored hx.1.1).orElse .unbounded
  have hthermal := (Budget.stored hx.1.2).orElse .unbounded
  have hcorrection := (Correction.stored h).orElse .none
  have hextra := given_dict fun e he => AttrValue.stored (hx.2 e he)
  refine stored_record ["coherence", "thermal", "correction", "extra"]
    [some a.coherence.toJson, some a.thermal.toJson, some a.correction.toJson,
      if a.extra.isEmpty then none else some (dictToJson AttrValue.toJson a.extra)] ?_ (by decide) rfl
    ⟨hcoherence.legible, hthermal.legible, hcorrection.legible, hextra.legible⟩ fun hrecord => ?_
  · rw [toJson]
    split <;> rfl
  · simp [ofJson?, hrecord, hcoherence.decoded, hthermal.decoded, hcorrection.decoded, hextra.decoded]

/-! ### Nodes -/

/-- The distance of an operation fits into 32 bits. -/
def OpKind.InRange : OpKind → Prop
  | encode _ distance | decode _ distance => distance < wordLimit
  | _ => True

instance : (op : OpKind) → Decidable op.InRange
  | .encode _ distance | .decode _ distance => inferInstanceAs (Decidable (distance < wordLimit))
  | .interfere | .merge | .split | .phaseShift | .fourier | .measure | .correct | .join | .custom _ => .isTrue trivial

/-- The content of a tag with a code and its distance. -/
lemma legible_code (code : String) {distance : Nat} (h : distance < wordLimit) :
    Legible (.obj [("code", .str code), ("distance", nat distance)]) := by
  refine .obj ?_
  simpa using ⟨.str code, (stored_word h).legible⟩

lemma codeOfJson?_code (code : String) {distance : Nat} (h : distance < wordLimit) :
    OpKind.codeOfJson? (some (.obj [("code", .str code), ("distance", nat distance)])) = some (code, distance) := by
  show (word? (nat distance)).bind (fun distance => some (code, distance)) = _
  rw [(stored_word h).decoded]
  rfl

lemma OpKind.stored {op : OpKind} (h : op.InRange) : Stored toJson ofJson? op := by
  cases op with
  | encode code distance =>
    refine ⟨legible_tag (legible_code code h), ?_⟩
    show (codeOfJson? _).map _ = _
    rw [codeOfJson?_code code h]
    rfl
  | decode code distance =>
    refine ⟨legible_tag (legible_code code h), ?_⟩
    show (codeOfJson? _).map _ = _
    rw [codeOfJson?_code code h]
    rfl
  | custom name => exact ⟨legible_tag (.str name), rfl⟩
  | interfere | merge | split | phaseShift | fourier | measure | correct | join => exact ⟨.str _, rfl⟩

/-- The doubles of a kind of node. -/
def NodeKind.doubles : NodeKind → List Float
  | constant value => [value.value]
  | input | operation _ => []

/-- The numbers of a kind of node fit into their words. -/
def NodeKind.InRange : NodeKind → Prop
  | operation op => op.InRange
  | input | constant _ => True

instance : (kind : NodeKind) → Decidable kind.InRange
  | .operation op => inferInstanceAs (Decidable op.InRange)
  | .input | .constant _ => .isTrue trivial

lemma NodeKind.stored {kind : NodeKind} (h : kind.InRange) (hx : ∀ x ∈ kind.doubles, Exact x) :
    Stored toJson ofJson? kind := by
  cases kind with
  | input => exact ⟨.str _, rfl⟩
  | constant value =>
    have hexact := hx value.value (List.mem_singleton_self _)
    exact ⟨legible_tag (legible_tag (.float hexact)), congrArg (fun d => some (constant d)) hexact.ofFloat_value⟩
  | operation op =>
    have hop := OpKind.stored h
    refine ⟨legible_tag hop.legible, ?_⟩
    show (OpKind.ofJson? op.toJson).map operation = _
    rw [hop.decoded]
    rfl

/-- The numbers of a node fit into their words. -/
@[mk_iff]
structure Node.InRange (n : Node) : Prop where
  id : n.id < wordLimit
  kind : n.kind.InRange
  inputs : ∀ id ∈ n.inputs, id < wordLimit
  ty : n.ty.InRange
  correction : n.attrs.correction.InRange

instance (n : Node) : Decidable n.InRange := decidable_of_iff' _ (Node.inRange_iff n)

/-- The doubles of a node: a constant, the numbers among its literals, and those of its attributes. -/
def Node.doubles (n : Node) : List Float :=
  n.kind.doubles ++ (n.params.entries.flatMap fun e => e.2.doubles) ++ n.attrs.doubles

lemma Node.stored {n : Node} (h : n.InRange) (hx : ∀ x ∈ n.doubles, Exact x) : Stored toJson ofJson? n := by
  simp only [doubles, List.forall_mem_append, List.forall_mem_flatMap] at hx
  have hid := (stored_word h.id).need
  have hname := given_opt (fun name (_ : name ∈ n.name) => stored_str name) fun _ => nofun
  have hkind := (NodeKind.stored h.kind hx.1.1).need
  have hinputs := (stored_list fun id hid => stored_word (h.inputs id hid)).orElse []
  have hty := (ValueType.stored h.ty).need
  have hparams := given_dict fun e he => Literal.stored (hx.1.2 e he)
  have hattrs := (Attributes.stored h.correction hx.2).orElse .plain
  refine stored_record ["id", "name", "kind", "inputs", "ty", "params", "attrs"]
    [some (nat n.id), n.name.map .str, some n.kind.toJson, some (list nat n.inputs), some n.ty.toJson,
      if n.params.isEmpty then none else some (Attributes.dictToJson Literal.toJson n.params), some n.attrs.toJson]
    ?_ (by decide) rfl ⟨hid.legible, hname.legible, hkind.legible, hinputs.legible, hty.legible, hparams.legible,
      hattrs.legible⟩ fun hrecord => ?_
  · rw [toJson]
    cases n.name <;> split <;> rfl
  · simp [ofJson?, hrecord, hid.decoded, hname.decoded, hkind.decoded, hinputs.decoded, hty.decoded, hparams.decoded,
      hattrs.decoded]

/-! ### Graphs -/

lemma Output.stored {p : Output} (h : p.node < wordLimit) : Stored toJson ofJson? p := by
  have hname := (stored_str p.name).need
  have hnode := (stored_word h).need
  refine stored_record ["name", "node"] [some (.str p.name), some (nat p.node)] rfl (by decide) rfl
    ⟨hname.legible, hnode.legible⟩ fun hrecord => ?_
  simp [ofJson?, hrecord, hname.decoded, hnode.decoded]

/-- The numbers of a group fit into 32 bits. -/
@[mk_iff]
structure ParallelGroup.InRange (g : ParallelGroup) : Prop where
  id : g.id < wordLimit
  members : ∀ id ∈ g.members, id < wordLimit

instance (g : ParallelGroup) : Decidable g.InRange := decidable_of_iff' _ (ParallelGroup.inRange_iff g)

lemma ParallelGroup.stored {g : ParallelGroup} (h : g.InRange) : Stored toJson ofJson? g := by
  have hid := (stored_word h.id).need
  have hmembers := (stored_list fun id hid => stored_word (h.members id hid)).need
  refine stored_record ["id", "members"] [some (nat g.id), some (list nat g.members)] rfl (by decide) rfl
    ⟨hid.legible, hmembers.legible⟩ fun hrecord => ?_
  simp [ofJson?, hrecord, hid.decoded, hmembers.decoded]

lemma Hints.stored {hints : Hints} (h : ∀ g ∈ hints.groups, g.InRange) : Stored toJson ofJson? hints := by
  have hgroups := (stored_list fun g hg => ParallelGroup.stored (h g hg)).need
  refine stored_record ["groups"] [some (list ParallelGroup.toJson hints.groups)] rfl (by decide) rfl hgroups.legible
    fun hrecord => ?_
  simp [ofJson?, hrecord, hgroups.decoded]

/-- The counts of a graph fit into 64 bits. -/
@[mk_iff]
structure Summary.InRange (s : Summary) : Prop where
  nodes : s.nodes < longLimit
  edges : s.edges < longLimit
  inputs : s.inputs < longLimit
  outputs : s.outputs < longLimit
  constants : s.constants < longLimit
  operations : s.operations < longLimit

instance (s : Summary) : Decidable s.InRange := decidable_of_iff' _ (Summary.inRange_iff s)

lemma Summary.stored {s : Summary} (h : s.InRange) : Stored toJson ofJson? s := by
  have hnodes := (stored_long h.nodes).need
  have hedges := (stored_long h.edges).need
  have hinputs := (stored_long h.inputs).need
  have houtputs := (stored_long h.outputs).need
  have hconstants := (stored_long h.constants).need
  have hoperations := (stored_long h.operations).need
  refine stored_record ["nodes", "edges", "inputs", "outputs", "constants", "operations"]
    [some (nat s.nodes), some (nat s.edges), some (nat s.inputs), some (nat s.outputs), some (nat s.constants),
      some (nat s.operations)] rfl (by decide) rfl
    ⟨hnodes.legible, hedges.legible, hinputs.legible, houtputs.legible, hconstants.legible, hoperations.legible⟩
    fun hrecord => ?_
  simp [ofJson?, hrecord, hnodes.decoded, hedges.decoded, hinputs.decoded, houtputs.decoded, hconstants.decoded,
    hoperations.decoded]

/-- The numbers of a graph fit into their words. -/
@[mk_iff]
structure Graph.InRange (g : Graph) : Prop where
  nodes : ∀ n ∈ g.nodes, n.InRange
  inputs : ∀ id ∈ g.inputs, id < wordLimit
  outputs : ∀ p ∈ g.outputs, p.node < wordLimit
  groups : ∀ group ∈ g.hints.groups, group.InRange
  nextId : g.nextId < wordLimit

instance (g : Graph) : Decidable g.InRange := decidable_of_iff' _ (Graph.inRange_iff g)

/-- The doubles of a graph. -/
def Graph.doubles (g : Graph) : List Float := g.nodes.flatMap Node.doubles

lemma Graph.stored {g : Graph} (h : g.InRange) (hx : ∀ x ∈ g.doubles, Exact x) : Stored toJson ofJson? g := by
  rw [doubles, List.forall_mem_flatMap] at hx
  have hname := (stored_str g.name).need
  have hnodes := (stored_list fun n hn => Node.stored (h.nodes n hn) (hx n hn)).need
  have hinputs := (stored_list fun id hid => stored_word (h.inputs id hid)).need
  have houtputs := (stored_list fun p hp => Output.stored (h.outputs p hp)).need
  have hhints := (Hints.stored h.groups).orElse .empty
  have hnextId := (stored_word h.nextId).need
  refine stored_record ["name", "nodes", "inputs", "outputs", "hints", "next_id"]
    [some (.str g.name), some (list Node.toJson g.nodes), some (list nat g.inputs), some (list Output.toJson g.outputs),
      some g.hints.toJson, some (nat g.nextId)] rfl (by decide) rfl
    ⟨hname.legible, hnodes.legible, hinputs.legible, houtputs.legible, hhints.legible, hnextId.legible⟩
      fun hrecord => ?_
  simp [ofJson?, hrecord, hname.decoded, hnodes.decoded, hinputs.decoded, houtputs.decoded, hhints.decoded,
    hnextId.decoded]

/-! ### Schedules -/

/-- The numbers of a step fit into 32 bits. -/
@[mk_iff]
structure Step.InRange (s : Step) : Prop where
  node : s.node < wordLimit
  group : ∀ id ∈ s.group, id < wordLimit

instance (s : Step) : Decidable s.InRange := decidable_of_iff' _ (Step.inRange_iff s)

lemma Step.stored {s : Step} (h : s.InRange) : Stored Schedule.stepToJson Schedule.stepOfJson? s := by
  have hnode := (stored_word h.node).need
  have hgroup := given_opt (fun id hid => stored_word (h.group id hid)) fun _ => nofun
  refine stored_record ["node", "group"] [some (nat s.node), s.group.map nat] ?_ (by decide) rfl
    ⟨hnode.legible, hgroup.legible⟩ fun hrecord => ?_
  · rcases s with ⟨_, _ | _⟩ <;> rfl
  · simp [Schedule.stepOfJson?, hrecord, hnode.decoded, hgroup.decoded]

/-- The numbers of a schedule fit into 32 bits. -/
@[mk_iff]
structure Schedule.InRange (s : Schedule) : Prop where
  steps : ∀ step ∈ s.steps, step.InRange
  groups : ∀ group ∈ s.groups, group.InRange

instance (s : Schedule) : Decidable s.InRange := decidable_of_iff' _ (Schedule.inRange_iff s)

lemma Schedule.stored {s : Schedule} (h : s.InRange) : Stored toJson ofJson? s := by
  have hsteps := (stored_list fun step hstep => Step.stored (h.steps step hstep)).need
  have hgroups := (stored_list fun group hgroup => ParallelGroup.stored (h.groups group hgroup)).orElse []
  refine stored_record ["steps", "groups"] [some (list stepToJson s.steps), some (list ParallelGroup.toJson s.groups)]
    rfl (by decide) rfl ⟨hsteps.legible, hgroups.legible⟩ fun hrecord => ?_
  simp [ofJson?, hrecord, hsteps.decoded, hgroups.decoded]

/-! ### Results -/

/-- The numbers of a result fit into their words. -/
@[mk_iff]
structure CompileResult.InRange (r : CompileResult) : Prop where
  diagnostics : ∀ d ∈ r.diagnostics, d.InRange
  schedule : ∀ s ∈ r.schedule, s.InRange
  summary : ∀ s ∈ r.summary, s.InRange
  graph : ∀ g ∈ r.graph, g.InRange

instance (r : CompileResult) : Decidable r.InRange := decidable_of_iff' _ (CompileResult.inRange_iff r)

/-- The doubles of a result, all of them in its graph. -/
def CompileResult.doubles (r : CompileResult) : List Float := r.graph.toList.flatMap Graph.doubles

lemma CompileResult.stored {r : CompileResult} (h : r.InRange) (hx : ∀ x ∈ r.doubles, Exact x) :
    Stored toJson ofJson? r := by
  simp only [doubles, List.forall_mem_flatMap, Option.mem_toList] at hx
  have hsuccess := (stored_bool r.success).need
  have hdiagnostics := (Diagnostics.stored h.diagnostics).need
  have hschedule := given_opt (fun s hs => Schedule.stored (h.schedule s hs)) fun _ => nofun
  have hsummary := given_opt (fun s hs => Summary.stored (h.summary s hs)) fun _ => nofun
  have hgraph := given_opt (fun g hg => Graph.stored (h.graph g hg) (hx g hg)) fun _ => nofun
  refine stored_record ["success", "diagnostics", "schedule", "graph_summary", "graph"]
    [some (.bool r.success), some r.diagnostics.toJson, r.schedule.map Schedule.toJson, r.summary.map Summary.toJson,
      r.graph.map Graph.toJson] ?_ (by decide) rfl
    ⟨hsuccess.legible, hdiagnostics.legible, hschedule.legible, hsummary.legible, hgraph.legible⟩ fun hrecord => ?_
  · rcases r with ⟨_, _, _ | _, _ | _, _ | _⟩ <;> rfl
  · simp [ofJson?, hrecord, hsuccess.decoded, hdiagnostics.decoded, hschedule.decoded,
      hsummary.decoded, hgraph.decoded]

/-! ### Artifacts -/

/-- The numbers of a step fit into their words. -/
@[mk_iff]
structure ArtifactStep.InRange (s : ArtifactStep) : Prop where
  node : s.node < wordLimit
  inputs : ∀ id ∈ s.inputs, id < wordLimit
  ty : s.ty.InRange
  group : ∀ id ∈ s.group, id < wordLimit
  correction : s.attrs.correction.InRange

instance (s : ArtifactStep) : Decidable s.InRange := decidable_of_iff' _ (ArtifactStep.inRange_iff s)

lemma ArtifactStep.stored {s : ArtifactStep} (h : s.InRange) (hx : ∀ x ∈ s.attrs.doubles, Exact x) :
    Stored toJson ofJson? s := by
  have hnode := (stored_word h.node).need
  have hop := (stored_str s.op).need
  have hinputs := (stored_list fun id hid => stored_word (h.inputs id hid)).need
  have hty := (ValueType.stored h.ty).need
  have hgroup := given_opt (fun id hid => stored_word (h.group id hid)) fun _ => nofun
  have hattrs := (Attributes.stored h.correction hx).need
  refine stored_record ["node", "op", "inputs", "ty", "group", "attrs"]
    [some (nat s.node), some (.str s.op), some (list nat s.inputs), some s.ty.toJson, s.group.map nat,
      some s.attrs.toJson] ?_ (by decide) rfl
    ⟨hnode.legible, hop.legible, hinputs.legible, hty.legible, hgroup.legible, hattrs.legible⟩ fun hrecord => ?_
  · rcases s with ⟨_, _, _, _, _ | _, _⟩ <;> rfl
  · simp [ofJson?, hrecord, hnode.decoded, hop.decoded, hinputs.decoded, hty.decoded, hgroup.decoded, hattrs.decoded]

/-- The numbers of an artifact fit into their words. -/
@[mk_iff]
structure Artifact.InRange (a : Artifact) : Prop where
  steps : ∀ s ∈ a.steps, s.InRange
  outputs : ∀ p ∈ a.outputs, p.node < wordLimit
  groups : ∀ group ∈ a.groups, group.InRange
  warnings : ∀ d ∈ a.warnings, d.InRange

instance (a : Artifact) : Decidable a.InRange := decidable_of_iff' _ (Artifact.inRange_iff a)

/-- The doubles of an artifact. -/
def Artifact.doubles (a : Artifact) : List Float := a.steps.flatMap fun s => s.attrs.doubles

lemma Artifact.stored {a : Artifact} (h : a.InRange) (hx : ∀ x ∈ a.doubles, Exact x) : Stored toJson ofJson? a := by
  rw [doubles, List.forall_mem_flatMap] at hx
  have hprogram := (stored_str a.program).need
  have hsteps := (stored_list fun s hs => ArtifactStep.stored (h.steps s hs) (hx s hs)).need
  have houtputs := (stored_list fun p hp => Output.stored (h.outputs p hp)).need
  have hgroups := (stored_list fun group hgroup => ParallelGroup.stored (h.groups group hgroup)).orElse []
  have hwarnings := (stored_list fun d hd => Diagnostic.stored (h.warnings d hd)).orElse []
  refine stored_record ["program", "steps", "outputs", "groups", "warnings"]
    [some (.str a.program), some (list ArtifactStep.toJson a.steps), some (list Output.toJson a.outputs),
      some (list ParallelGroup.toJson a.groups), some (list Diagnostic.toJson a.warnings)] rfl (by decide) rfl
    ⟨hprogram.legible, hsteps.legible, houtputs.legible, hgroups.legible, hwarnings.legible⟩ fun hrecord => ?_
  simp [ofJson?, hrecord, hprogram.decoded, hsteps.decoded, houtputs.decoded, hgroups.decoded, hwarnings.decoded]

/-- **JSON text loses nothing.**  Graphs, schedules, diagnostics, results and artifacts whose numbers are in range
are decoded as they are from their text, compact or indented, if their doubles are finite and the text of each reads
back. -/
theorem decode_render (pretty : Bool) :
    (∀ g : Graph, g.InRange → (∀ x ∈ g.doubles, x.isFinite = true) → (∀ x ∈ g.doubles, ReadsBack x) →
      (parse? (g.toJson.render pretty)).bind Graph.ofJson? = some g) ∧
    (∀ s : Schedule, s.InRange → (parse? (s.toJson.render pretty)).bind Schedule.ofJson? = some s) ∧
    (∀ ds : Diagnostics, (∀ d ∈ ds, d.InRange) →
      (parse? (ds.toJson.render pretty)).bind Diagnostics.ofJson? = some ds) ∧
    (∀ r : CompileResult, r.InRange → (∀ x ∈ r.doubles, x.isFinite = true) →
      (∀ x ∈ r.doubles, ReadsBack x) →
      (parse? (r.toJson.render pretty)).bind CompileResult.ofJson? = some r) ∧
    (∀ a : Artifact, a.InRange → (∀ x ∈ a.doubles, x.isFinite = true) → (∀ x ∈ a.doubles, ReadsBack x) →
      Artifact.read? (a.emit pretty) = some a) := by
  refine ⟨fun g h hfinite hback => ?_, fun s h => (Schedule.stored h).parse pretty,
    fun ds h => (Diagnostics.stored h).parse pretty, fun r h hfinite hback => ?_, fun a h hfinite hback => ?_⟩
  · exact (Graph.stored h fun x hx => ⟨hfinite x hx, hback x hx⟩).parse pretty
  · exact (CompileResult.stored h fun x hx => ⟨hfinite x hx, hback x hx⟩).parse pretty
  · exact (Artifact.stored h fun x hx => ⟨hfinite x hx, hback x hx⟩).parse pretty

/-- A graph with tags of every form, with marks and literals of every kind, and with fields that are left out. -/
def relay : Graph where
  name := "relay"
  nodes := [⟨0, some "a", .input, [], ⟨.field, [2, 18446744073709551615]⟩, Dict.empty, Attributes.plain⟩,
    ⟨1, none, .constant 0.1, [], .scalar, Dict.empty,
      ⟨.bounded 2.5, .unbounded, .basic "repetition", Dict.empty⟩⟩,
    ⟨2, none, .operation (.encode "surface" 5), [0, 1], .scalar,
      Dict.ofList [("label", .text "2.5"), ("phase", .number (.ofFloat (-0.0)))],
      ⟨.unbounded, .bounded 3.0, .faultTolerant 4294967295 "surface",
        Dict.ofList [("sealed", .flag true), ("parts", .number 2.0), ("why", .text "true")]⟩⟩]
  inputs := [0]
  outputs := [⟨"y", 2⟩]
  hints := ⟨[⟨0, [1, 2]⟩]⟩
  nextId := 3

/-- A result for that graph, with a diagnostic that has a place and one that has none. -/
def relayed : CompileResult where
  success := true
  diagnostics := [⟨.warning, .optimize, .budgetExceeded, some 2, some ⟨4, 9, 1, 5⟩, "over \"budget\"\n"⟩,
    ⟨.warning, .build, .unusedValue, none, none, ""⟩]
  schedule := some ⟨[⟨0, none⟩, ⟨1, some 0⟩, ⟨2, some 0⟩], [⟨0, [1, 2]⟩]⟩
  summary := none
  graph := some relay

/-- Graph, schedule, diagnostics and result come back from their text, and so does the artifact. -/
theorem decode_render_relay :
    (parse? (relay.toJson.render false)).bind Graph.ofJson? = some relay ∧
    (∃ s, relayed.schedule = some s ∧ (parse? (s.toJson.render true)).bind Schedule.ofJson? = some s) ∧
    (parse? (relayed.diagnostics.toJson.render false)).bind Diagnostics.ofJson? = some relayed.diagnostics ∧
    (parse? (relayed.toJson.render true)).bind CompileResult.ofJson? = some relayed ∧
    ∃ a, Artifact.ofResult "relay" relayed = .ok a ∧ ∀ pretty, Artifact.read? (a.emit pretty) = some a := by
  have hfinite : ∀ x ∈ [0.1, 2.5, -0.0, 3.0, 2.0], x.isFinite = true := by decide +kernel
  have hback : ∀ x ∈ [0.1, 2.5, -0.0, 3.0, 2.0], ReadsBack x := by
    simp only [List.forall_mem_cons]
    exact ⟨rfl, rfl, rfl, rfl, rfl, nofun⟩
  have hgraph : relay.doubles = [0.1, 2.5, -0.0, 3.0, 2.0] := by decide +kernel
  have hresult : relayed.doubles = [0.1, 2.5, -0.0, 3.0, 2.0] := by decide +kernel
  refine ⟨?_, ⟨_, rfl, ?_⟩, ?_, ?_, _, rfl, fun pretty => ?_⟩
  · exact (decode_render false).1 relay (by decide +kernel) (hgraph ▸ hfinite) (hgraph ▸ hback)
  · exact (decode_render true).2.1 _ (by decide +kernel)
  · exact (decode_render false).2.2.1 _ (by decide +kernel)
  · exact (decode_render true).2.2.2.1 relayed (by decide +kernel) (hresult ▸ hfinite) (hresult ▸ hback)
  · have hsub : ∀ x ∈ [2.5, 3.0, 2.0], x ∈ [0.1, 2.5, -0.0, 3.0, 2.0] := by simp
    exact (decode_render pretty).2.2.2.2 _ (by decide +kernel) (fun x hx => hfinite x (hsub x hx))
      fun x hx => hback x (hsub x hx)

end Waveflow
