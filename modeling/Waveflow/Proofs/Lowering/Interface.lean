import Waveflow.Proofs.Graph.Consistent
import Waveflow.Proofs.Lowering.Walk
import Waveflow.Proofs.Source.Rules

/-!
# The interface of a program

A graph presents a program (`Graph.Presents`) if its inputs are the declared ones in order, and it has one output
for every declared one, with a node of the declared type.

After the inputs, lowering does two things to the graph: it appends nodes that are not inputs, and it lets
declared outputs stand for nodes of their type (`Extends`).  What these keep is therefore kept by every statement,
and with an output for every declaration in the end, the graph presents the program.
-/

namespace Waveflow

namespace Graph

variable {g g' : Graph} {n : Node} {id : NodeId} {name : String} {ins outs : List Declaration}

/-! ### Declared inputs and outputs -/

/-- The number is that of an input node with the declared name and type. -/
def HasInput (g : Graph) (id : NodeId) (d : Declaration) : Prop :=
  ∃ n ∈ g.nodes, n.id = id ∧ n.kind = .input ∧ n.name = some d.name ∧ n.ty = d.ty

/-- The number is that of a node of the type. -/
def HasType (g : Graph) (id : NodeId) (ty : ValueType) : Prop := ∃ n ∈ g.nodes, n.id = id ∧ n.ty = ty

/-- The inputs are the declared ones in order, and outputs are declared ones with a node of their type. -/
structure Declared (ins outs : List Declaration) (g : Graph) : Prop where
  inputs : List.Forall₂ g.HasInput g.inputs ins
  names : (g.outputs.map (·.name)).Nodup
  typed : ∀ name id, g.output? name = some id → ∃ d ∈ outs, d.name = name ∧ g.HasType id d.ty

/-- The inputs are those of the program in order, and there is one output for every declared one, with a node of
its type. -/
structure Presents (g : Graph) (p : Program) : Prop where
  inputs : List.Forall₂ g.HasInput g.inputs p.inputs
  names : (g.outputs.map (·.name)).Perm (p.outputs.map (·.name))
  distinct : (p.outputs.map (·.name)).Nodup
  typed : ∀ out ∈ g.outputs, ∃ d ∈ p.outputs, d.name = out.name ∧ g.HasType out.node d.ty

lemma HasInput.mono {d : Declaration} (h : g.HasInput id d) (hsub : ∀ n ∈ g.nodes, n ∈ g'.nodes) :
    g'.HasInput id d := by
  obtain ⟨n, hn, hspec⟩ := h
  exact ⟨n, hsub n hn, hspec⟩

lemma HasType.mono {ty : ValueType} (h : g.HasType id ty) (hsub : ∀ n ∈ g.nodes, n ∈ g'.nodes) :
    g'.HasType id ty := by
  obtain ⟨n, hn, hspec⟩ := h
  exact ⟨n, hsub n hn, hspec⟩

lemma declared_empty (outs : List Declaration) (name : String) : (Graph.empty name).Declared [] outs where
  inputs := .nil
  names := List.nodup_nil
  typed := fun _ _ h => by cases h

/-- More nodes change nothing that is declared. -/
lemma Declared.mono (h : g.Declared ins outs) (hsub : ∀ n ∈ g.nodes, n ∈ g'.nodes)
    (hinputs : g'.inputs = g.inputs) (houtputs : g'.outputs = g.outputs) : g'.Declared ins outs where
  inputs := hinputs ▸ h.inputs.imp fun _ _ hin => hin.mono hsub
  names := houtputs ▸ h.names
  typed := by
    intro name id hid
    unfold output? at hid
    rw [houtputs] at hid
    obtain ⟨d, hd, hname, hty⟩ := h.typed name id hid
    exact ⟨d, hd, hname, hty.mono hsub⟩

/-- One more input. -/
lemma Declared.appended_input (h : g.Declared ins outs) (d : Declaration) (hn : n.kind = .input)
    (hname : n.name = some d.name) (hty : n.ty = d.ty) :
    ({ g.appended [n] with inputs := g.inputs ++ [n.id] } : Graph).Declared (ins ++ [d]) outs := by
  have hold : (g.appended [n]).Declared ins outs := h.mono (fun m hm => List.mem_append_left _ hm) rfl rfl
  refine ⟨?_, hold.names, hold.typed⟩
  have hnew : HasInput (g.appended [n]) n.id d :=
    ⟨n, List.mem_append_right _ (List.mem_singleton.2 rfl), rfl, hn, hname, hty⟩
  exact List.rel_append hold.inputs (.cons hnew .nil)

lemma eq_of_designate (hok : g.designate name id = .ok g') : ∃ ports, g' = { g with outputs := ports } := by
  unfold Graph.designate at hok
  split at hok
  · cases hok
  split at hok <;> exact ⟨_, (Except.ok.inj hok).symm⟩

/-- A declared output is let stand for a node of its type. -/
lemma Declared.designate {d : Declaration} (h : g.Declared ins outs) (hd : d ∈ outs) (hty : g.HasType id d.ty)
    (hok : g.designate d.name id = .ok g') : g'.Declared ins outs := by
  have hnames := nodup_designate hok h.names
  have houtput := output?_designate hok
  obtain ⟨ports, rfl⟩ := eq_of_designate hok
  refine ⟨h.inputs, hnames, ?_⟩
  intro name i hi
  rw [houtput] at hi
  split at hi
  · next hname =>
    obtain rfl := Option.some.inj hi
    exact ⟨d, hd, hname.symm, hty⟩
  · exact h.typed name i hi

/-- Among outputs with distinct names, each is the output of its name. -/
lemma output?_of_mem (h : (g.outputs.map (·.name)).Nodup) {out : Output} (hout : out ∈ g.outputs) :
    g.output? out.name = some out.node := by
  unfold output?
  cases hfind : g.outputs.find? (·.name == out.name) with
  | none => exact absurd (List.find?_eq_none.1 hfind out hout) (by simp)
  | some found =>
    have hname : found.name = out.name := by simpa using List.find?_some hfind
    have hsame := List.inj_on_of_nodup_map h (List.mem_of_find?_eq_some hfind) hout hname
    rw [hsame]
    rfl

/-- With an output for every declared one, the graph presents the program. -/
lemma Declared.presents {p : Program} (h : g.Declared p.inputs p.outputs)
    (hdistinct : (p.declarations.map (·.name)).Nodup)
    (hall : ∀ d ∈ p.outputs, ∃ id, g.output? d.name = some id) :
    g.Presents p := by
  have hnodup : (p.outputs.map (·.name)).Nodup := hdistinct.sublist (List.filter_sublist.map _)
  have htyped : ∀ out ∈ g.outputs, ∃ d ∈ p.outputs, d.name = out.name ∧ g.HasType out.node d.ty :=
    fun out hout => h.typed out.name out.node (output?_of_mem h.names hout)
  refine ⟨h.inputs, (List.perm_ext_iff_of_nodup h.names hnodup).2 fun name => ⟨?_, ?_⟩, hnodup, htyped⟩
  · intro hname
    obtain ⟨out, hout, rfl⟩ := List.mem_map.1 hname
    obtain ⟨d, hd, hsame, -⟩ := htyped out hout
    exact List.mem_map.2 ⟨d, hd, hsame⟩
  · intro hname
    obtain ⟨d, hd, rfl⟩ := List.mem_map.1 hname
    obtain ⟨id, hid⟩ := hall d hd
    obtain ⟨out, hfind, -⟩ := Option.map_eq_some_iff.1 hid
    have hsame : out.name = d.name := by simpa using List.find?_some hfind
    exact List.mem_map.2 ⟨out, List.mem_of_find?_eq_some hfind, hsame⟩

end Graph

/-! ### What lowering does to the graph -/

namespace Lowering

open Relation (ReflTransGen)

variable {r : Registry} {outputs : List Declaration} {around : Params} {st st' : State} {g g' : Graph} {id : NodeId}

/-- One edit of the graph: a node that is not an input comes last, or a declared output is let stand for a node
of its type. -/
inductive Extends (outputs : List Declaration) : Graph → Graph → Prop
  | append {g : Graph} {n : Node} : n.id = g.nextId → n.kind ≠ .input → Extends outputs g (g.appended [n])
  | designate {g g' : Graph} {d : Declaration} {id : NodeId} :
      d ∈ outputs → g.HasType id d.ty → g.designate d.name id = .ok g' → Extends outputs g g'

/-- Any number of edits. -/
abbrev Extended (outputs : List Declaration) : Graph → Graph → Prop := ReflTransGen (Extends outputs)

lemma Extends.numbered (h : Extends outputs g g') (hg : g.Numbered) : g'.Numbered := by
  cases h with
  | append hid hkind => exact hg.appended_one hid
  | designate hd hty hok =>
    obtain ⟨ports, rfl⟩ := Graph.eq_of_designate hok
    exact ⟨hg.ordered, hg.below⟩

lemma Extends.declared {ins : List Declaration} (h : Extends outputs g g') (hg : g.Declared ins outputs) :
    g'.Declared ins outputs := by
  cases h with
  | append hid hkind => exact hg.mono (fun m hm => List.mem_append_left _ hm) rfl rfl
  | designate hd hty hok => exact hg.designate hd hty hok

namespace Extended

lemma numbered (h : Extended outputs g g') (hg : g.Numbered) : g'.Numbered := by
  induction h with
  | refl => exact hg
  | tail _ hstep ih => exact hstep.numbered ih

/-- **Lowering keeps what is declared.** -/
theorem declared {ins : List Declaration} (h : Extended outputs g g') (hg : g.Declared ins outputs) :
    g'.Declared ins outputs := by
  induction h with
  | refl => exact hg
  | tail _ hstep ih => exact hstep.declared ih

end Extended

/-! ### Phrases -/

lemma constant_extended (outputs : List Declaration) {x : Double} (h : constant x st = .ok (id, st')) :
    Extended outputs st.graph st'.graph := by
  unfold constant at h
  split at h
  · cases h
    exact .refl
  · obtain ⟨out, hout, h⟩ := Checked.bind_eq_ok.1 h
    rw [Graph.append_ok hout] at h
    cases h
    exact .single (.append rfl (by simp [Node.plain]))

lemma operand_extended (outputs : List Declaration) {a : Argument} {lowered : Lowered NodeId}
    (h : operand a st = .ok (lowered, st')) : Extended outputs st.graph st'.graph := by
  unfold operand at h
  split at h
  · split at h
    · cases h
      exact .refl
    · split at h <;> cases h <;> exact .refl
  · obtain ⟨⟨i, st₁⟩, hconstant, h⟩ := Checked.bind_eq_ok.1 h
    cases h
    exact constant_extended outputs hconstant
  · cases h
    exact .refl

lemma operands_extended (outputs : List Declaration) {arguments : List Argument} {lowered : Lowered (List NodeId)}
    (h : operands arguments st = .ok (lowered, st')) : Extended outputs st.graph st'.graph := by
  induction arguments generalizing st st' lowered with
  | nil =>
    cases h
    exact .refl
  | cons a rest ih =>
    unfold operands at h
    obtain ⟨⟨first, st₁⟩, hfirst, h⟩ := Checked.bind_eq_ok.1 h
    have hextended := operand_extended outputs hfirst
    cases first with
    | failed e =>
      cases h
      exact hextended
    | poisoned =>
      cases h
      exact hextended
    | value i =>
      obtain ⟨⟨more, st₂⟩, hmore, h⟩ := Checked.bind_eq_ok.1 h
      have hrest := hextended.trans (ih hmore)
      cases more <;> cases h <;> exact hrest

/-- The node of a call is the last one, under the next number. -/
def Last (outputs : List Declaration) (g g' : Graph) (id : NodeId) : Prop :=
  ∃ before n, Extended outputs g before ∧ n.id = before.nextId ∧ n.kind ≠ .input ∧
    g' = before.appended [n] ∧ id = n.id

lemma Last.extended (h : Last outputs g g' id) : Extended outputs g g' := by
  obtain ⟨before, n, hbefore, hid, hkind, rfl, -⟩ := h
  exact hbefore.tail (.append hid hkind)

/-- What a call does to the graph: its node comes last if it has one. -/
def CallExtends (outputs : List Declaration) (g : Graph) (st' : State) : Lowered NodeId → Prop
  | .value id => Last outputs g st'.graph id
  | _ => Extended outputs g st'.graph

lemma addCall_extended (outputs : List Declaration) {spec : OpSpec} {c : Call} {ids : List NodeId}
    {lowered : Lowered NodeId} (hg : st.graph.Numbered) (h : addCall spec around c ids st = .ok (lowered, st')) :
    CallExtends outputs st.graph st' lowered := by
  unfold addCall at h
  split at h
  · cases h
    exact .refl
  · next ty _ =>
    obtain ⟨added, hadded, h⟩ := Checked.bind_eq_ok.1 h
    cases added with
    | error e =>
      cases h
      exact .refl
    | ok added =>
      obtain ⟨-, rfl⟩ := Graph.require_append_ok hg.ordered hadded
      cases h
      refine ⟨st.graph, _, .refl, ?_, ?_, Graph.modify_appended_one hg rfl, rfl⟩
      · rfl
      · simp [Node.plain]

lemma call_extended (outputs : List Declaration) {c : Call} {lowered : Lowered NodeId} (hg : st.graph.Numbered)
    (h : call r around c st = .ok (lowered, st')) : CallExtends outputs st.graph st' lowered := by
  unfold call at h
  split at h
  · cases h
    exact .refl
  · obtain ⟨⟨ids, st₁⟩, hids, h⟩ := Checked.bind_eq_ok.1 h
    have hextended := operands_extended outputs hids
    cases ids with
    | failed e =>
      cases h
      exact hextended
    | poisoned =>
      cases h
      exact hextended
    | value ids =>
      have hcall := addCall_extended outputs (hextended.numbered hg) h
      cases lowered with
      | value i =>
        obtain ⟨before, n, hbefore, hspec⟩ := hcall
        exact ⟨before, n, hextended.trans hbefore, hspec⟩
      | poisoned => exact hextended.trans hcall
      | failed e => exact hextended.trans hcall

lemma outputNamed?_mem {name : String} {d : Declaration} (h : outputNamed? outputs name = some d) : d ∈ outputs :=
  List.mem_of_find?_eq_some h

lemma designate_extended {d : Declaration} (hg : st.graph.Numbered) (hd : d ∈ outputs) (id : NodeId) :
    Extended outputs st.graph (designate d id st).graph := by
  unfold designate
  split
  · exact .refl
  · next n hn =>
    obtain ⟨hmem, hid⟩ := (Graph.node?_eq_some_iff hg.ordered).1 hn
    split
    · exact .refl
    · next hty =>
      split
      · next g hok => exact .single (.designate hd ⟨n, hmem, hid, not_not.1 hty⟩ hok)
      · exact .refl

/-! ### Statements -/

lemma assignment_extended {target : String} {c : Call} (hg : st.graph.Numbered)
    (h : assignment r outputs around target c st = .ok st') : Extended outputs st.graph st'.graph := by
  unfold assignment at h
  obtain ⟨⟨lowered, st₁⟩, hcall, h⟩ := Checked.bind_eq_ok.1 h
  have hextended := call_extended outputs hg hcall
  cases lowered with
  | value id =>
    obtain ⟨before, n, hbefore, hid, hkind, hgraph, rfl⟩ := hextended
    -- naming the node that came last is as if it had come with its name
    let st₂ : State := { st₁ with graph := st₁.graph.modify n.id (fun n => { n with name := some target }) }
    have hnamed : st₂.graph = before.appended [{ n with name := some target }] := by
      have hmodify := Graph.modify_appended_one (f := fun n => { n with name := some target })
        (hbefore.numbered hg) hid
      rwa [← hid, ← hgraph] at hmodify
    have hlast : Extended outputs st.graph (st₂.bind target n.id).graph := by
      show Extended outputs st.graph st₂.graph
      rw [hnamed]
      exact hbefore.tail (.append hid hkind)
    dsimp only at h
    split at h
    · next d hd =>
      obtain rfl := Except.ok.inj h
      exact hlast.trans (designate_extended (hlast.numbered hg) (outputNamed?_mem hd) n.id)
    · obtain rfl := Except.ok.inj h
      exact hlast
  | poisoned =>
    obtain rfl := Except.ok.inj h
    exact hextended
  | failed e =>
    obtain rfl := Except.ok.inj h
    exact hextended

lemma rebind_extended (hg : st.graph.Numbered) (name : String) (id : NodeId) :
    Extended outputs st.graph (rebind outputs name id st).graph := by
  unfold rebind
  dsimp only
  split
  · next d hd =>
    split
    · have hbound : (st.bind name id).graph.Numbered := hg
      exact designate_extended hbound (outputNamed?_mem hd) id
    · exact .refl
  · exact .refl

lemma bareCall_extended {c : Call} (hg : st.graph.Numbered) (h : bareCall r outputs around c st = .ok st') :
    Extended outputs st.graph st'.graph := by
  unfold bareCall at h
  obtain ⟨⟨lowered, st₁⟩, hcall, h⟩ := Checked.bind_eq_ok.1 h
  have hextended := call_extended outputs hg hcall
  cases lowered with
  | value id =>
    have hextended : Extended outputs st.graph st₁.graph := Last.extended hextended
    cases hname : rebound? c with
    | some name =>
      rw [hname] at h
      obtain rfl := Except.ok.inj h
      exact hextended.trans (rebind_extended (hextended.numbered hg) name id)
    | none =>
      rw [hname] at h
      obtain rfl := Except.ok.inj h
      exact hextended
  | poisoned =>
    obtain rfl := Except.ok.inj h
    exact hextended
  | failed e =>
    cases hname : rebound? c <;> rw [hname] at h <;> obtain rfl := Except.ok.inj h <;> exact hextended

mutual

/-- Lowering a statement extends the graph. -/
theorem statement_extended {st st' : State} (hg : st.graph.Numbered) (around : Params) :
    (s : Statement) → statement r outputs around s st = .ok st' → Extended outputs st.graph st'.graph
  | .assignment target c span, h => by
    unfold statement at h
    exact assignment_extended hg h
  | .call c, h => by
    unfold statement at h
    exact bareCall_extended hg h
  | .block label parameters body span, h => by
    unfold statement at h
    exact statements_extended hg _ body h

/-- Lowering statements in order extends the graph. -/
theorem statements_extended {st st' : State} (hg : st.graph.Numbered) (around : Params) :
    (body : List Statement) → statements r outputs around body st = .ok st' → Extended outputs st.graph st'.graph
  | [], h => by
    unfold statements at h
    obtain rfl := Except.ok.inj h
    exact .refl
  | s :: rest, h => by
    unfold statements at h
    obtain ⟨st₁, hfirst, h⟩ := Checked.bind_eq_ok.1 h
    have hextended := statement_extended hg around s hfirst
    exact hextended.trans (statements_extended (hextended.numbered hg) around rest h)

end

/-! ### Programs -/

/-- The declared inputs become inputs of the graph, in order. -/
lemma inputs_declared {before ds : List Declaration} (hg : st.graph.Numbered) (h : st.graph.Declared before outputs)
    (hok : inputs ds st = .ok st') : st'.graph.Numbered ∧ st'.graph.Declared (before ++ ds) outputs := by
  induction ds generalizing st before with
  | nil =>
    unfold inputs at hok
    obtain rfl := Except.ok.inj hok
    rw [List.append_nil]
    exact ⟨hg, h⟩
  | cons d rest ih =>
    unfold inputs at hok
    obtain ⟨⟨id, g⟩, hadd, hok⟩ := Checked.bind_eq_ok.1 hok
    cases Graph.addInput_ok hadd
    let n : Node := { Node.plain st.graph.nextId .input [] d.ty with name := some d.name }
    have hnumbered : (st.graph.appended [n]).Numbered := hg.appended_one rfl
    have hdeclared : Graph.Declared (before ++ [d]) outputs
        { st.graph.appended [n] with inputs := st.graph.inputs ++ [n.id] } := h.appended_input d rfl rfl rfl
    have hmore := ih ⟨hnumbered.ordered, hnumbered.below⟩ hdeclared hok
    rwa [List.append_assoc] at hmore

/-- **A program that is lowered without an error is presented by its graph.** -/
theorem lower_presents {name : String} {p : Program} (hrules : Rules.check r p = [])
    (h : lower r name p = .ok st) (hclean : st.errors = []) : st.graph.Presents p := by
  -- what the graph computes does not matter here
  let I : Interpretation Unit := ⟨fun _ => (), fun _ _ _ => ()⟩
  have hplain : ∀ c ∈ Statement.callsAll p.statements, c.Plain (fun _ => True) := fun _ _ _ _ _ _ => trivial
  obtain ⟨-, env, -, houtputs⟩ := ((lower_yields I (fun _ => ()) r name hplain).of_ok h).2 hclean
  unfold lower at h
  obtain ⟨st₁, hinputs, h⟩ := Checked.bind_eq_ok.1 h
  obtain ⟨st₂, hstatements, h⟩ := Checked.bind_eq_ok.1 h
  obtain rfl := Except.ok.inj h
  have hstart : (State.start name).graph.Numbered := ⟨List.Pairwise.nil, fun _ hn => absurd hn List.not_mem_nil⟩
  obtain ⟨hnumbered, hdeclared⟩ := inputs_declared hstart (Graph.declared_empty p.outputs name) hinputs
  have hextended := statements_extended hnumbered Dict.empty p.statements hstatements
  refine (hextended.declared hdeclared).presents (Rules.declarations_nodup hrules) fun d hd => ?_
  obtain ⟨id, v, hid, -⟩ := houtputs d hd
  exact ⟨id, hid⟩

end Lowering

end Waveflow
