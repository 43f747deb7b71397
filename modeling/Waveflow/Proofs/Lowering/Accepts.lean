import Waveflow.Proofs.Lowering.Typing
import Waveflow.Proofs.Source.Lawful
import Mathlib.Algebra.Ring.Nat

/-!
# Which programs are lowered

Lowering ends, unless the program needs more numbers for its nodes than there are.  It accepts a program that breaks no
rule exactly if the program is well typed, and otherwise reports only names without a value, outputs without a value
and types that do not fit (`build_accepts`): the rules have seen to it that operations are known and that no operand is
text, and the graph never refuses an edit.
-/

namespace Waveflow

variable {r : Registry} {outputs : List Declaration}

/-! ### How many numbers are needed -/

namespace Checked

variable {α β : Type} {x : Checked α} {f : α → Checked β} {next : α → Nat}
    {next' : β → Nat} {before k k' : Nat}

/-- The computation takes the counter up by at most `k`, and ends unless that leaves the range. -/
def Allots (before k : Nat) (next : α → Nat) : Checked α → Prop
  | .ok a => next a ≤ before + k
  | .error f => f = .add ∧ wordLimit ≤ before + k

lemma Allots.bind (h : Allots before k next x) (hf : ∀ a, x = .ok a → Allots (next a) k' next' (f a)) :
    Allots before (k + k') next' (x >>= f) := by
  cases x with
  | error e => exact ⟨h.1, Nat.le_trans h.2 (by omega)⟩
  | ok a =>
    have hle : next a ≤ before + k := h
    have hrest := hf a rfl
    show Allots before (k + k') next' (f a)
    cases hfa : f a with
    | ok b =>
      rw [hfa] at hrest
      have hle' : next' b ≤ next a + k' := hrest
      show next' b ≤ before + (k + k')
      omega
    | error e =>
      rw [hfa] at hrest
      obtain ⟨he, hlimit⟩ := hrest
      exact ⟨he, by omega⟩

/-- What follows without taking numbers. -/
lemma Allots.andThen (h : Allots before k next x) (hf : ∀ a, ∃ b, f a = .ok b ∧ next' b = next a) :
    Allots before k next' (x >>= f) := by
  cases x with
  | error e => exact h
  | ok a =>
    obtain ⟨b, hb, hnext⟩ := hf a
    show Allots before k next' (f a)
    rw [hb]
    exact hnext.trans_le h

end Checked

open Checked (Allots)

/-- The numbers that a call needs at most: one for its node, and one for each operand. -/
def Call.demand (r : Registry) (c : Call) : Nat :=
  match r.callable? c.operation with
  | some spec => (c.operands spec).length + 1
  | none => 0

/-- The numbers that a program needs at most. -/
def Program.demand (r : Registry) (p : Program) : Nat :=
  p.inputs.length + ((Statement.callsAll p.statements).map (Call.demand r)).sum

namespace Graph

variable {g : Graph} {id : NodeId}

lemma append_allots (g : Graph) (node : NodeId → Node) :
    Allots g.nextId 1 (fun out => out.2.nextId) (g.append node) := by
  unfold append allocate addWord
  split
  · exact Nat.le_refl _
  · next h => exact ⟨rfl, Nat.le_of_not_lt h⟩

/-- The next number after an operation has been added, or has not. -/
def nextAfter (g : Graph) : Except Refusal (NodeId × Graph) → Nat
  | .ok (_, g') => g'.nextId
  | .error _ => g.nextId

lemma addOperation_allots (g : Graph) (op : OpKind) (ids : List NodeId) (ty : ValueType) :
    Allots g.nextId 1 g.nextAfter (g.addOperation op ids ty) := by
  unfold addOperation
  split
  · exact Nat.le_add_right _ _
  · have happend := append_allots g fun id => Node.plain id (.operation op) ids ty
    cases hout : g.append fun id => Node.plain id (.operation op) ids ty <;> rw [hout] at happend <;> exact happend

lemma nextId_modify (g : Graph) (id : NodeId) (f : Node → Node) : (g.modify id f).nextId = g.nextId := by
  unfold modify
  split <;> rfl

lemma nextId_designate {g' : Graph} {name : String} (h : g.designate name id = .ok g') : g'.nextId = g.nextId := by
  obtain ⟨ports, rfl⟩ := eq_of_designate h
  rfl

end Graph

namespace Lowering

open State

variable {st st' : State} {id : NodeId} {around : Params} {name : String}

/-- The next number that is given out. -/
def State.next (st : State) : Nat := st.graph.nextId

lemma constant_allots (x : Double) (st : State) : Allots st.next 1 (fun out => out.2.next) (constant x st) := by
  unfold constant
  split
  · exact Nat.le_add_right _ _
  · exact (Graph.append_allots _ _).andThen fun _ => ⟨_, rfl, rfl⟩

lemma operand_allots (a : Argument) (st : State) : Allots st.next 1 (fun out => out.2.next) (operand a st) := by
  unfold operand
  split
  · split
    · exact Nat.le_add_right _ _
    · split <;> exact Nat.le_add_right _ _
  · exact (constant_allots _ _).andThen fun _ => ⟨_, rfl, rfl⟩
  · exact Nat.le_add_right _ _

lemma operands_allots (arguments : List Argument) (st : State) :
    Allots st.next arguments.length (fun out => out.2.next) (operands arguments st) := by
  induction arguments generalizing st with
  | nil => exact Nat.le_refl _
  | cons a rest ih =>
    unfold operands
    rw [List.length_cons, Nat.add_comm]
    refine (operand_allots a st).bind ?_
    rintro ⟨first, st₁⟩ -
    cases first with
    | failed e => exact Nat.le_add_right _ _
    | poisoned => exact Nat.le_add_right _ _
    | value id =>
      refine (ih st₁).andThen ?_
      rintro ⟨more, st₂⟩
      cases more <;> exact ⟨_, rfl, rfl⟩

lemma addCall_allots (spec : OpSpec) (c : Call) (ids : List NodeId) (st : State) :
    Allots st.next 1 (fun out => out.2.next) (addCall spec around c ids st) := by
  unfold addCall
  split
  · exact Nat.le_add_right _ _
  · refine (Graph.addOperation_allots _ _ _ _).andThen fun out => ?_
    cases out with
    | error e => exact ⟨_, rfl, rfl⟩
    | ok added => exact ⟨_, rfl, Graph.nextId_modify _ _ _⟩

lemma call_allots (c : Call) (st : State) :
    Allots st.next (c.demand r) (fun out => out.2.next) (call r around c st) := by
  unfold call Call.demand
  cases r.callable? c.operation with
  | none => exact Nat.le_refl _
  | some spec =>
    refine (operands_allots (c.operands spec) st).bind fun ⟨ids, st₁⟩ _ => ?_
    cases ids with
    | failed e => exact Nat.le_add_right _ _
    | poisoned => exact Nat.le_add_right _ _
    | value ids => exact addCall_allots spec c ids st₁

lemma next_designate (d : Declaration) (id : NodeId) (st : State) : (designate d id st).next = st.next := by
  unfold designate State.next
  split
  · rfl
  split
  · rfl
  split
  · next hok => exact Graph.nextId_designate hok
  · rfl

lemma assignment_allots (target : String) (c : Call) (st : State) :
    Allots st.next (c.demand r) State.next (assignment r outputs around target c st) := by
  unfold assignment
  refine (call_allots c st).andThen fun ⟨lowered, st₁⟩ => ?_
  cases lowered with
  | failed e => exact ⟨_, rfl, rfl⟩
  | poisoned => exact ⟨_, rfl, rfl⟩
  | value id =>
    dsimp only
    split
    · exact ⟨_, rfl, (next_designate _ _ _).trans (Graph.nextId_modify _ _ _)⟩
    · exact ⟨_, rfl, Graph.nextId_modify _ _ _⟩

lemma next_rebind (name : String) (id : NodeId) (st : State) : (rebind outputs name id st).next = st.next := by
  unfold rebind
  dsimp only
  split
  · split
    · exact next_designate _ _ _
    · rfl
  · rfl

lemma bareCall_allots (c : Call) (st : State) :
    Allots st.next (c.demand r) State.next (bareCall r outputs around c st) := by
  unfold bareCall
  refine (call_allots c st).andThen fun ⟨lowered, st₁⟩ => ?_
  cases lowered with
  | failed e => cases rebound? c <;> exact ⟨_, rfl, rfl⟩
  | poisoned => exact ⟨_, rfl, rfl⟩
  | value id =>
    cases rebound? c with
    | none => exact ⟨_, rfl, rfl⟩
    | some name => exact ⟨_, rfl, next_rebind name id st₁⟩

mutual

theorem statement_allots (around : Params) (st : State) : (s : Statement) →
    Allots st.next (s.calls.map (Call.demand r)).sum State.next (statement r outputs around s st)
  | .assignment target c span => by
    unfold statement Statement.calls
    rw [List.map_singleton, List.sum_singleton]
    exact assignment_allots target c st
  | .call c => by
    unfold statement Statement.calls
    rw [List.map_singleton, List.sum_singleton]
    exact bareCall_allots c st
  | .block label parameters body span => by
    unfold statement Statement.calls
    exact statements_allots _ st body

theorem statements_allots (around : Params) (st : State) : (body : List Statement) →
    Allots st.next ((Statement.callsAll body).map (Call.demand r)).sum State.next (statements r outputs around body st)
  | [] => by
    unfold statements Statement.callsAll
    exact Nat.le_refl _
  | s :: rest => by
    unfold statements Statement.callsAll
    rw [List.map_append, List.sum_append]
    exact (statement_allots around st s).bind fun st₁ _ => statements_allots around st₁ rest

end

lemma inputs_allots (ds : List Declaration) (st : State) : Allots st.next ds.length State.next (inputs ds st) := by
  induction ds generalizing st with
  | nil => exact Nat.le_refl _
  | cons d rest ih =>
    unfold inputs Graph.addInput
    rw [List.length_cons, Nat.add_comm]
    refine Allots.bind (x := st.graph.append _ >>= _) ?_ fun out _ => ih _
    exact (Graph.append_allots _ _).andThen fun _ => ⟨_, rfl, rfl⟩

lemma lower_allots (name : String) (p : Program) : Allots 0 (p.demand r) State.next (lower r name p) := by
  unfold lower Program.demand
  refine (inputs_allots p.inputs (State.start name)).bind fun st₁ _ => ?_
  exact (statements_allots Dict.empty st₁ p.statements).andThen fun _ => ⟨_, rfl, rfl⟩

/-- Lowering ends unless the program needs more numbers than there are. -/
theorem lower_ends (name : String) (p : Program) :
    (∃ st, lower r name p = .ok st) ∨ lower r name p = .error .add ∧ wordLimit ≤ p.demand r := by
  have hallots := lower_allots (r := r) name p
  cases hlower : lower r name p with
  | ok st => exact .inl ⟨st, rfl⟩
  | error f =>
    rw [hlower] at hallots
    obtain ⟨rfl, hlimit⟩ := hallots
    exact .inr ⟨rfl, by simpa using hlimit⟩

/-! ### Which errors are reported -/

/-- The operation is known and no operand is text. -/
def Callable (r : Registry) (c : Call) : Prop :=
  ∃ spec, r.callable? c.operation = some spec ∧ ∀ a ∈ c.operands spec, ∀ s, a.value ≠ .literal (.text s)

/-- A parameter is found by its name if no other has that name. -/
lemma param?_of_mem {spec : OpSpec} (hnodup : (spec.params.map (·.name)).Nodup) {q : ParamSpec}
    (hq : q ∈ spec.params) :
    spec.param? q.name = some q := by
  have hfind : spec.params.find? (·.name == q.name) = some q := by
    cases hfound : spec.params.find? (·.name == q.name) with
    | none => exact absurd (List.find?_eq_none.1 hfound q hq) (by simp)
    | some found =>
      have hname : found.name = q.name := by simpa using List.find?_some hfound
      rw [List.inj_on_of_nodup_map hnodup (List.mem_of_find?_eq_some hfound) hq hname]
  unfold OpSpec.param?
  rw [hfind]

/-- The rules leave no text among the operands. -/
lemma callable_of_passes {c : Call}
    (hspecs : ∀ name spec, r.get? name = some spec → (spec.params.map (·.name)).Nodup)
    (h : Rules.Passes r c) : Callable r c := by
  obtain ⟨spec, hspec, hadmits⟩ := h
  refine ⟨spec, hspec, fun a ha s htext => ?_⟩
  obtain ⟨name, param, hname, hparam, hrole⟩ := hadmits a (Call.mem_operands ha) s htext
  rcases List.mem_append.1 ha with hpositional | hoperand
  · have hnone := (List.mem_filter.1 hpositional).2
    unfold Argument.isPositional at hnone
    rw [hname] at hnone
    cases hnone
  · obtain ⟨q, hq, hgiven⟩ := List.mem_filterMap.1 hoperand
    obtain ⟨hmem, hqrole⟩ := List.mem_filter.1 hq
    have hsame : a.name = some q.name := by
      have hbeq := List.find?_some (p := fun a : Argument => a.name == some q.name) hgiven
      exact beq_iff_eq.1 hbeq
    have hnodup := hspecs c.operation spec (Option.filter_eq_some_iff.1 hspec).1
    obtain rfl := Option.some.inj (hname.symm.trans hsame)
    obtain rfl := Option.some.inj (hparam.symm.trans (param?_of_mem hnodup hmem))
    rw [hrole] at hqrole
    cases hqrole

/-- What lowering reports: a name without a value, an output without a value, operands that an operation does not
accept, or an output that is given another type than it is declared with. -/
inductive Reportable (r : Registry) (outputs : List Declaration) : CompileError → Prop
  | unresolved (name : String) (span : Span) : Reportable r outputs (.unresolvedReference name span)
  | dangling {d : Declaration} : d ∈ outputs → Reportable r outputs (.danglingOutput d.name d.span)
  | rejected {c : Call} {spec : OpSpec} {tys : List ValueType} {message : String} :
      r.callable? c.operation = some spec → spec.resultType tys = .error message →
      Reportable r outputs (.typeMismatch (c.operation ++ ": " ++ message) c.span)
  | misfit {d : Declaration} {ty : ValueType} : d ∈ outputs → ty ≠ d.ty →
      Reportable r outputs (.typeMismatch ("output '" ++ d.name ++ "' is declared " ++ d.ty.text ++ " but assigned " ++
        ty.text) d.span)

/-- Every error that is new is reportable. -/
def Reports (r : Registry) (outputs : List Declaration) (st st' : State) : Prop :=
  ∀ e ∈ st'.errors, e ∈ st.errors ∨ Reportable r outputs e

lemma Reports.of_eq (h : st'.errors = st.errors) : Reports r outputs st st' := fun _ he => .inl (h ▸ he)

lemma Reports.trans {st'' : State} (h : Reports r outputs st st') (h' : Reports r outputs st' st'') :
    Reports r outputs st st'' := by
  intro e he
  rcases h' e he with he | he
  · exact h e he
  · exact .inr he

lemma Reports.fail {e : CompileError} (he : Reportable r outputs e) (st : State) :
    Reports r outputs st (st.fail e) := by
  intro e' he'
  rcases List.mem_append.1 he' with he' | he'
  · exact .inl he'
  · exact .inr (List.mem_singleton.1 he' ▸ he)

lemma operand_reports {a : Argument} {e : CompileError} (htext : ∀ s, a.value ≠ .literal (.text s))
    (hok : operand a st = .ok (.failed e, st')) : Reportable r outputs e := by
  unfold operand at hok
  split at hok
  · split at hok
    · cases hok
    split at hok
    · cases hok
    · cases hok
      exact .unresolved _ _
  · obtain ⟨out, -, hok⟩ := Checked.bind_eq_ok.1 hok
    cases hok
  · next s hs => exact absurd hs (htext s)

lemma operands_reports {arguments : List Argument} {e : CompileError}
    (htext : ∀ a ∈ arguments, ∀ s, a.value ≠ .literal (.text s))
    (hok : operands arguments st = .ok (.failed e, st')) : Reportable r outputs e := by
  induction arguments generalizing st st' with
  | nil => cases hok
  | cons a rest ih =>
    unfold operands at hok
    obtain ⟨⟨first, st₁⟩, hfirst, hok⟩ := Checked.bind_eq_ok.1 hok
    cases first with
    | failed e' =>
      cases hok
      exact operand_reports (htext a (List.mem_cons_self ..)) hfirst
    | poisoned => cases hok
    | value id =>
      obtain ⟨⟨more, st₂⟩, hmore, hok⟩ := Checked.bind_eq_ok.1 hok
      cases more with
      | failed e' =>
        cases hok
        exact ih (fun b hb => htext b (List.mem_cons_of_mem _ hb)) hmore
      | poisoned => cases hok
      | value ids => cases hok

/-- A call that fails has an operand without a value, or operands that the operation does not accept. -/
lemma call_reports {c : Call} {e : CompileError} (h : st.Sound outputs) (hc : Callable r c)
    (hok : call r around c st = .ok (.failed e, st')) : Reportable r outputs e := by
  obtain ⟨spec, hspec, htext⟩ := hc
  unfold call at hok
  rw [hspec] at hok
  obtain ⟨⟨ids, st₁⟩, hids, hok⟩ := Checked.bind_eq_ok.1 hok
  have hplain : ∀ a ∈ operandArguments spec c, a.Plain fun _ => True := fun _ _ _ _ => trivial
  obtain ⟨hfine, -, hholds⟩ := (operands_yields (I := silent) (ρ := fun _ => ()) h hplain).of_ok hids
  cases ids with
  | failed e' =>
    cases hok
    exact operands_reports htext hids
  | poisoned => cases hok
  | value ids =>
    have hok : addCall spec around c ids st₁ = .ok (.failed e, st') := hok
    unfold addCall callType at hok
    cases hresult : spec.resultType ((ids.filterMap st₁.graph.node?).map (·.ty)) with
    | error message =>
      rw [hresult] at hok
      cases hok
      exact .rejected hspec hresult
    | ok ty =>
      -- the operands are there, so that the graph does not refuse the node
      rw [hresult] at hok
      obtain ⟨added, hadded, hok⟩ := Checked.bind_eq_ok.1 hok
      rw [(Graph.addOperation_yields hfine.graph.wellFormed.ordered spec.kind ty hholds.1).of_ok hadded] at hok
      cases hok

lemma call_sound {c : Call} {lowered : Lowered NodeId} (h : st.Sound outputs)
    (hok : call r around c st = .ok (lowered, st')) :
    st'.Sound outputs ∧ st.Grew st' ∧ ∀ id, lowered = .value id → id ∈ st'.graph.ids := by
  have hplain : c.Plain fun _ => True := fun _ _ _ _ => trivial
  obtain ⟨hfine, hgrew, hholds⟩ := (call_yields (I := silent) (ρ := fun _ => ()) h r around hplain).of_ok hok
  refine ⟨hfine, hgrew, ?_⟩
  rintro id rfl
  exact hholds.1

lemma designate_reports {d : Declaration} (h : st.graph.Ordered) (hid : id ∈ st.graph.ids) (hd : d ∈ outputs) :
    Reports r outputs st (designate d id st) := by
  obtain ⟨moved, hmoved, -⟩ := Graph.designate_ok h hid d.name
  unfold designate
  rw [hmoved]
  split
  · exact .of_eq rfl
  split
  · next hty =>
    show Reports r outputs st (st.fail _)
    exact .fail (.misfit hd hty) st
  · exact .of_eq rfl

lemma assignment_reports {target : String} {c : Call} (h : st.Sound outputs) (hc : Callable r c)
    (hok : assignment r outputs around target c st = .ok st') : Reports r outputs st st' := by
  unfold assignment at hok
  obtain ⟨⟨lowered, st₁⟩, hcall, hok⟩ := Checked.bind_eq_ok.1 hok
  obtain ⟨hfine, hgrew, hvalue⟩ := call_sound h hcall
  have hbefore : Reports r outputs st st₁ := .of_eq hgrew.errors
  cases lowered with
  | failed e =>
    cases hok
    have hfail : Reports r outputs st₁ (st₁.fail e) := .fail (call_reports h hc hcall) st₁
    exact hbefore.trans hfail
  | poisoned =>
    cases hok
    exact .of_eq hgrew.errors
  | value id =>
    have hnamed : Graph.Renames (fun n => { n with name := some target }) := fun _ => ⟨rfl, rfl, rfl, rfl⟩
    have hordered := hfine.graph.wellFormed.ordered
    let st₂ : State := { st₁ with graph := st₁.graph.modify id (fun n => { n with name := some target }) }
    have hids : st₂.graph.ids = st₁.graph.ids := Graph.ids_modify hordered hnamed
    have hordered' : st₂.graph.Ordered := (hfine.graph.modify hnamed).wellFormed.ordered
    dsimp only at hok
    split at hok
    · next d hd =>
      cases hok
      have hdesignate : Reports r outputs (st₂.bind target id) (designate d id (st₂.bind target id)) :=
        designate_reports hordered' (hids ▸ hvalue id rfl) (outputNamed?_mem hd)
      exact hbefore.trans hdesignate
    · cases hok
      exact .of_eq hgrew.errors

lemma rebind_reports (h : st.graph.Ordered) (hid : id ∈ st.graph.ids) (name : String) :
    Reports r outputs st (rebind outputs name id st) := by
  unfold rebind
  dsimp only
  split
  · next d hd =>
    split
    · have hdesignate : Reports r outputs (st.bind name id) (designate d id (st.bind name id)) :=
        designate_reports h hid (outputNamed?_mem hd)
      exact hdesignate
    · exact .of_eq rfl
  · exact .of_eq rfl

lemma bareCall_reports {c : Call} (h : st.Sound outputs) (hc : Callable r c)
    (hok : bareCall r outputs around c st = .ok st') : Reports r outputs st st' := by
  unfold bareCall at hok
  obtain ⟨⟨lowered, st₁⟩, hcall, hok⟩ := Checked.bind_eq_ok.1 hok
  obtain ⟨hfine, hgrew, hvalue⟩ := call_sound h hcall
  have hbefore : Reports r outputs st st₁ := .of_eq hgrew.errors
  cases lowered with
  | failed e =>
    have hfail : Reports r outputs st₁ (st₁.fail e) := .fail (call_reports h hc hcall) st₁
    cases hname : rebound? c <;> rw [hname] at hok <;> cases hok <;> exact hbefore.trans hfail
  | poisoned =>
    cases hok
    exact hbefore
  | value id =>
    cases hname : rebound? c with
    | none =>
      rw [hname] at hok
      cases hok
      exact hbefore
    | some name =>
      rw [hname] at hok
      cases hok
      exact hbefore.trans (rebind_reports hfine.graph.wellFormed.ordered (hvalue id rfl) name)

mutual

/-- Every error of a statement is reportable. -/
theorem statement_reports {st st' : State} (h : st.Calm outputs) (around : Params) :
    (s : Statement) → (∀ c ∈ s.calls, Callable r c) → statement r outputs around s st = .ok st' →
      Reports r outputs st st'
  | .assignment target c span, hc, hok => by
    unfold statement at hok
    unfold Statement.calls at hc
    exact assignment_reports h.toFine (hc c (List.mem_singleton_self c)) hok
  | .call c, hc, hok => by
    unfold statement at hok
    unfold Statement.calls at hc
    exact bareCall_reports h.toFine (hc c (List.mem_singleton_self c)) hok
  | .block label parameters body span, hc, hok => by
    unfold statement at hok
    unfold Statement.calls at hc
    exact statements_reports h _ body hc hok

/-- Every error of several statements is reportable. -/
theorem statements_reports {st st' : State} (h : st.Calm outputs) (around : Params) :
    (body : List Statement) → (∀ c ∈ Statement.callsAll body, Callable r c) →
      statements r outputs around body st = .ok st' → Reports r outputs st st'
  | [], _, hok => by
    unfold statements at hok
    cases hok
    exact .of_eq rfl
  | s :: rest, hc, hok => by
    unfold statements at hok
    unfold Statement.callsAll at hc
    obtain ⟨st₁, hfirst, hok⟩ := Checked.bind_eq_ok.1 hok
    obtain ⟨h₁, -⟩ := calm_statement h hfirst
    have hbefore := statement_reports h around s (fun c hmem => hc c (List.mem_append_left _ hmem)) hfirst
    exact hbefore.trans (statements_reports h₁ around rest (fun c hmem => hc c (List.mem_append_right _ hmem)) hok)

end

lemma errors_inputs {ds : List Declaration} (hok : inputs ds st = .ok st') : st'.errors = st.errors := by
  induction ds generalizing st with
  | nil =>
    unfold inputs at hok
    cases hok
    rfl
  | cons d rest ih =>
    unfold inputs at hok
    obtain ⟨⟨id, g⟩, -, hok⟩ := Checked.bind_eq_ok.1 hok
    exact (ih hok).trans rfl

/-- **Lowering reports nothing else.** -/
theorem lower_reports {p : Program} (hcalls : ∀ c ∈ Statement.callsAll p.statements, Callable r c)
    (hdistinct : (p.declarations.map (·.name)).Nodup) (hok : lower r name p = .ok st) :
    ∀ e ∈ st.errors, Reportable r p.outputs e := by
  unfold lower at hok
  obtain ⟨st₁, hinputs, hok⟩ := Checked.bind_eq_ok.1 hok
  obtain ⟨st₂, hstatements, hok⟩ := Checked.bind_eq_ok.1 hok
  obtain rfl := Except.ok.inj hok
  obtain ⟨hcalm, -⟩ :=
    inputs_typed (typed_start p.outputs name) (settled_start _ _ _) rfl (outputs_apart hdistinct) hinputs
  intro e he
  rcases List.mem_append.1 he with he | he
  · rcases statements_reports hcalm Dict.empty p.statements hcalls hstatements e he with he | he
    · rw [errors_inputs hinputs] at he
      exact absurd he List.not_mem_nil
    · exact he
  · obtain ⟨d, hd, rfl⟩ := List.mem_map.1 he
    exact .dangling (List.mem_filter.1 hd).1

/-! ### The outcome -/

/-- **Lowering accepts exactly the well-typed programs.**  For a program that breaks no rule, under a registry whose
operations do not repeat a parameter, lowering ends unless the program needs more numbers than there are.  It gives a
graph exactly if the program is well typed; if it fails, everything that it has reported is a name or an output without
a value or a type that does not fit. -/
theorem build_accepts {p : Program} {sink : Diagnostics}
    (hspecs : ∀ name spec, r.get? name = some spec → (spec.params.map (·.name)).Nodup)
    (hrules : Rules.check r p = []) (hsink : ¬ sink.Failing .build) (name : String) :
    build r name p sink = .error .add ∧ wordLimit ≤ p.demand r ∨
      ∃ outcome reported, build r name p sink = .ok (outcome, sink ++ reported) ∧
        ((∃ g, outcome = .ok g) ↔ p.WellTyped r) ∧
        ∀ failed, outcome = .error failed → ∃ errors : List CompileError,
          reported = errors.map (·.diagnostic .build) ∧ errors ≠ [] ∧
          ∀ e ∈ errors, Reportable r p.outputs e := by
  have hdistinct := Rules.declarations_nodup hrules
  rcases lower_ends (r := r) name p with ⟨st, hlower⟩ | ⟨hlower, hlimit⟩
  · right
    have hclean := lower_clean_iff hdistinct hlower
    have hreports :=
      lower_reports (fun c hc => callable_of_passes hspecs (Rules.calls_pass hrules c hc)) hdistinct hlower
    unfold build
    rw [hlower, Checked.ok_bind]
    dsimp only
    split
    · next failed hcheck =>
      have hne : st.errors ≠ [] := by
        intro hnil
        rw [hnil, List.map_nil, List.append_nil] at hcheck
        exact hsink (Diagnostics.failing_of_check hcheck)
      refine ⟨_, _, rfl, ⟨?_, fun hwell => absurd (hclean.2 hwell) hne⟩,
        fun _ _ => ⟨st.errors, rfl, hne, hreports⟩⟩
      rintro ⟨g, hg⟩
      cases hg
    · next hcheck =>
      rw [List.append_assoc, List.append_assoc]
      refine ⟨_, _, rfl, ⟨fun _ => hclean.1 (errors_eq_nil_of_check hcheck), fun _ => ⟨_, rfl⟩⟩, ?_⟩
      intro failed hfailed
      cases hfailed
  · left
    refine ⟨?_, hlimit⟩
    unfold build
    rw [hlower]
    rfl

/-- A name is used one statement before it gets its value. -/
def early : Program where
  declarations := [⟨.input, "a", .scalar, .nowhere⟩, ⟨.output, "y", .scalar, .nowhere⟩]
  statements :=
    [.assignment "y" ⟨"correct", [⟨none, .identifier "z", .nowhere⟩], .nowhere⟩ .nowhere,
      .assignment "z" ⟨"split", [⟨none, .identifier "a", .nowhere⟩], .nowhere⟩ .nowhere]

lemma builtin_params_nodup (name : String) (spec : OpSpec) (h : Registry.builtin.get? name = some spec) :
    (spec.params.map (·.name)).Nodup := by
  have hall : ∀ e ∈ Registry.builtin.specs.entries, (e.2.params.map (·.name)).Nodup := by decide +kernel
  exact hall _ (Dict.mem_entries_iff.2 h)

/-- The rules do not see it, and lowering reports it. -/
theorem build_accepts_early : Rules.check .builtin early = [] ∧ ∃ failed errors,
    build .builtin "early" early [] = .ok (.error failed, errors.map (·.diagnostic .build)) ∧ errors ≠ [] ∧
      ∀ e ∈ errors, Reportable .builtin early.outputs e := by
  have hrules : Rules.check .builtin early = [] := by decide +kernel
  have hsink : ¬ Diagnostics.Failing [] .build := fun ⟨d, hd, _⟩ => by cases hd
  refine ⟨hrules, ?_⟩
  rcases build_accepts builtin_params_nodup hrules hsink "early" with
    ⟨-, hlimit⟩ | ⟨outcome, reported, hbuild, hiff, hfails⟩
  · exact absurd hlimit (by decide +kernel)
  · cases outcome with
    | ok g =>
      have hnone : (early.types? .builtin).isSome = false := by decide +kernel
      exact absurd (hiff.1 ⟨g, rfl⟩).typed (by rw [hnone]; exact Bool.false_ne_true)
    | error failed =>
      obtain ⟨errors, rfl, hne, hall⟩ := hfails failed rfl
      exact ⟨failed, errors, hbuild, hne, hall⟩

end Lowering

end Waveflow
