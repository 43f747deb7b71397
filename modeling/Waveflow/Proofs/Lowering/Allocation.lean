import Waveflow.Proofs.Lowering.Accepts

/-!
# Numbers given out while a program is lowered

Nothing can keep lowering from its end but a lack of numbers for nodes.  `Lowering.Allocates r name p count` says that
at some point of the walk a number is given out, and that `count` numbers have then been given out in all: one for
every input, one for every constant that has not been met before, and one for every call whose operands are there and
fit.  If the last of these counts is in range lowering comes to its end (`Lowering.exists_lower`), and no count is above
what the text of the program needs at most (`Lowering.Allocates.le_demand`).
-/

namespace Waveflow

variable {r : Registry} {outputs : List Declaration} {count : Nat}

namespace Checked.Allots

variable {α : Type} {x : Checked α} {next : α → Nat} {before k : Nat}

/-- A computation that stays in the range has a value. -/
lemma exists_ok (h : Allots before k next x) (hroom : before + k < wordLimit) : ∃ a, x = .ok a := by
  cases x with
  | ok a => exact ⟨a, rfl⟩
  | error f => exact absurd h.2 (Nat.not_le.2 hroom)

lemma next_le {a : α} (h : Allots before k next x) (hok : x = .ok a) : next a ≤ before + k := by
  rw [hok] at h
  exact h

end Checked.Allots

namespace Lowering

variable {a : Argument} {arguments : List Argument} {c : Call} {st : State}

/-! ### Who takes numbers -/

/-- While operands are lowered a number is given out, and then it is so many. -/
inductive OperandsAllocate : List Argument → State → Nat → Prop
  | constant {a : Argument} {rest : List Argument} {st : State} {x : Double} : a.value = .literal (.number x) →
      st.constants.lookup x.bits = none → OperandsAllocate (a :: rest) st (st.next + 1)
  | later {a : Argument} {rest : List Argument} {st st' : State} {id : NodeId} {count : Nat} :
      operand a st = .ok (.value id, st') → OperandsAllocate rest st' count → OperandsAllocate (a :: rest) st count

/-- While a call is lowered a number is given out, and then it is so many. -/
inductive CallAllocates (r : Registry) (c : Call) (st : State) : Nat → Prop
  | operand {spec : OpSpec} {count : Nat} : r.callable? c.operation = some spec →
      OperandsAllocate (operandArguments spec c) st count → CallAllocates r c st count
  | node {spec : OpSpec} {ids : List NodeId} {st' : State} {ty : ValueType} : r.callable? c.operation = some spec →
      operands (operandArguments spec c) st = .ok (.value ids, st') → callType spec c st'.graph ids = .ok ty →
      CallAllocates r c st (st'.next + 1)

mutual

/-- While a statement is lowered a number is given out, and then it is so many. -/
inductive StatementAllocates (r : Registry) (outputs : List Declaration) : Params →
    Statement → State → Nat → Prop
  | assignment {around : Params} {target : String} {c : Call} {span : Span} {st : State} {count : Nat} :
      CallAllocates r c st count → StatementAllocates r outputs around (.assignment target c span) st count
  | call {around : Params} {c : Call} {st : State} {count : Nat} :
      CallAllocates r c st count → StatementAllocates r outputs around (.call c) st count
  | block {around : Params} {label : String} {parameters : List Argument} {body : List Statement} {span : Span}
      {st : State} {count : Nat} : StatementsAllocate r outputs (blockParams around parameters) body st count →
      StatementAllocates r outputs around (.block label parameters body span) st count

/-- While several statements are lowered a number is given out, and then it is so many. -/
inductive StatementsAllocate (r : Registry) (outputs : List Declaration) :
    Params → List Statement → State → Nat → Prop
  | first {around : Params} {s : Statement} {rest : List Statement} {st : State} {count : Nat} :
      StatementAllocates r outputs around s st count → StatementsAllocate r outputs around (s :: rest) st count
  | later {around : Params} {s : Statement} {rest : List Statement} {st st' : State} {count : Nat} :
      statement r outputs around s st = .ok st' → StatementsAllocate r outputs around rest st' count →
      StatementsAllocate r outputs around (s :: rest) st count

end

/-- While inputs are declared a number is given out, and then it is so many. -/
inductive InputsAllocate : List Declaration → State → Nat → Prop
  | first {d : Declaration} {rest : List Declaration} {st : State} : InputsAllocate (d :: rest) st (st.next + 1)
  | later {d : Declaration} {rest : List Declaration} {st : State} {id : NodeId} {g : Graph} {count : Nat} :
      st.graph.addInput d.name d.ty = .ok (id, g) →
      InputsAllocate rest ({ st with graph := g }.bind d.name id) count → InputsAllocate (d :: rest) st count

/-- While a program is lowered a number is given out, and then it is so many. -/
inductive Allocates (r : Registry) (name : String) (p : Program) : Nat → Prop
  | inputs {count : Nat} : InputsAllocate p.inputs (State.start name) count → Allocates r name p count
  | statements {st : State} {count : Nat} : inputs p.inputs (State.start name) = .ok st →
      StatementsAllocate r p.outputs Dict.empty p.statements st count → Allocates r name p count

/-! ### With enough numbers lowering ends -/

lemma exists_operand (hroom : ∀ count, OperandsAllocate [a] st count → count < wordLimit) :
    ∃ out, operand a st = .ok out := by
  unfold operand
  split
  · split
    · exact ⟨_, rfl⟩
    · split <;> exact ⟨_, rfl⟩
  · next x hvalue =>
    have hconstant : ∃ out, constant x st = .ok out := by
      unfold constant
      split
      · exact ⟨_, rfl⟩
      · next hnew =>
        obtain ⟨⟨id, g⟩, hadd⟩ := (Graph.append_allots st.graph fun id =>
          Node.plain id (.constant x) [] .scalar).exists_ok (hroom _ (.constant hvalue hnew))
        unfold Graph.addConstant
        rw [hadd]
        exact ⟨_, rfl⟩
    obtain ⟨out, hout⟩ := hconstant
    rw [hout]
    exact ⟨_, rfl⟩
  · exact ⟨_, rfl⟩

lemma exists_operands (hroom : ∀ count, OperandsAllocate arguments st count → count < wordLimit) :
    ∃ out, operands arguments st = .ok out := by
  induction arguments generalizing st with
  | nil => exact ⟨_, rfl⟩
  | cons a rest ih =>
    have hfirst : ∀ count, OperandsAllocate [a] st count → count < wordLimit := by
      intro count h
      cases h with
      | constant hvalue hnew => exact hroom _ (.constant hvalue hnew)
      | later _ hnone => cases hnone
    obtain ⟨⟨first, st₁⟩, hrun⟩ := exists_operand hfirst
    unfold operands
    rw [hrun, Checked.ok_bind]
    cases first with
    | poisoned => exact ⟨_, rfl⟩
    | failed e => exact ⟨_, rfl⟩
    | value id =>
      obtain ⟨⟨more, st₂⟩, hmore⟩ := ih fun count h => hroom count (.later hrun h)
      dsimp only
      rw [hmore, Checked.ok_bind]
      cases more <;> exact ⟨_, rfl⟩

lemma exists_call (around : Params) (hroom : ∀ count, CallAllocates r c st count → count < wordLimit) :
    ∃ out, call r around c st = .ok out := by
  unfold call
  cases hspec : r.callable? c.operation with
  | none => exact ⟨_, rfl⟩
  | some spec =>
    obtain ⟨⟨ids, st₁⟩, hrun⟩ := exists_operands fun count h => hroom count (.operand hspec h)
    dsimp only
    rw [hrun, Checked.ok_bind]
    cases ids with
    | poisoned => exact ⟨_, rfl⟩
    | failed e => exact ⟨_, rfl⟩
    | value ids =>
      dsimp only
      unfold addCall
      split
      · exact ⟨_, rfl⟩
      · next ty hty =>
        obtain ⟨added, hadd⟩ := (Graph.addOperation_allots st₁.graph spec.kind ids ty).exists_ok
          (hroom _ (.node hspec hrun hty))
        rw [hadd, Checked.ok_bind]
        cases added <;> exact ⟨_, rfl⟩

mutual

theorem exists_statement (around : Params) (st : State) : (s : Statement) →
    (∀ count, StatementAllocates r outputs around s st count → count < wordLimit) →
      ∃ st', statement r outputs around s st = .ok st'
  | .assignment target c span, hroom => by
    obtain ⟨⟨lowered, st₁⟩, hrun⟩ := exists_call around fun count h => hroom count (.assignment h)
    unfold statement assignment
    rw [hrun, Checked.ok_bind]
    cases lowered with
    | poisoned => exact ⟨_, rfl⟩
    | failed e => exact ⟨_, rfl⟩
    | value id =>
      dsimp only
      split <;> exact ⟨_, rfl⟩
  | .call c, hroom => by
    obtain ⟨⟨lowered, st₁⟩, hrun⟩ := exists_call around fun count h => hroom count (.call h)
    unfold statement bareCall
    rw [hrun, Checked.ok_bind]
    cases lowered <;> cases rebound? c <;> exact ⟨_, rfl⟩
  | .block label parameters body span, hroom => by
    unfold statement
    exact exists_statements _ st body fun count h => hroom count (.block h)

theorem exists_statements (around : Params) (st : State) : (body : List Statement) →
    (∀ count, StatementsAllocate r outputs around body st count → count < wordLimit) →
      ∃ st', statements r outputs around body st = .ok st'
  | [], _ => by
    unfold statements
    exact ⟨_, rfl⟩
  | s :: rest, hroom => by
    obtain ⟨st₁, hfirst⟩ := exists_statement around st s fun count h => hroom count (.first h)
    unfold statements
    rw [hfirst, Checked.ok_bind]
    exact exists_statements around st₁ rest fun count h => hroom count (.later hfirst h)

end

lemma exists_inputs {ds : List Declaration} (hroom : ∀ count, InputsAllocate ds st count → count < wordLimit) :
    ∃ st', inputs ds st = .ok st' := by
  induction ds generalizing st with
  | nil => exact ⟨st, rfl⟩
  | cons d rest ih =>
    have hadd : ∃ out, st.graph.addInput d.name d.ty = .ok out := by
      obtain ⟨out, hout⟩ := (Graph.append_allots st.graph fun id =>
        { Node.plain id .input [] d.ty with name := some d.name }).exists_ok (hroom _ .first)
      unfold Graph.addInput
      rw [hout]
      exact ⟨_, rfl⟩
    obtain ⟨⟨id, g⟩, hadd⟩ := hadd
    unfold inputs
    rw [hadd, Checked.ok_bind]
    exact ih fun count h => hroom count (.later hadd h)

/-- **With enough numbers for its nodes a program is lowered**, to a graph or with errors. -/
theorem exists_lower {name : String} {p : Program} (hroom : ∀ count, Allocates r name p count → count < wordLimit) :
    ∃ st, lower r name p = .ok st := by
  obtain ⟨st₁, hinputs⟩ := exists_inputs fun count h => hroom count (.inputs h)
  obtain ⟨st₂, hstatements⟩ : ∃ st₂, statements r p.outputs Dict.empty p.statements st₁ = .ok st₂ :=
    exists_statements Dict.empty st₁ p.statements fun count h => hroom count (.statements hinputs h)
  unfold lower
  rw [hinputs, Checked.ok_bind, hstatements]
  exact ⟨_, rfl⟩

/-! ### How many numbers that are -/

lemma OperandsAllocate.le_length (h : OperandsAllocate arguments st count) : count ≤ st.next + arguments.length := by
  induction h with
  | constant hvalue hnew =>
    rw [List.length_cons]
    omega
  | @later a rest st st' id count hrun hrest ih =>
    have hfirst := (operand_allots a st).next_le hrun
    dsimp only at hfirst
    rw [List.length_cons]
    omega

lemma CallAllocates.le_demand (h : CallAllocates r c st count) : count ≤ st.next + c.demand r := by
  unfold Call.demand
  cases h with
  | @operand spec _ hspec hoperands =>
    have hle := hoperands.le_length
    rw [hspec]
    exact Nat.le_trans hle (Nat.add_le_add_left (Nat.le_succ _) _)
  | @node spec ids st' ty hspec hrun hty =>
    have hle := (operands_allots (operandArguments spec c) st).next_le hrun
    rw [hspec]
    exact Nat.succ_le_succ hle

mutual

theorem StatementAllocates.le_demand {around : Params} {st : State} {count : Nat} : (s : Statement) →
    StatementAllocates r outputs around s st count → count ≤ st.next + (s.calls.map (Call.demand r)).sum
  | .assignment target c span, h => by
    unfold Statement.calls
    rw [List.map_singleton, List.sum_singleton]
    cases h with
    | assignment h => exact h.le_demand
  | .call c, h => by
    unfold Statement.calls
    rw [List.map_singleton, List.sum_singleton]
    cases h with
    | call h => exact h.le_demand
  | .block label parameters body span, h => by
    unfold Statement.calls
    cases h with
    | block h => exact StatementsAllocate.le_demand body h

theorem StatementsAllocate.le_demand {around : Params} {st : State} {count : Nat} : (body : List Statement) →
    StatementsAllocate r outputs around body st count →
      count ≤ st.next + ((Statement.callsAll body).map (Call.demand r)).sum
  | [], h => by cases h
  | s :: rest, h => by
    unfold Statement.callsAll
    rw [List.map_append, List.sum_append]
    cases h with
    | first h =>
      have hle := StatementAllocates.le_demand s h
      omega
    | @later _ _ _ _ st' _ hrun h =>
      have hfirst := (statement_allots around st s).next_le hrun
      have hrest := StatementsAllocate.le_demand rest h
      omega

end

lemma InputsAllocate.le_length {ds : List Declaration} (h : InputsAllocate ds st count) :
    count ≤ st.next + ds.length := by
  induction h with
  | first =>
    rw [List.length_cons]
    omega
  | @later d rest st id g count hadd hrest ih =>
    have hnext : g.nextId = st.next + 1 := by
      cases Graph.addInput_ok hadd
      rfl
    have hle : count ≤ g.nextId + rest.length := ih
    rw [List.length_cons]
    omega

/-- **No more numbers are given out than the program needs at most.** -/
theorem Allocates.le_demand {name : String} {p : Program} (h : Allocates r name p count) : count ≤ p.demand r := by
  unfold Program.demand
  cases h with
  | inputs h =>
    have hle : count ≤ 0 + p.inputs.length := h.le_length
    omega
  | @statements st _ hinputs h =>
    have hfirst : st.next ≤ 0 + p.inputs.length := (inputs_allots p.inputs (State.start name)).next_le hinputs
    have hrest := StatementsAllocate.le_demand p.statements h
    omega

/-- Nor has the graph then taken more. -/
lemma nextId_le_demand {name : String} {p : Program} (hok : lower r name p = .ok st) :
    st.graph.nextId ≤ p.demand r := by
  have hle : st.next ≤ 0 + p.demand r := (lower_allots name p).next_le hok
  rwa [Nat.zero_add] at hle

end Lowering

end Waveflow
