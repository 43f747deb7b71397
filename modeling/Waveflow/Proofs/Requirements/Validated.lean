import Waveflow.Proofs.Lowering.Calls
import Waveflow.Proofs.Requirements.Conflicts

/-!
# Programs that break no rule can be annotated

The literals of a call are looked at in three places: the rules check them, lowering hands them to a node, and
annotation reads budgets and a requirement from them.  The rules and lowering go by the same literals, and what the
common rules accept annotation can read (`nodeError?_of_checkCommonParams`): an amount that is not negative is a
budget, and a requirement that was put together once can be put together again.  So nothing is left that annotation of
such a program could refuse but an edge along which a requirement weakens.
-/

namespace Waveflow.Requirements

variable {r : Registry} {o : Options} {g : Graph} {n : Node} {params : Params} {key : String}

/-! ### What the common rules accept -/

/-- A checked amount is a budget. -/
lemma exists_budgetParam (h : checkAmount n.params key = .ok ()) (current : Budget) :
    ∃ b, budgetParam n key current = .ok b := by
  unfold checkAmount at h
  unfold budgetParam
  cases hvalue : n.params.get? key with
  | none => exact ⟨current, rfl⟩
  | some value =>
    rw [hvalue] at h
    cases value with
    | text s => exact ⟨current, rfl⟩
    | number x =>
      dsimp only at h
      split at h
      · next hamount =>
        obtain ⟨hfinite, hle⟩ := Bool.and_eq_true_iff.1 hamount
        refine ⟨.bounded x, if_pos ?_⟩
        have hlt : decide (x.value < 0.0) = false :=
          decide_eq_false (Decimal.not_lt_zero_of_le (of_decide_eq_true hle))
        rw [hfinite, hlt]
        rfl
      · cases h

/-- A checked correction is a requirement. -/
lemma exists_correctionParam (h : checkCorrection n.params = .ok ()) (current : Correction) :
    ∃ c, correctionParam n current = .ok c := by
  unfold checkCorrection at h
  unfold correctionParam
  cases hvalue : n.params.get? "correction" with
  | none => exact ⟨_, rfl⟩
  | some value =>
    rw [hvalue] at h
    cases value with
    | number x => cases h
    | text name =>
      dsimp only at h
      split at h
      · next c hc => exact ⟨c, hc⟩
      · cases h

lemma checkCommonParams_eq_ok (h : checkCommonParams params = .ok ()) :
    checkAmount params "coherence" = .ok () ∧ checkAmount params "thermal" = .ok () ∧
      checkCorrection params = .ok () := by
  unfold checkCommonParams at h
  obtain ⟨_, hcoherence, h⟩ := Checked.bind_eq_ok.1 h
  obtain ⟨_, hthermal, h⟩ := Checked.bind_eq_ok.1 h
  obtain ⟨_, -, h⟩ := Checked.bind_eq_ok.1 h
  obtain ⟨_, -, h⟩ := Checked.bind_eq_ok.1 h
  exact ⟨hcoherence, hthermal, h⟩

/-- **What the common rules accept annotation can read**, whatever the options. -/
theorem nodeError?_of_checkCommonParams (h : checkCommonParams n.params = .ok ()) : nodeError? r o n = none := by
  obtain ⟨hcoherence, hthermal, hcorrection⟩ := checkCommonParams_eq_ok h
  obtain ⟨coherence, hcoherence⟩ := exists_budgetParam hcoherence (defaults r o n).coherence
  obtain ⟨thermal, hthermal⟩ := exists_budgetParam hthermal (defaults r o n).thermal
  obtain ⟨correction, hcorrection⟩ := exists_correctionParam hcorrection (defaults r o n).correction
  unfold nodeError? attributes
  dsimp only
  rw [hcoherence]
  dsimp only
  rw [hthermal]
  dsimp only
  rw [hcorrection]
  rfl

/-! ### The stage -/

/-- Without an error of a node, annotation lets nodes inherit and reports conflicts, and nothing else. -/
lemma annotate_eq (hclean : ∀ n ∈ g.nodes, nodeError? r o n = none) (sink : Diagnostics) :
    annotate r o g sink = do
      let final ← inherit (annotateNodes r o g)
      let clashes ← conflicts final
      let sink := sink ++ clashes.map (·.diagnostic .annotate)
      return (final, sink.check .annotate, sink) := by
  have herrors : g.nodes.filterMap (nodeError? r o) = [] := List.filterMap_eq_nil_iff.2 hclean
  unfold annotate annotated
  dsimp only
  rw [herrors, List.isEmpty_nil, if_pos rfl, bind_assoc]
  congr 1
  funext final
  rw [bind_assoc]
  rfl

/-- Every node of a program that breaks no rule can be annotated. -/
lemma nodeError?_of_build {name : String} {p : Program} {sink sink' : Diagnostics} (hrules : Rules.check r p = [])
    (hbuild : Lowering.build r name p sink = .ok (.ok g, sink')) (hn : n ∈ g.nodes) : nodeError? r o n = none := by
  obtain ⟨hsettings, -, haccepted⟩ := Rules.found_of_check hrules
  obtain ⟨hbare, hoperations⟩ := Lowering.operations_of_build hbuild
  rw [← hsettings] at hoperations
  refine nodeError?_of_checkCommonParams ?_
  cases hop : n.op? with
  | none =>
    rw [(hbare n hn).2 hop]
    rfl
  | some op =>
    have hmem : (op, n.params) ∈ g.operations := List.mem_filterMap.2 ⟨n, hn, by rw [Node.operation?, hop]; rfl⟩
    rw [hoperations] at hmem
    obtain ⟨f, hf, hfn⟩ := List.mem_map.1 hmem
    obtain ⟨_, hcommon, -⟩ := Checked.bind_eq_ok.1 (haccepted f hf)
    rw [← (Prod.mk.inj hfn).2]
    exact hcommon

/-- **Rules, lowering and annotation agree on literals.**  Let a program break no rule and be lowered to a graph.  The
rules have computed literals for all its calls in order, and these are what the text says: the literals of the blocks
around the call, inner over outer, and over them its own attribute parameters.  They are also what the operations of
the graph carry, one for each call in order, and every operation accepts them.  Under all options every node can be
annotated, so annotation comes down to inheritance and the check for conflicts. -/
theorem annotate_follows_rules {name : String} {p : Program} {sink sink' : Diagnostics} (hrules : Rules.check r p = [])
    (hbuild : Lowering.build r name p sink = .ok (.ok g, sink')) :
    (Rules.found r p).map (·.call) = Statement.callsAll p.statements ∧
    Rules.found r p = p.settings r ∧
    g.operations = (Rules.found r p).map Setting.operation ∧
    (∀ f ∈ Rules.found r p, f.spec.checkParams f.literals = .ok ()) ∧
    (∀ o, ∀ n ∈ g.nodes, nodeError? r o n = none) ∧
    ∀ o sink, annotate r o g sink = do
      let final ← inherit (annotateNodes r o g)
      let clashes ← conflicts final
      let sink := sink ++ clashes.map (·.diagnostic .annotate)
      return (final, sink.check .annotate, sink) := by
  obtain ⟨hsettings, hcalls, haccepted⟩ := Rules.found_of_check hrules
  have hoperations := (Lowering.operations_of_build hbuild).2
  rw [← hsettings] at hoperations
  have hclean : ∀ o, ∀ n ∈ g.nodes, nodeError? r o n = none := fun o n hn => nodeError?_of_build hrules hbuild hn
  exact ⟨hcalls, hsettings, hoperations, haccepted, hclean, fun o sink => annotate_eq (hclean o) sink⟩

/-! ### Nested blocks -/

/-- A block in a block; the inner one sets another level, and a call in it another budget. -/
def nested : Program where
  declarations := [⟨.input, "a", .scalar, .nowhere⟩, ⟨.output, "y", .scalar, .nowhere⟩]
  statements :=
    [.block "block"
      [⟨some "level", .literal (.number 2.0), .nowhere⟩, ⟨some "coherence", .literal (.number 5.0), .nowhere⟩]
      [.block "block" [⟨some "level", .literal (.number 3.0), .nowhere⟩]
        [.assignment "u" ⟨"split", [⟨none, .identifier "a", .nowhere⟩,
          ⟨some "coherence", .literal (.number 7.0), .nowhere⟩], .nowhere⟩ .nowhere] .nowhere,
        .assignment "y" ⟨"split", [⟨none, .identifier "u", .nowhere⟩,
          ⟨some "correction", .literal (.text "fault_tolerant"), .nowhere⟩], .nowhere⟩ .nowhere] .nowhere]

theorem annotate_follows_rules_nested : ∃ g sink, Lowering.build .builtin "nested" nested [] = .ok (.ok g, sink) ∧
    (∀ o, ∀ n ∈ g.nodes, nodeError? .builtin o n = none) ∧
    g.operations.map (fun e => levelOf e.2) = [some 3, some 2] := by
  have haccepted : accepted (Lowering.build .builtin "nested" nested []) = true := by decide +kernel
  obtain ⟨g, sink, hbuild⟩ := exists_of_accepted haccepted
  have hrules : Rules.check .builtin nested = [] := List.isEmpty_iff.1 (by decide +kernel)
  obtain ⟨-, -, hoperations, -, hclean, -⟩ := annotate_follows_rules hrules hbuild
  refine ⟨g, sink, hbuild, hclean, ?_⟩
  rw [hoperations]
  decide +kernel

end Waveflow.Requirements
