import Waveflow.Proofs.Requirements.Inheritance

/-!
# Conflicts of requirements

A conflict is an edge from a fault-tolerant node into a weaker one.  After inheritance only a node with an explicit
requirement can be the weaker one, so annotation refuses a graph exactly for such edges, with one report for each.

A graph that is not refused keeps strength along every chain of edges that leaves a fault-tolerant node.  The one
exception is fault tolerance of level zero, which is no stronger than basic protection and so is not handed on; it
cannot be written in a program and comes from a default only.
-/

namespace Waveflow

open Relation (ReflTransGen)

/-! ### Levels -/

lemma Literal.positive?_pos {l : Literal} {k : Nat} (h : l.positive? = some k) : 0 < k := by
  obtain ⟨x, -, h⟩ := Option.bind_eq_some_iff.1 h
  split at h
  · next htest =>
    obtain rfl := Option.some.inj h
    rw [Bool.and_eq_true, Bool.and_eq_true, decide_eq_true_eq, decide_eq_true_eq] at htest
    obtain ⟨⟨hone, hwhole⟩, hmax⟩ := htest
    have hread : Decimal.parsed 1.0 = .finite .positive 4503599627370496 (-52) (by decide) := rfl
    rw [Decimal.le_iff_parsed, hread] at hone
    -- a double that is not below one is positive, and a positive whole number is not zero
    cases hx : Decimal.parsed x.value with
    | notANumber | zero _ =>
      rw [hx] at hone
      cases hone
    | infinity s =>
      unfold Decimal.isWhole at hwhole
      rw [Decimal.isFinite_eq_parsed, hx] at hwhole
      cases hwhole
    | finite s m e hm =>
      cases s with
      | negative =>
        rw [hx] at hone
        cases hone
      | positive =>
        have hcounter := (Decimal.counter_of_finite hx).1
          ⟨(Decimal.isWhole_of_finite hx).1 hwhole, (Decimal.le_wordMax_iff hx).1 hmax, rfl⟩
        refine Nat.pos_of_ne_zero fun hzero => ?_
        rw [hzero, Nat.zero_mul] at hcounter
        exact absurd hcounter.1 (Nat.ne_of_gt (Nat.mul_pos hm (Nat.two_pow_pos _)))
  · cases h

namespace Correction

/-- The requirement is not fault tolerance of level zero. -/
def Leveled (c : Correction) : Prop := ∀ code, c ≠ .faultTolerant 0 code

lemma leveled_faultTolerant {level : Nat} (h : 0 < level) (code : String) : (faultTolerant level code).Leveled := by
  intro code' heq
  injection heq with hlevel
  omega

lemma leveled_atLevel (level : Nat) : (atLevel level).Leveled :=
  leveled_faultTolerant (Nat.lt_of_lt_of_le Nat.one_pos (Nat.le_max_right ..)) _

lemma Leveled.withCode {c : Correction} (h : c.Leveled) (code : String) : (c.withCode code).Leveled := by
  cases c with
  | none | basic _ => exact fun _ heq => by cases heq
  | faultTolerant level old =>
    refine leveled_faultTolerant (Nat.pos_of_ne_zero ?_) code
    rintro rfl
    exact h old rfl

lemma leveled_ofParts {name : String} {level : Option Nat} {code : Option String} {c : Correction}
    (h : ofParts name level code = .ok c) : c.Leveled := by
  unfold ofParts at h
  dsimp only at h
  split at h
  · split at h
    · cases h
    · obtain rfl := Except.ok.inj h
      exact fun _ heq => by cases heq
  split at h
  · split at h
    · cases h
    · have hbasic : (basic basicCode).Leveled := fun _ heq => by cases heq
      cases code <;> obtain rfl := Except.ok.inj h
      · exact hbasic
      · exact hbasic.withCode _
  split at h
  · cases code <;> obtain rfl := Except.ok.inj h
    · exact leveled_atLevel _
    · exact (leveled_atLevel _).withCode _
  · cases h

/-- Above basic protection everything is fault-tolerant. -/
lemma Leveled.one_lt_rank {c : Correction} (h : c.Leveled) (hft : c.isFaultTolerant = true) : 1 < c.rank := by
  cases c with
  | none | basic _ => cases hft
  | faultTolerant level code =>
    have hpos : level ≠ 0 := by
      rintro rfl
      exact h code rfl
    show 1 < 1 + level
    omega

end Correction

namespace Requirements

variable {r : Registry} {o : Options} {g : Graph} {n : Node}

lemma leveled_refine {c : Correction} {level : Option Nat} (h : c.Leveled) (hlevel : ∀ k, level = some k → 0 < k)
    (code : Option String) : (refine c level code).Leveled := by
  unfold refine
  cases level with
  | none =>
    cases code with
    | none => exact h
    | some code => exact h.withCode code
  | some k =>
    cases c with
    | none | basic _ =>
      have hleveled := Correction.leveled_atLevel k
      cases code with
      | none => exact hleveled
      | some code => exact hleveled.withCode code
    | faultTolerant _ inner =>
      have hleveled := Correction.leveled_faultTolerant (hlevel k rfl) inner
      cases code with
      | none => exact hleveled
      | some code => exact hleveled.withCode code

/-- The requirement that a node has by itself: from the defaults, its operation and its literals. -/
def base (r : Registry) (o : Options) (n : Node) : Correction := (annotateNode r o n).attrs.correction

lemma correctionParam_of_clean (h : nodeError? r o n = none) :
    correctionParam n (defaults r o n).correction = .ok (base r o n) := by
  unfold nodeError? at h
  rw [Option.map_eq_none_iff] at h
  unfold base annotateNode
  unfold attributes at h ⊢
  dsimp only at h ⊢
  split at h
  · cases h
  split at h
  · cases h
  cases hcorrection : correctionParam n (defaults r o n).correction with
  | ok c => rfl
  | error e =>
    rw [hcorrection] at h
    cases h

/-- Level zero comes from a default only. -/
lemma leveled_base (hclean : nodeError? r o n = none) (h : (defaults r o n).correction.Leveled) :
    (base r o n).Leveled := by
  have hparam := correctionParam_of_clean hclean
  unfold correctionParam at hparam
  split at hparam
  · exact Correction.leveled_ofParts hparam
  · rw [← Except.ok.inj hparam]
    refine leveled_refine h (fun k hk => ?_) _
    obtain ⟨l, -, hl⟩ := Option.bind_eq_some_iff.1 hk
    exact Literal.positive?_pos hl

/-! ### Edges along which strength falls -/

/-- The edge, given as consumer and input, leaves a fault-tolerant node for a weaker one. -/
def weakens (e : Node × Node) : Bool :=
  e.2.attrs.correction.isFaultTolerant && decide (e.1.attrs.correction.rank < e.2.attrs.correction.rank)

/-- The report of such an edge. -/
def clash (e : Node × Node) : CompileError :=
  .constraintConflict e.1.id ("requires " ++ e.1.attrs.correction.text ++ " but depends on " ++ e.2.id.text ++
    " which requires " ++ e.2.attrs.correction.text)

/-- A strength is computed exactly if it is below the limit. -/
lemma strength_cases (c : Correction) :
    c.strength = .ok c.rank ∧ c.rank < wordLimit ∨ c.strength = .error .add ∧ wordLimit ≤ c.rank := by
  rcases Nat.lt_or_ge c.rank wordLimit with hlt | hge
  · exact .inl ⟨Correction.strength_eq hlt, hlt⟩
  · refine .inr ⟨?_, hge⟩
    cases c with
    | none | basic _ => exact absurd hge (by simp [Correction.rank, wordLimit])
    | faultTolerant level code => exact if_neg (Nat.not_lt.2 hge)

/-- The check of one edge: there is nothing to find, it is a conflict, or a strength is beyond the limit. -/
lemma conflict?_cases (n input : Node) :
    conflict? n input = .ok none ∧ weakens (n, input) = false ∨
    conflict? n input = .ok (some (clash (n, input))) ∧ weakens (n, input) = true ∨
    conflict? n input = .error .add ∧
      (wordLimit ≤ n.attrs.correction.rank ∨ wordLimit ≤ input.attrs.correction.rank) := by
  unfold conflict? weakens
  dsimp only
  cases hft : input.attrs.correction.isFaultTolerant with
  | false => exact .inl ⟨rfl, rfl⟩
  | true =>
    rw [Bool.not_true, if_neg Bool.false_ne_true, Bool.true_and]
    rcases strength_cases n.attrs.correction with ⟨hown, -⟩ | ⟨hown, hlimit⟩
    · rcases strength_cases input.attrs.correction with ⟨hrequired, -⟩ | ⟨hrequired, hlimit⟩
      · rw [hown, Checked.ok_bind, hrequired, Checked.ok_bind]
        by_cases hlt : n.attrs.correction.rank < input.attrs.correction.rank
        · exact .inr (.inl ⟨by simp [hlt, clash], by simp [hlt]⟩)
        · exact .inl ⟨by simp [hlt], by simp [hlt]⟩
      · rw [hown, Checked.ok_bind, hrequired]
        exact .inr (.inr ⟨rfl, .inr hlimit⟩)
    · rw [hown]
      exact .inr (.inr ⟨rfl, .inl hlimit⟩)

lemma conflictsOf_eq {es : List (Node × Node)}
    (h : ∀ e ∈ es, e.1.attrs.correction.rank < wordLimit ∧ e.2.attrs.correction.rank < wordLimit) :
    conflictsOf es = .ok ((es.filter weakens).map clash) := by
  induction es with
  | nil => rfl
  | cons e rest ih =>
    obtain ⟨n, input⟩ := e
    obtain ⟨hn, hinput⟩ := h _ (List.mem_cons_self ..)
    have hrest := ih fun e he => h e (List.mem_cons_of_mem _ he)
    rw [conflictsOf]
    rcases conflict?_cases n input with ⟨hfirst, hweak⟩ | ⟨hfirst, hweak⟩ | ⟨-, hlimit | hlimit⟩
    · rw [hfirst, Checked.ok_bind, hrest, Checked.ok_bind, List.filter_cons_of_neg (by simp [hweak])]
      rfl
    · rw [hfirst, Checked.ok_bind, hrest, Checked.ok_bind, List.filter_cons_of_pos hweak]
      rfl
    · exact absurd hn (Nat.not_lt.2 hlimit)
    · exact absurd hinput (Nat.not_lt.2 hlimit)

lemma mem_edges (hg : g.Ordered) {e : Node × Node} :
    e ∈ edges g ↔ e.1 ∈ g.nodes ∧ e.2 ∈ g.nodes ∧ e.2.id ∈ e.1.inputs := by
  obtain ⟨n, input⟩ := e
  unfold edges
  simp only [List.mem_flatMap, List.mem_map, List.mem_filterMap, Prod.mk.injEq]
  constructor
  · rintro ⟨m, hm, x, ⟨i, hi, hx⟩, rfl, rfl⟩
    obtain ⟨hmem, rfl⟩ := (Graph.node?_eq_some_iff hg).1 hx
    exact ⟨hm, hmem, hi⟩
  · rintro ⟨hn, hinput, hi⟩
    exact ⟨n, hn, input, ⟨input.id, hi, hg.node?_of_mem hinput⟩, rfl, rfl⟩

/-! ### The stage -/

variable {final : NodeId → Correction} {sink : Diagnostics}

/-- The edge into the node leaves a fault-tolerant node, and the explicit requirement of the node is weaker. -/
def Conflicting (final : NodeId → Correction) (n : Node) (i : NodeId) : Prop :=
  n.isExplicit = true ∧ (final i).isFaultTolerant = true ∧ (final n.id).rank < (final i).rank

/-- The edge, given as consumer and input, is such an edge. -/
def isConflict (e : Node × Node) : Bool := e.1.isExplicit && weakens e

/-- The graph with the requirements that its nodes end with. -/
def concluded (r : Registry) (o : Options) (g : Graph) (final : NodeId → Correction) : Graph :=
  (annotateNodes r o g).withCorrections final

/-- A node with the requirement that it ends with. -/
def concludedNode (r : Registry) (o : Options) (final : NodeId → Correction) (n : Node) : Node :=
  { n with attrs := { (annotateNode r o n).attrs with correction := final n.id } }

lemma mem_concluded {m : Node} :
    m ∈ (concluded r o g final).nodes ↔ ∃ n ∈ g.nodes, m = concludedNode r o final n := by
  unfold concluded Graph.withCorrections annotateNodes
  dsimp only
  rw [List.map_map, List.mem_map]
  constructor
  · rintro ⟨n, hn, rfl⟩
    exact ⟨n, hn, rfl⟩
  · rintro ⟨n, hn, rfl⟩
    exact ⟨n, hn, rfl⟩

/-- Only explicit requirements are weaker than a fault-tolerant one above them. -/
lemma weakens_eq_isConflict (hg : g.Ordered) (hfinal : ∀ n ∈ g.nodes, Inherits final (base r o n) n)
    {e : Node × Node} (he : e ∈ edges (concluded r o g final)) : weakens e = isConflict e := by
  have hordered : (concluded r o g final).Ordered :=
    ((reattributed_annotateNodes r o g).trans (Graph.reattributed_withCorrections _ final)).ordered hg
  obtain ⟨hn, hinput, hi⟩ := (mem_edges hordered).1 he
  obtain ⟨m, input⟩ := e
  obtain ⟨n, hnode, rfl⟩ := mem_concluded.1 hn
  obtain ⟨above, -, rfl⟩ := mem_concluded.1 hinput
  unfold isConflict
  cases hexplicit : n.isExplicit with
  | true =>
    show _ = (n.isExplicit && _)
    rw [hexplicit, Bool.true_and]
  | false =>
    show _ = (n.isExplicit && _)
    rw [hexplicit, Bool.false_and]
    show ((final above.id).isFaultTolerant && decide ((final n.id).rank < (final above.id).rank)) = false
    cases hft : (final above.id).isFaultTolerant with
    | false => rfl
    | true =>
      rw [Bool.true_and, decide_eq_false_iff_not]
      exact Nat.not_lt.2 ((hfinal n hnode).rank_le hexplicit hi hft)

/-- There is a conflict exactly if some edge is listed as one. -/
lemma exists_conflict_iff (hg : g.WellFormed) : (edges (concluded r o g final)).filter isConflict ≠ [] ↔
    ∃ n ∈ g.nodes, ∃ i ∈ n.inputs, Conflicting final n i := by
  have hordered : (concluded r o g final).Ordered :=
    ((reattributed_annotateNodes r o g).trans (Graph.reattributed_withCorrections _ final)).ordered hg.ordered
  constructor
  · intro hne
    obtain ⟨⟨m, input⟩, he⟩ := List.exists_mem_of_ne_nil _ hne
    obtain ⟨he, hconflict⟩ := List.mem_filter.1 he
    obtain ⟨hn, hinput, hi⟩ := (mem_edges hordered).1 he
    obtain ⟨n, hnode, rfl⟩ := mem_concluded.1 hn
    obtain ⟨above, -, rfl⟩ := mem_concluded.1 hinput
    unfold isConflict weakens at hconflict
    rw [Bool.and_eq_true, Bool.and_eq_true, decide_eq_true_eq] at hconflict
    exact ⟨n, hnode, above.id, hi, hconflict⟩
  · rintro ⟨n, hn, i, hi, hexplicit, hft, hlt⟩
    obtain ⟨input, hinput, rfl⟩ := Graph.mem_ids.1 (hg.closed n hn i hi)
    have hedge : (concludedNode r o final n, concludedNode r o final input) ∈ edges (concluded r o g final) :=
      (mem_edges hordered).2 ⟨mem_concluded.2 ⟨n, hn, rfl⟩, mem_concluded.2 ⟨input, hinput, rfl⟩, hi⟩
    refine List.ne_nil_of_mem (List.mem_filter.2 ⟨hedge, ?_⟩)
    unfold isConflict weakens
    rw [Bool.and_eq_true, Bool.and_eq_true, decide_eq_true_eq]
    exact ⟨hexplicit, hft, hlt⟩

/-- Without a conflict no edge that leaves a fault-tolerant node leads to a weaker one. -/
lemma rank_le_of_feeds (hfinal : ∀ n ∈ g.nodes, Inherits final (base r o n) n)
    (hnone : ¬ ∃ n ∈ g.nodes, ∃ i ∈ n.inputs, Conflicting final n i) {a b : NodeId} (hab : g.Feeds a b)
    (hft : (final a).isFaultTolerant = true) : (final a).rank ≤ (final b).rank := by
  obtain ⟨n, hn, rfl, hi⟩ := hab
  cases hexplicit : n.isExplicit with
  | false => exact (hfinal n hn).rank_le hexplicit hi hft
  | true => exact Nat.le_of_not_lt fun hlt => hnone ⟨n, hn, a, hi, hexplicit, hft, hlt⟩

/-- **Strength never falls along a chain of edges that leaves a fault-tolerant node.** -/
theorem rank_le_of_chain (hfinal : ∀ n ∈ g.nodes, Inherits final (base r o n) n)
    (hnone : ¬ ∃ n ∈ g.nodes, ∃ i ∈ n.inputs, Conflicting final n i)
    (hleveled : ∀ n ∈ g.nodes, (final n.id).Leveled) {u v : NodeId} (hu : u ∈ g.ids)
    (hft : (final u).isFaultTolerant = true) (huv : ReflTransGen g.Feeds u v) : (final u).rank ≤ (final v).rank := by
  have hpos : 1 < (final u).rank := by
    obtain ⟨n, hn, rfl⟩ := Graph.mem_ids.1 hu
    exact (hleveled n hn).one_lt_rank hft
  induction huv with
  | refl => exact Nat.le_refl _
  | tail _ hab ih =>
    -- what is as strong as a fault-tolerant requirement is fault-tolerant
    exact Nat.le_trans ih
      (rank_le_of_feeds hfinal hnone hab (Correction.isFaultTolerant_of_rank (Nat.lt_of_lt_of_le hpos ih)))

/-- What annotation makes of nodes without an error of their own. -/
lemma annotated_eq (hg : g.WellFormed) (ha : g.Acyclic) (hclean : ∀ n ∈ g.nodes, nodeError? r o n = none)
    (hlevels : ∀ n ∈ g.nodes, (base r o n).rank < wordLimit) :
    ∃ final, annotated r o g =
        .ok (concluded r o g final, ((edges (concluded r o g final)).filter isConflict).map clash) ∧
      (∀ n ∈ g.nodes, ∃ m ∈ g.nodes, final n.id = base r o m) ∧
        ∀ n ∈ g.nodes, Inherits final (base r o n) n := by
  have hre := reattributed_annotateNodes r o g
  have hbound : ∀ m ∈ (annotateNodes r o g).nodes, m.attrs.correction.rank < wordLimit := by
    intro m hm
    obtain ⟨n, hn, rfl⟩ := List.mem_map.1 hm
    exact hlevels n hn
  obtain ⟨final, hrun, horigin, hinherits⟩ := inherit_eq (hre.wellFormed hg) (hre.acyclic ha) hbound
  have horigin' : ∀ n ∈ g.nodes, ∃ m ∈ g.nodes, final n.id = base r o m := by
    intro n hn
    obtain ⟨m, hm, heq⟩ := horigin _ (List.mem_map_of_mem hn)
    obtain ⟨x, hx, rfl⟩ := List.mem_map.1 hm
    exact ⟨x, hx, heq⟩
  have hfinal : ∀ n ∈ g.nodes, Inherits final (base r o n) n := by
    intro n hn
    obtain ⟨hexplicit, hkeeps, hinherits⟩ := hinherits _ (List.mem_map_of_mem hn)
    exact ⟨hexplicit, hkeeps, hinherits⟩
  refine ⟨final, ?_, horigin', hfinal⟩
  have herrors : g.nodes.filterMap (nodeError? r o) = [] := List.filterMap_eq_nil_iff.2 hclean
  have hordered : (concluded r o g final).Ordered :=
    (hre.trans (Graph.reattributed_withCorrections _ final)).ordered hg.ordered
  have hlimit : ∀ m ∈ (concluded r o g final).nodes, m.attrs.correction.rank < wordLimit := by
    intro m hm
    obtain ⟨n, hn, rfl⟩ := mem_concluded.1 hm
    obtain ⟨x, hx, heq⟩ := horigin' n hn
    show (final n.id).rank < wordLimit
    exact heq ▸ hlevels x hx
  have hconflicts : conflicts (concluded r o g final) =
      .ok (((edges (concluded r o g final)).filter isConflict).map clash) := by
    unfold conflicts
    rw [conflictsOf_eq fun e he =>
      ⟨hlimit _ ((mem_edges hordered).1 he).1, hlimit _ ((mem_edges hordered).1 he).2.1⟩]
    rw [List.filter_congr fun e he => weakens_eq_isConflict hg.ordered hfinal he]
  unfold annotated
  dsimp only
  rw [herrors, List.isEmpty_nil, if_pos rfl, hrun, Checked.ok_bind]
  show (conflicts (concluded r o g final) >>= _) = _
  rw [hconflicts]
  rfl

/-- **Inheritance and its conflicts.**  If every node can be annotated, annotation ends: an explicit requirement
stays, every other node has the strongest fault-tolerant requirement of its inputs if that is above its own, and
there is one report for each edge into a weaker explicit requirement.  The stage fails exactly if there is such an
edge.  If it does not, strength never falls along a chain of edges that leaves a fault-tolerant node, unless a
default is fault-tolerant of level zero. -/
theorem annotate_inherits (hg : g.WellFormed) (ha : g.Acyclic) (hclean : ∀ n ∈ g.nodes, nodeError? r o n = none)
    (hlevels : ∀ n ∈ g.nodes, (base r o n).rank < wordLimit) (hsink : ¬ sink.Failing .annotate) :
    ∃ final result, annotate r o g sink = .ok (concluded r o g final, result,
        sink ++ ((edges (concluded r o g final)).filter isConflict).map (fun e => (clash e).diagnostic .annotate)) ∧
      (∀ n ∈ g.nodes, Inherits final (base r o n) n) ∧
      ((∃ failed, result = .error failed) ↔ ∃ n ∈ g.nodes, ∃ i ∈ n.inputs, Conflicting final n i) ∧
      (result = .ok () → (∀ n ∈ g.nodes, (defaults r o n).correction.Leveled) →
        ∀ u ∈ g.ids, ∀ v, (final u).isFaultTolerant = true → ReflTransGen g.Feeds u v →
          (final u).rank ≤ (final v).rank) := by
  obtain ⟨final, hannotated, horigin, hfinal⟩ := annotated_eq hg ha hclean hlevels
  let reports := ((edges (concluded r o g final)).filter isConflict).map (fun e => (clash e).diagnostic .annotate)
  have hfailing : (sink ++ reports).Failing .annotate ↔
      ∃ n ∈ g.nodes, ∃ i ∈ n.inputs, Conflicting final n i := by
    rw [← exists_conflict_iff (r := r) (o := o) hg]
    constructor
    · rintro ⟨d, hd, hstage, herror⟩ hnil
      have hreports : reports = [] := by
        show List.map _ _ = []
        rw [hnil]
        rfl
      rw [hreports, List.append_nil] at hd
      exact hsink ⟨d, hd, hstage, herror⟩
    · intro hne
      obtain ⟨e, he⟩ := List.exists_mem_of_ne_nil _ hne
      exact ⟨_, List.mem_append_right _ (List.mem_map_of_mem he), rfl, rfl⟩
  refine ⟨final, (sink ++ reports).check .annotate, ?_, hfinal, ?_, fun hok hdefaults u hu v hft huv => ?_⟩
  · unfold annotate
    rw [hannotated, Checked.ok_bind]
    dsimp only
    rw [List.map_map]
    rfl
  · rw [← hfailing]
    constructor
    · rintro ⟨failed, hfailed⟩
      exact Diagnostics.failing_of_check hfailed
    · intro hfails
      cases hcheck : (sink ++ reports).check .annotate with
      | ok _ => exact absurd hfails (Diagnostics.check_eq_ok_iff.1 hcheck)
      | error failed => exact ⟨failed, rfl⟩
  · have hnone := mt hfailing.2 (Diagnostics.check_eq_ok_iff.1 hok)
    refine rank_le_of_chain hfinal hnone (fun n hn => ?_) hu hft huv
    obtain ⟨m, hm, heq⟩ := horigin n hn
    exact heq ▸ leveled_base (hclean m hm) (hdefaults m hm)

/-- A corrected value, a copy that says nothing of protection, and a reading of the copy that refuses it. -/
def exposed : Graph where
  name := "exposed"
  nodes := [Node.plain 0 .input [] .scalar, Node.plain 1 (.operation .correct) [0] .scalar,
    Node.plain 2 (.operation .split) [1] .scalar,
    { Node.plain 3 (.operation .measure) [2] .scalar with params := Dict.ofList [("correction", .text "none")] }]
  inputs := [0]
  outputs := []
  hints := Hints.empty
  nextId := 4

/-- The copy inherits, and the edge from it to the reading is a conflict. -/
theorem annotate_inherits_exposed : ∃ final failed sink,
    annotate .builtin .standard exposed [] = .ok (concluded .builtin .standard exposed final, .error failed, sink) ∧
      final 2 = .faultTolerant 1 "surface" ∧ final 3 = .none := by
  have hranked : exposed.Ranked (fun id => id) := by
    unfold Graph.Ranked
    decide
  have hclosed : exposed.Closed := by
    unfold Graph.Closed
    decide
  have hwell : exposed.WellFormed := ⟨Graph.ordered_iff.2 (by decide), by decide, hclosed⟩
  have hsink : ¬ Diagnostics.Failing [] .annotate := fun ⟨d, hd, _⟩ => by cases hd
  obtain ⟨final, result, hrun, hfinal, hfails, -⟩ :=
    annotate_inherits (r := .builtin) (o := .standard) hwell hranked.acyclic (by decide) (by decide) hsink
  have hnone : final 0 = .none := (hfinal _ (List.mem_cons_self ..)).keeps rfl fun i hi => by cases hi
  have hcorrected : final 1 = .faultTolerant 1 "surface" := by
    refine (hfinal _ (.tail _ (.head _))).keeps rfl fun i hi hft => ?_
    obtain rfl := List.mem_singleton.1 hi
    rw [hnone] at hft
    cases hft
  have hcopy : final 2 = .faultTolerant 1 "surface" := by
    obtain ⟨i, hi, heq, -⟩ := (hfinal _ (.tail _ (.tail _ (.head _)))).inherits rfl
      ⟨1, List.mem_singleton_self _, by rw [hcorrected]; rfl, by rw [hcorrected]; decide⟩
    obtain rfl := List.mem_singleton.1 hi
    exact heq.trans hcorrected
  have hlast := List.getLast_mem (by decide : exposed.nodes ≠ [])
  have hreading := (hfinal _ hlast).explicit rfl
  obtain ⟨failed, rfl⟩ := hfails.2 ⟨_, hlast, 2, List.mem_singleton_self _, rfl, by rw [hcopy]; rfl,
    by rw [hcopy, hreading]; decide⟩
  exact ⟨final, failed, _, hrun, hcopy, hreading⟩

end Requirements

end Waveflow
