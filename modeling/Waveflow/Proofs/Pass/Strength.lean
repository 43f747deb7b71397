import Waveflow.Proofs.Pass.Moves
import Waveflow.Proofs.Requirements.Conflicts

/-!
# Strength through the passes

What the check of requirements sees of a graph are the pairs of requirements that edges join (`Graph.Hands`).  The
passes put nodes in, take nodes away and move edges, but every edge that they leave joins two equal requirements or
two that an edge joined before: the parts and the join of a divided node, and the encoding and the decoding of a
protected one, ask for what the node asked for, and nodes that are merged ask for the same.  So strength falls along
no edge of the optimized graph if it fell along none before (`Moves.steady`).

The check itself adds one to a level, and this sum has a limit.  A requirement at the limit is not noticed where no
edge leaves or enters a fault-tolerant node, but a division makes such edges (`conflicts_unanswered_summit`).
-/

namespace Waveflow

variable {r : Registry} {g g' : Graph} {n keep dup : Node} {c d : Correction}

/-! ### Edges as pairs of requirements -/

/-- An edge leads from a node with the first requirement to a node with the second. -/
def Graph.Hands (g : Graph) (c d : Correction) : Prop :=
  ∃ m ∈ g.nodes, ∃ n ∈ g.nodes, m.id ∈ n.inputs ∧ m.attrs.correction = c ∧ n.attrs.correction = d

/-- Some node has the requirement. -/
def Graph.Asks (g : Graph) (c : Correction) : Prop := ∃ n ∈ g.nodes, n.attrs.correction = c

/-- A graft whose nodes all ask for what the old node asked for, and that uses no other nodes than the old one,
makes edges between equal requirements only. -/
lemma Graph.Graftable.hands {f : Node → Node} {fresh : List Node} (h : g.Graftable n f fresh) (hg : g.WellFormed)
    (hchanged : (f n).attrs.correction = n.attrs.correction)
    (hadded : ∀ m ∈ fresh, m.attrs.correction = n.attrs.correction)
    (hinputs : ∀ x, x = f n ∨ x ∈ fresh → ∀ i ∈ x.inputs, i ∈ g.ids → i ∈ n.inputs)
    (hcd : (g.graft n.id f fresh).Hands c d) : c = d ∨ g.Hands c d := by
  obtain ⟨m, hm, x, hx, hi, rfl, rfl⟩ := hcd
  have hnew : ∀ y, y = f n ∨ y ∈ fresh → y.attrs.correction = n.attrs.correction := by
    rintro y (rfl | hy)
    · exact hchanged
    · exact hadded y hy
  rcases (h.mem_iff hg.ordered).1 hx with ⟨hx, -⟩ | hx
  · -- the edge leads to a node that has not changed, so it was there before
    have hid := hg.closed x hx m.id hi
    rcases (h.mem_iff hg.ordered).1 hm with ⟨hm, -⟩ | rfl | hm
    · exact .inr ⟨m, hm, x, hx, hi, rfl, rfl⟩
    · rw [h.id] at hi
      exact .inr ⟨n, h.mem, x, hx, hi, hchanged.symm, rfl⟩
    · exact absurd (hg.lt_nextId hid) (Nat.not_lt.2 (h.nextId_le hm).1)
  · rcases (h.mem_iff hg.ordered).1 hm with ⟨hm, -⟩ | hm
    · exact .inr ⟨m, hm, n, h.mem, hinputs x hx m.id hi (Graph.id_mem_ids hm), rfl, (hnew x hx).symm⟩
    · exact .inl ((hnew m hm).trans (hnew x hx).symm)

lemma CoherencePass.correction_eq (h : isDuplicate keep dup = true) :
    keep.attrs.correction = dup.attrs.correction := by
  have hattrs : (keep.attrs == dup.attrs) = true := (Bool.and_eq_true_iff.1 h).2
  have hfields : (keep.attrs.coherence == dup.attrs.coherence && (keep.attrs.thermal == dup.attrs.thermal &&
      (keep.attrs.correction == dup.attrs.correction && keep.attrs.extra == dup.attrs.extra))) = true := hattrs
  simp only [Bool.and_eq_true, beq_iff_eq] at hfields
  exact hfields.2.2.1

/-- **An edge after a move joins equal requirements, or two that an edge joined before.** -/
theorem Move.hands (h : Move r g g') (hg : g.WellFormed) (hcd : g'.Hands c d) : c = d ∨ g.Hands c d := by
  cases h with
  | mark key value hn hkey =>
    refine (graftable_mark hg hn).hands hg rfl (fun _ hm => absurd hm List.not_mem_nil) ?_ hcd
    rintro x (rfl | hx) i hi -
    · exact hi
    · exact absurd hx List.not_mem_nil
  | @merge keep dup op hkeep hdup hne hkind hsame hpart =>
    obtain ⟨_, hleft, _, hright, hi, rfl, rfl⟩ := hcd
    obtain ⟨m, hm, -, rfl⟩ := Graph.mem_merged.1 hleft
    obtain ⟨x, hx, -, rfl⟩ := Graph.mem_merged.1 hright
    obtain ⟨j, hj, hjm⟩ := List.mem_map.1 hi
    right
    split at hjm
    · next hjdup =>
      obtain rfl := hg.ordered.eq_of_id_eq hkeep hm hjm
      exact ⟨dup, hdup, x, hx, hjdup ▸ hj, (CoherencePass.correction_eq hsame).symm, rfl⟩
    · have hjm : j = m.id := hjm
      exact ⟨m, hm, x, hx, hjm ▸ hj, rfl, rfl⟩
  | @divide n op load parts hn hkind hpart hwhole hparts =>
    refine (graftable_divide hg hn).hands hg rfl ?_ ?_ hcd
    · intro m hm
      obtain ⟨id, -, rfl⟩ := List.mem_map.1 hm
      rfl
    · rintro x (rfl | hx) i hi hid
      · exact absurd (hg.lt_nextId hid) (Nat.not_lt.2 (List.mem_range'_1.1 hi).1)
      · obtain ⟨id, -, rfl⟩ := List.mem_map.1 hx
        exact hi
  | @wrap n code distance hn htarget =>
    refine (graftable_wrap hg hn).hands hg rfl ?_ ?_ hcd
    · intro m hm
      simp only [List.mem_cons, List.not_mem_nil, or_false] at hm
      rcases hm with rfl | rfl
      · rfl
      · rfl
    · intro x hx i hi hid
      have hlt := hg.lt_nextId hid
      simp only [List.mem_cons, List.not_mem_nil, or_false] at hx
      rcases hx with rfl | rfl | rfl
      · rw [List.mem_singleton.1 hi] at hlt
        exact absurd hlt (Nat.not_lt.2 (Nat.le_succ _))
      · exact hi
      · rw [List.mem_singleton.1 hi] at hlt
        exact absurd hlt (Nat.lt_irrefl _)
  | regroup hints => exact .inr hcd

lemma Graph.Graftable.asks {f : Node → Node} {fresh : List Node} (h : g.Graftable n f fresh) (hg : g.WellFormed)
    (hchanged : (f n).attrs.correction = n.attrs.correction)
    (hadded : ∀ m ∈ fresh, m.attrs.correction = n.attrs.correction) (hc : (g.graft n.id f fresh).Asks c) :
    g.Asks c := by
  obtain ⟨m, hm, rfl⟩ := hc
  rcases (h.mem_iff hg.ordered).1 hm with ⟨hm, -⟩ | rfl | hm
  · exact ⟨m, hm, rfl⟩
  · exact ⟨n, h.mem, hchanged.symm⟩
  · exact ⟨n, h.mem, (hadded m hm).symm⟩

/-- A move makes no new requirement. -/
lemma Move.asks (h : Move r g g') (hg : g.WellFormed) (hc : g'.Asks c) : g.Asks c := by
  cases h with
  | mark key value hn hkey =>
    exact (graftable_mark hg hn).asks hg rfl (fun _ hm => absurd hm List.not_mem_nil) hc
  | merge hkeep hdup hne hkind hsame hpart =>
    obtain ⟨_, hleft, rfl⟩ := hc
    obtain ⟨m, hm, -, rfl⟩ := Graph.mem_merged.1 hleft
    exact ⟨m, hm, rfl⟩
  | divide load parts hn hkind hpart hwhole hparts =>
    refine (graftable_divide hg hn).asks hg rfl (fun m hm => ?_) hc
    obtain ⟨id, -, rfl⟩ := List.mem_map.1 hm
    rfl
  | wrap code distance hn htarget =>
    refine (graftable_wrap hg hn).asks hg rfl (fun m hm => ?_) hc
    simp only [List.mem_cons, List.not_mem_nil, or_false] at hm
    rcases hm with rfl | rfl
    · rfl
    · rfl
  | regroup hints => exact hc

lemma Moves.asks (h : Moves r g g') (hg : g.WellFormed) (hc : g'.Asks c) : g.Asks c := by
  induction h with
  | refl => exact hc
  | tail hchain hstep ih => exact ih (hstep.asks (Moves.wellFormed hchain hg) hc)

/-! ### Strength -/

/-- Strength falls along no edge that leaves a fault-tolerant node. -/
def Graph.Steady (g : Graph) : Prop := ∀ c d, g.Hands c d → c.isFaultTolerant = true → c.rank ≤ d.rank

/-- **Moves let strength fall nowhere.** -/
theorem Moves.steady (h : Moves r g g') (hg : g.WellFormed) (hsteady : g.Steady) : g'.Steady := by
  induction h with
  | refl => exact hsteady
  | tail hchain hstep ih =>
    intro c d hcd hft
    rcases hstep.hands (Moves.wellFormed hchain hg) hcd with rfl | hcd
    · exact Nat.le_refl _
    · exact ih c d hcd hft

namespace Requirements

/-- A check that finds nothing has looked at every edge. -/
lemma weakens_of_conflictsOf {es : List (Node × Node)} (h : conflictsOf es = .ok []) :
    ∀ e ∈ es, weakens e = false := by
  induction es with
  | nil => exact fun _ he => absurd he List.not_mem_nil
  | cons e rest ih =>
    rw [conflictsOf] at h
    obtain ⟨first, hfirst, h⟩ := Checked.bind_eq_ok.1 h
    obtain ⟨more, hmore, h⟩ := Checked.bind_eq_ok.1 h
    obtain ⟨hnone, rfl⟩ := List.append_eq_nil_iff.1 (Except.ok.inj h)
    obtain rfl := Option.toList_eq_nil_iff.1 hnone
    intro x hx
    rcases List.mem_cons.1 hx with rfl | hx
    · rcases conflict?_cases x.1 x.2 with ⟨-, hsteady⟩ | ⟨hclash, -⟩ | ⟨hfault, -⟩
      · exact hsteady
      · rw [hfirst] at hclash
        cases hclash
      · rw [hfirst] at hfault
        cases hfault
    · exact ih hmore x hx

/-- Where no strength falls the check finds nothing, unless a strength is beyond the limit. -/
lemma conflictsOf_cases {es : List (Node × Node)} (h : ∀ e ∈ es, weakens e = false) :
    conflictsOf es = .ok [] ∨ conflictsOf es = .error .add ∧
      ∃ e ∈ es, wordLimit ≤ e.1.attrs.correction.rank ∨ wordLimit ≤ e.2.attrs.correction.rank := by
  induction es with
  | nil => exact .inl rfl
  | cons e rest ih =>
    rw [conflictsOf]
    rcases conflict?_cases e.1 e.2 with ⟨hfirst, -⟩ | ⟨-, hweakens⟩ | ⟨hfirst, hlimit⟩
    · rw [hfirst, Checked.ok_bind]
      rcases ih fun x hx => h x (List.mem_cons_of_mem _ hx) with hrest | ⟨hrest, x, hx, hlimit⟩
      · rw [hrest]
        exact .inl rfl
      · rw [hrest]
        exact .inr ⟨rfl, x, List.mem_cons_of_mem _ hx, hlimit⟩
    · rw [h e (List.mem_cons_self ..)] at hweakens
      cases hweakens
    · rw [hfirst]
      exact .inr ⟨rfl, e, List.mem_cons_self .., hlimit⟩

/-- Nothing weakens exactly in a steady graph. -/
lemma steady_iff (hg : g.Ordered) : g.Steady ↔ ∀ e ∈ edges g, weakens e = false := by
  unfold weakens
  simp only [Bool.and_eq_false_imp, decide_eq_false_iff_not, Nat.not_lt]
  constructor
  · intro h e he hft
    obtain ⟨hn, hm, hi⟩ := (mem_edges hg).1 he
    exact h _ _ ⟨e.2, hm, e.1, hn, hi, rfl, rfl⟩ hft
  · rintro h c d ⟨m, hm, n, hn, hi, rfl, rfl⟩ hft
    exact h (n, m) ((mem_edges hg).2 ⟨hn, hm, hi⟩) hft

end Requirements

/-! ### The optimizer -/

namespace Pipeline

open Requirements

variable {p : Pipeline} {ids : List PassId} {sink sink' : Diagnostics}

/-- **The optimizer lets no requirement weaken.**  If the check of a graph finds nothing, it finds nothing in what a
pipeline of the four passes makes of it, under every ceiling and in any number of rounds; the only way not to get
this answer is a requirement of the given graph whose strength is beyond the limit. -/
theorem optimize_keeps_strength (hpasses : p.passes = ids.map PassId.pass) (hg : g.WellFormed) (ha : g.Acyclic)
    (hnone : conflicts g = .ok []) (hok : p.optimize r g sink = .ok (.ok g', sink')) :
    conflicts g' = .ok [] ∨
      conflicts g' = .error .add ∧ ∃ n ∈ g.nodes, wordLimit ≤ n.attrs.correction.rank := by
  have hmoves := optimize_moves hpasses hg ha hok
  have hordered := (Moves.wellFormed hmoves hg).ordered
  have hsteady := (steady_iff hg.ordered).2 (weakens_of_conflictsOf hnone)
  rcases conflictsOf_cases ((steady_iff hordered).1 (Moves.steady hmoves hg hsteady)) with
    hfine | ⟨hfault, e, he, hlimit⟩
  · exact .inl hfine
  · obtain ⟨hn, hm, -⟩ := (mem_edges hordered).1 he
    refine .inr ⟨hfault, ?_⟩
    rcases hlimit with hlimit | hlimit
    · obtain ⟨n, hn, heq⟩ := Moves.asks hmoves hg ⟨e.1, hn, rfl⟩
      exact ⟨n, hn, heq ▸ hlimit⟩
    · obtain ⟨n, hn, heq⟩ := Moves.asks hmoves hg ⟨e.2, hm, rfl⟩
      exact ⟨n, hn, heq ▸ hlimit⟩

/-! ### All passes on requirements of two levels -/

/-- Two equal operations of one level; what uses them is of a higher level and too hot. -/
def slope : Graph where
  name := "slope"
  nodes := [Node.plain 0 .input [] .scalar,
    { Node.plain 1 (.operation .interfere) [0, 0] .scalar with
      attrs := { Attributes.plain with correction := .faultTolerant 1 "surface" } },
    { Node.plain 2 (.operation .interfere) [0, 0] .scalar with
      attrs := { Attributes.plain with correction := .faultTolerant 1 "surface" } },
    { Node.plain 3 (.operation .merge) [1, 2] .scalar with
      attrs := { Attributes.plain with thermal := .bounded 3.0, correction := .faultTolerant 2 "shor" } }]
  inputs := [0]
  outputs := [⟨"y", 3⟩]
  hints := Hints.empty
  nextId := 4

/-- Merge, divide and protect, in two rounds. -/
def twoRounds : Pipeline :=
  ofPasses ([PassId.coherence, .thermal, .errorCorrection].map PassId.pass) true 2 (some 2.0)

lemma slope_wellFormed : slope.WellFormed where
  ordered := Graph.ordered_iff.2 (by decide)
  below := by decide
  closed := by
    unfold Graph.Closed
    decide

lemma slope_acyclic : slope.Acyclic := by
  have hranked : slope.Ranked (fun id => id) := by
    unfold Graph.Ranked
    decide
  exact hranked.acyclic

theorem optimize_keeps_strength_slope : ∃ g' sink',
    twoRounds.optimize Registry.builtin slope [] = .ok (.ok g', sink') ∧ conflicts g' = .ok [] := by
  have haccepted : accepted (twoRounds.optimize Registry.builtin slope []) = true := by decide +kernel
  obtain ⟨g', sink', hrun⟩ := exists_of_accepted haccepted
  have hnone : conflicts slope = .ok [] := rfl
  have hlevels : ∀ n ∈ slope.nodes, ¬ wordLimit ≤ n.attrs.correction.rank := by decide
  rcases optimize_keeps_strength (r := .builtin) rfl slope_wellFormed slope_acyclic hnone hrun with
    hfine | ⟨-, n, hn, hlimit⟩
  · exact ⟨g', sink', hrun, hfine⟩
  · exact absurd hlimit (hlevels n hn)

/-! ### A requirement at the limit -/

/-- A hot operation of the highest level that there is. -/
def summit : Graph where
  name := "summit"
  nodes := [Node.plain 0 .input [] .scalar,
    { Node.plain 1 (.operation .split) [0] .scalar with
      attrs := { Attributes.plain with thermal := .bounded 2.0, correction := .faultTolerant 4294967295 "surface" } }]
  inputs := [0]
  outputs := [⟨"y", 1⟩]
  hints := Hints.empty
  nextId := 2

/-- The check of the graph that a pipeline gives runs over the limit. -/
def leavesUnanswered : Checked (Except StageFailed Graph × Diagnostics) → Bool
  | .ok (.ok g, _) =>
    (match conflicts g with
      | .error .add => true
      | _ => false)
  | _ => false

lemma exists_of_leavesUnanswered {x : Checked (Except StageFailed Graph × Diagnostics)}
    (h : leavesUnanswered x = true) : ∃ g sink, x = .ok (.ok g, sink) ∧ conflicts g = .error .add := by
  unfold leavesUnanswered at h
  split at h
  · next g sink =>
    split at h
    · next hfault => exact ⟨g, sink, rfl, hfault⟩
    · cases h
  · cases h

/-- No edge of the graph leaves a fault-tolerant node, so its check finds nothing; the edges from the parts of the
divided operation to their join are checked, and the strength of their requirement is beyond the limit. -/
theorem conflicts_unanswered_summit : summit.WellFormed ∧ summit.Acyclic ∧ conflicts summit = .ok [] ∧
    ∃ g' sink', (ofPasses [PassId.thermal.pass] false 1 (some 1.0)).optimize Registry.builtin summit [] =
      .ok (.ok g', sink') ∧ conflicts g' = .error .add := by
  have hclosed : summit.Closed := by
    unfold Graph.Closed
    decide
  have hranked : summit.Ranked (fun id => id) := by
    unfold Graph.Ranked
    decide
  have hunanswered : leavesUnanswered
      ((ofPasses [PassId.thermal.pass] false 1 (some 1.0)).optimize Registry.builtin summit []) = true := by
    decide +kernel
  refine ⟨⟨Graph.ordered_iff.2 (by decide), by decide, hclosed⟩, hranked.acyclic, rfl, ?_⟩
  exact exists_of_leavesUnanswered hunanswered

end Pipeline

end Waveflow
