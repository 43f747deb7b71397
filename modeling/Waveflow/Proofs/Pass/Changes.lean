import Waveflow.Proofs.Pass.Cooled
import Waveflow.Proofs.Pass.Paths
import Waveflow.Proofs.Pass.Protected

/-!
# What the passes say of their changes

Each pass finds out in its own way whether it has changed the graph: by the merges and the marks that it has made,
by the fates of the nodes, by the nodes that it has listed, by a comparison of hints.  Each is right about it
(`PassId.changed_iff`): a pass reports no change exactly if the graph is the same as before.
-/

namespace Waveflow

variable {p : PassId} {ctx : PassContext} {g : Graph} {n : Node} {out : Outcome} {changed : Bool}

/-! ### Coherence -/

namespace CoherencePass

/-- Without a merge the graph stays as it is. -/
lemma merge_of_zero {kept ids : List NodeId} (h : (merge g kept ids).result = .ok 0) :
    (merge g kept ids).graph = g := by
  induction ids generalizing kept with
  | nil => rfl
  | cons id rest ih =>
    rw [merge] at h ⊢
    split
    · next hout =>
      rw [if_pos hout] at h
      exact ih h
    · next hout =>
      rw [if_neg hout] at h
      split
      · next hnone =>
        rw [hnone] at h
        exact ih h
      · next n hn =>
        rw [hn] at h
        dsimp only at h
        split
        · next hkeeper =>
          rw [hkeeper] at h
          exact ih h
        · next k hk =>
          rw [hk] at h
          dsimp only at h
          split at h
          · cases h
          · obtain ⟨count, -, hcount⟩ := Checked.map_eq_ok.1 h
            cases hcount

/-- A mark that is a number is written to a node exactly if that changes the node. -/
lemma charted_eq_self {path : NodeId → Float} (hnumeric : (charted path n).attrs.mark? pathMark =
    some (.number (path n.id)) → (path n.id).isNaN = false) : charted path n = n ↔
    carries n (path n.id) = true := by
  constructor
  · intro heq
    by_contra hcarries
    have hmark : (charted path n).attrs.mark? pathMark = some (.number (path n.id)) := by
      unfold charted
      rw [if_neg hcarries]
      exact Attributes.mark?_mark_self
    have hself := Decimal.beq_self (hnumeric hmark)
    rw [heq] at hmark
    refine hcarries ?_
    unfold carries
    rw [hmark]
    exact hself
  · intro hcarries
    exact if_pos hcarries

/-- What marking says of its changes. -/
lemma markAll_changed_iff {marked : Marked} {r : Registry} (hg : g.Ordered) (ha : g.Acyclic)
    (h : markAll r g = .ok marked) (hnumeric : marked.graph.PathsNumeric) : marked.changed = false ↔
    marked.graph = g := by
  obtain ⟨path, hpath⟩ := Graph.exists_paths hg ha r
  obtain ⟨order, -, hperm, hmarked⟩ := markAll_eq hg ha hpath
  obtain rfl := Except.ok.inj (hmarked.symm.trans h)
  have hself : ∀ n ∈ g.nodes, (charted path n = n ↔ carries n (path n.id) = true) := fun n hn =>
    charted_eq_self fun hmark => hnumeric _ (List.mem_map_of_mem hn) _ hmark
  have hturn : ∀ n ∈ g.nodes, n ∈ order.filterMap g.node? := fun n hn =>
    List.mem_filterMap.2 ⟨n.id, hperm.mem_iff.2 (Graph.id_mem_ids hn), hg.node?_of_mem hn⟩
  rw [Bool.not_eq_false', List.isEmpty_iff, due, List.filter_eq_nil_iff]
  constructor
  · intro hcarry
    have hsame : g.nodes.map (charted path) = g.nodes := by
      conv_rhs => rw [← List.map_id g.nodes]
      refine List.map_congr_left fun n hn => (hself n hn).2 ?_
      simpa using hcarry n (hturn n hn)
    rw [hsame]
  · intro hsame n hn
    obtain ⟨id, -, hnode⟩ := List.mem_filterMap.1 hn
    have hmem := ((Graph.node?_eq_some_iff hg).1 hnode).1
    have hcharted : charted path n ∈ g.nodes := by
      rw [← congrArg Graph.nodes hsame]
      exact List.mem_map_of_mem hmem
    rw [(hself n hmem).1 (hg.eq_of_id_eq hcharted hmem charted_id)]
    decide

lemma run_changed_iff (hg : g.WellFormed) (ha : g.Acyclic) (h : run ctx g = .ok out)
    (hresult : out.result = .ok changed) (hnumeric : out.graph.PathsNumeric) : changed = false ↔ out.graph = g := by
  have hlisted := listed_candidates (r := ctx.registry) hg.ordered
  have hends : Ends ctx.registry [.coherence] g (mergeAll ctx.registry g).graph (mergeAll ctx.registry g).result :=
    merge_ends hg hlisted
  cases hmerged : (mergeAll ctx.registry g).result with
  | error e =>
    obtain rfl := Except.ok.inj ((run_of_refused hmerged).symm.trans h)
    cases hresult
  | ok count =>
    rw [hmerged] at hends
    have hchain : Rewrites ctx.registry [.coherence] g (mergeAll ctx.registry g).graph := hends
    have hg' := Rewrites.wellFormed hchain hg
    have ha' := Rewrites.acyclic hchain hg ha
    have hattempt : mergeAll ctx.registry g = ⟨(mergeAll ctx.registry g).graph, .ok count⟩ := by rw [← hmerged]
    obtain ⟨marked, hmarked, -, hpotential, -⟩ := exists_markAll hg' ha' ctx.registry
    obtain rfl := Except.ok.inj ((run_of_merged hattempt hmarked).symm.trans h)
    obtain rfl := Except.ok.inj hresult
    rcases Nat.eq_zero_or_pos count with rfl | hpos
    · have hsame : (mergeAll ctx.registry g).graph = g := merge_of_zero hmerged
      rw [hsame] at hmarked
      exact markAll_changed_iff hg.ordered ha hmarked hnumeric
    · -- a merge has used up potential, and the marks have not brought it back
      have hspends : g.Spends (mergeAll ctx.registry g).graph (0 < count) := merge_spends hg hlisted count hmerged
      have hlt : marked.graph.potential < g.potential := by
        rcases hspends with hlt | ⟨-, hnone⟩
        · exact hpotential ▸ hlt
        · exact absurd hpos (of_decide_eq_false hnone)
      simp only [hpos, decide_true, Bool.true_or, Bool.true_eq_false, false_iff]
      intro hsame
      rw [hsame] at hlt
      exact lt_irrefl _ hlt

end CoherencePass

/-! ### Thermal load -/

/-- Of a node that is still there it is seen that it has stayed. -/
lemma Outcome.Shows.eq_kept {fate : Fate} (hg : out.graph.Ordered) (h : out.Shows g n fate)
    (hn : n ∈ out.graph.nodes) :
    fate = .kept := by
  cases fate with
  | kept => rfl
  | warned =>
    obtain ⟨hflag, hmem, -⟩ := h
    have heq : n.marked warnedMark (.flag true) = n := hg.eq_of_id_eq hmem hn rfl
    have hmarked : (n.marked warnedMark (.flag true)).attrs.hasFlag warnedMark = true := Attributes.hasFlag_mark_self
    rw [heq, hflag] at hmarked
    cases hmarked
  | divided k =>
    obtain ⟨-, join, hmem, parts, hdivides, -⟩ := h
    obtain rfl := hg.eq_of_id_eq hmem hn hdivides.same.1
    exact absurd (hdivides.whole.2.symm.trans hdivides.mark) (by simp)

lemma ThermalPass.run_changed_iff (hg : g.WellFormed) (h : run ctx g = .ok out) (hresult : out.result = .ok changed) :
    changed = false ↔ out.graph = g := by
  unfold run at h
  split at h
  · obtain rfl := Except.ok.inj h
    obtain rfl := Except.ok.inj hresult
    exact ⟨fun _ => rfl, fun _ => rfl⟩
  · next ceiling _ =>
    obtain ⟨ts, hattended⟩ := (steps_turns ceiling hg (fun _ hn => hn) hg.ordered.ids_nodup).of_ok h
    obtain ⟨⟨changed', hresult', hchanged⟩, hfates, -⟩ := hattended.cooled hg
    obtain rfl := Except.ok.inj (hresult.symm.trans hresult')
    constructor
    · rintro rfl
      -- every node meets a fate, and it is that it stays
      have hkept : ∀ n ∈ g.nodes, n.Meets ctx.registry (some ceiling) .kept := by
        intro n hn
        obtain ⟨fate, hmeets, -⟩ := hfates n hn
        by_cases hfate : fate = .kept
        · exact hfate ▸ hmeets
        · exact absurd (hchanged.2 ⟨n, hn, fate, hfate, hmeets⟩) Bool.false_ne_true
      have hidle := h.symm.trans (steps_idle hg.ordered (fun _ hn => hn) hkept)
      exact congrArg Outcome.graph (Except.ok.inj hidle)
    · intro hsame
      refine Bool.eq_false_iff.2 fun htrue => ?_
      obtain ⟨n, hn, other, hother, hmeets'⟩ := hchanged.1 htrue
      obtain ⟨fate, hmeets, hshows, -⟩ := hfates n hn
      obtain rfl := hshows.eq_kept (hsame ▸ hg.ordered) (hsame ▸ hn)
      exact hother (hmeets'.eq_kept hmeets)

/-! ### Protection -/

lemma ProtectionPass.run_changed_iff (hg : g.WellFormed) (h : run ctx g = .ok out)
    (hresult : out.result = .ok changed) :
    changed = false ↔ out.graph = g := by
  have hrun := h
  rw [run_eq] at hrun
  obtain ⟨a, hall, hrun⟩ := Checked.bind_eq_ok.1 hrun
  obtain rfl := Except.ok.inj hrun
  obtain ⟨_, hdone, rfl⟩ := Checked.map_eq_ok.1 hresult
  rw [Bool.not_eq_false', List.isEmpty_iff]
  constructor
  · intro hnone
    exact congrArg Outcome.graph (Except.ok.inj (h.symm.trans (run_settled ctx hnone)))
  · intro hsame
    rcases (wrapAll_concludes hg (queued_exposed hg.ordered)).of_ok hall with
      ⟨-, -, ts, hturns, hbefore, hts⟩ | ⟨e, he, -⟩
    · -- two nodes have been added for each node that was listed
      have hcount := (protected_of_turns hg hturns hbefore hts).count
      have hlength := congrArg (fun g' : Graph => g'.nodes.length) hsame
      dsimp only at hlength
      rw [← List.length_eq_zero_iff]
      omega
    · rw [hdone] at he
      cases he

/-! ### Levels -/

lemma PerformancePass.run_changed_iff (h : run g = .ok out) (hresult : out.result = .ok changed) :
    changed = false ↔ out.graph = g := by
  unfold run at h
  obtain ⟨found, -, h⟩ := Checked.bind_eq_ok.1 h
  cases found with
  | error e =>
    obtain rfl := Except.ok.inj h
    cases hresult
  | ok hints =>
    obtain rfl := Except.ok.inj h
    split at hresult
    · next hsame =>
      obtain rfl := Except.ok.inj hresult
      rw [if_pos hsame]
      exact ⟨fun _ => rfl, fun _ => rfl⟩
    · next hother =>
      obtain rfl := Except.ok.inj hresult
      rw [if_neg hother]
      exact ⟨fun hno => absurd hno (by decide), fun hsame => absurd (congrArg Graph.hints hsame) hother⟩

/-! ### All passes -/

/-- **Every pass knows whether it has changed the graph**, under every ceiling.  A path that is a NaN does not equal
itself, and would be written again. -/
theorem PassId.changed_iff (hg : g.WellFormed) (ha : g.Acyclic) (h : p.pass.run ctx g = .ok out)
    (hresult : out.result = .ok changed) (hnumeric : p = .coherence → out.graph.PathsNumeric) :
    changed = false ↔ out.graph = g := by
  cases p with
  | coherence => exact CoherencePass.run_changed_iff hg ha h hresult (hnumeric rfl)
  | thermal => exact ThermalPass.run_changed_iff hg h hresult
  | errorCorrection => exact ProtectionPass.run_changed_iff hg h hresult
  | performance => exact PerformancePass.run_changed_iff h hresult

/-- Two equal operations that are cool and ask for no protection. -/
def bench : Graph where
  name := "bench"
  nodes := [Node.plain 0 .input [] .scalar,
    { Node.plain 1 (.operation .split) [0] .scalar with attrs := { Attributes.plain with thermal := .bounded 1.0 } },
    { Node.plain 2 (.operation .split) [0] .scalar with attrs := { Attributes.plain with thermal := .bounded 1.0 } },
    Node.plain 3 (.operation .merge) [1, 2] .scalar]
  inputs := [0]
  outputs := [⟨"y", 3⟩]
  hints := Hints.empty
  nextId := 4

theorem PassId.changed_iff_bench :
    (∃ out, PassId.coherence.pass.run ⟨.builtin, some 2.0⟩ bench = .ok out ∧ out.graph ≠ bench) ∧
    (∃ out, PassId.thermal.pass.run ⟨.builtin, some 2.0⟩ bench = .ok out ∧ out.graph = bench) ∧
    (∃ out, PassId.errorCorrection.pass.run ⟨.builtin, some 2.0⟩ bench = .ok out ∧ out.graph = bench) ∧
    ∃ out, PassId.performance.pass.run ⟨.builtin, some 2.0⟩ bench = .ok out ∧ out.graph ≠ bench := by
  have hclosed : bench.Closed := by
    unfold Graph.Closed
    decide
  have hwf : bench.WellFormed := ⟨Graph.ordered_iff.2 (by decide), by decide, hclosed⟩
  have hranked : bench.Ranked (fun id => id) := by
    unfold Graph.Ranked
    decide
  have hpass : ∀ (p : PassId) (changed : Bool), (p.pass.run ⟨.builtin, some 2.0⟩ bench).toOption.map
      (fun out => (out.result.toOption, decide out.graph.PathsNumeric)) = some (some changed, true) →
      ∃ out, p.pass.run ⟨.builtin, some 2.0⟩ bench = .ok out ∧ (changed = false ↔ out.graph = bench) := by
    intro p changed hdone
    obtain ⟨out, hout, hdone⟩ := Option.map_eq_some_iff.1 hdone
    obtain ⟨hresult, hnumeric⟩ := Prod.mk.inj hdone
    have hrun : p.pass.run ⟨.builtin, some 2.0⟩ bench = .ok out := Checked.toOption_eq_some.1 hout
    have hreturns : out.result = .ok changed := Checked.toOption_eq_some.1 hresult
    exact ⟨out, hrun, changed_iff hwf hranked.acyclic hrun hreturns fun _ => of_decide_eq_true hnumeric⟩
  obtain ⟨out₁, hrun₁, hiff₁⟩ := hpass .coherence true (by decide +kernel)
  obtain ⟨out₂, hrun₂, hiff₂⟩ := hpass .thermal false (by decide +kernel)
  obtain ⟨out₃, hrun₃, hiff₃⟩ := hpass .errorCorrection false (by decide +kernel)
  obtain ⟨out₄, hrun₄, hiff₄⟩ := hpass .performance true (by decide +kernel)
  exact ⟨⟨out₁, hrun₁, fun hsame => absurd (hiff₁.2 hsame) (by decide)⟩,
    ⟨out₂, hrun₂, hiff₂.1 rfl⟩,
    ⟨out₃, hrun₃, hiff₃.1 rfl⟩, out₄, hrun₄, fun hsame => absurd (hiff₄.2 hsame) (by decide)⟩

end Waveflow
