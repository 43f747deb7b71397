import Waveflow.Proofs.Pass.Pipeline
import Waveflow.Proofs.Pass.Potential
import Waveflow.Proofs.Requirements

/-!
# Rounds that use up nothing

A round of passes uses up potential or it is quiet.  In a quiet round the structure of the graph stays as it is, and
what the passes still write, the marks of paths and the hints, depends on the structure alone.  So the graph after a
quiet round is settled: the coherence pass finds every node marked with its path, and the performance pass finds its
levels among the hints (`trail_quiet`).  A quiet round on a settled graph reports no change.

A path that is not a number is not equal to itself, and would be marked again in every round.
-/

namespace Waveflow

variable {r : Registry} {p q : PassId} {g g' : Graph} {n : Node} {changed : Bool}

/-! ### Orders and levels do not depend on attributes -/

namespace Graph.Reattributed

lemma contains_eq (h : g.Reattributed g') (hg : g.Ordered) : g'.contains = g.contains := by
  funext id
  rw [Bool.eq_iff_iff, contains_iff (h.ordered hg), contains_iff hg, h.ids_eq]

lemma order_eq (h : g.Reattributed g') (hg : g.Ordered) : g'.order = g.order := by
  have hwaiting : g'.waiting g'.contains = g.waiting g.contains := by
    rw [h.contains_eq hg, waiting_eq (h.ordered hg), waiting_eq hg]
    obtain ⟨f, rfl⟩ := h
    dsimp only
    rw [List.map_map]
    rfl
  have hlength : g'.nodes.length = g.nodes.length := by
    obtain ⟨f, rfl⟩ := h
    exact List.length_map _
  unfold order
  rw [hwaiting, hlength, h.ids_eq]

lemma depthsAlong_eq (h : g.Reattributed g') (hg : g.Ordered) (known : DepthMap) (ids : List NodeId) :
    g'.depthsAlong known ids = g.depthsAlong known ids := by
  have hg' := h.ordered hg
  induction ids generalizing known with
  | nil => rfl
  | cons id rest ih =>
    rw [depthsAlong, depthsAlong]
    cases hnode : g.node? id with
    | none =>
      have hnone : g'.node? id = none := by
        rw [node?_eq_none_iff hg', h.ids_eq]
        exact (node?_eq_none_iff hg).1 hnode
      rw [hnone]
      exact ih known
    | some n =>
      obtain ⟨hn, rfl⟩ := (node?_eq_some_iff hg).1 hnode
      obtain ⟨attrs, hn'⟩ := h.exists_node hn
      have hsome : g'.node? n.id = some { n with attrs := attrs } := hg'.node?_of_mem hn'
      rw [hsome]
      exact ih _

lemma depths_eq (h : g.Reattributed g') (hg : g.Ordered) : g'.depths = g.depths := by
  have hsame : g'.depthsAlong [] = g.depthsAlong [] := funext fun ids => h.depthsAlong_eq hg [] ids
  unfold depths
  rw [h.order_eq hg, hsame]

lemma levels_eq (h : g.Reattributed g') (hg : g.Ordered) : PerformancePass.levels g' = PerformancePass.levels g := by
  have hlevel : PerformancePass.level g' = PerformancePass.level g := by
    funext depths depth
    obtain ⟨f, rfl⟩ := h
    unfold PerformancePass.level
    dsimp only
    rw [List.filter_map, List.map_map]
    rfl
  unfold PerformancePass.levels
  rw [h.depths_eq hg, hlevel]

end Graph.Reattributed

/-! ### Nothing depends on hints -/

section Hints

variable (g : Graph) (hints : Hints)

lemma Graph.depthsAlong_hints (known : DepthMap) (ids : List NodeId) :
    ({ g with hints := hints } : Graph).depthsAlong known ids = g.depthsAlong known ids := by
  have hnode : ({ g with hints := hints } : Graph).node? = g.node? := rfl
  induction ids generalizing known with
  | nil => rfl
  | cons id rest ih =>
    rw [depthsAlong, depthsAlong, hnode]
    cases g.node? id with
    | none => exact ih known
    | some n => exact ih _

lemma PerformancePass.levels_hints : levels { g with hints := hints } = levels g := by
  have horder : ({ g with hints := hints } : Graph).order = g.order := rfl
  have halong : ({ g with hints := hints } : Graph).depthsAlong [] = g.depthsAlong [] :=
    funext fun ids => g.depthsAlong_hints hints [] ids
  have hlevel : level { g with hints := hints } = level g := rfl
  unfold levels Graph.depths
  rw [horder, halong, hlevel]

lemma Graph.modify_hints (id : NodeId) (f : Node → Node) :
    ({ g with hints := hints } : Graph).modify id f = { g.modify id f with hints := hints } := by
  have hposition : ({ g with hints := hints } : Graph).position? id = g.position? id := rfl
  unfold modify
  rw [hposition]
  cases g.position? id with
  | none => rfl
  | some i => rfl

lemma CoherencePass.markAlong_hints (r : Registry) (known : List (NodeId × Float)) (ids : List NodeId) :
    markAlong r { g with hints := hints } known ids =
      { markAlong r g known ids with graph := { (markAlong r g known ids).graph with hints := hints } } := by
  induction ids generalizing g known with
  | nil => rfl
  | cons id rest ih =>
    have hnode : ({ g with hints := hints } : Graph).node? id = g.node? id := rfl
    rw [markAlong, markAlong, hnode]
    cases g.node? id with
    | none => exact ih g known
    | some n =>
      dsimp only
      split
      · exact ih g _
      · rw [Graph.modify_hints, ih]

end Hints

/-! ### Marking -/

/-- No path that a node carries is a NaN.  A run of the coherence pass that comes upon a NaN writes it to its node. -/
def Graph.PathsNumeric (g : Graph) : Prop :=
  ∀ n ∈ g.nodes, ∀ x, n.attrs.mark? pathMark = some (.number x) → x.isNaN = false

lemma Graph.pathsNumeric_iff : g.PathsNumeric ↔ ∀ n ∈ g.nodes, (match n.attrs.mark? pathMark with
    | some (.number x) => x.isNaN
    | _ => false) = false := by
  refine forall₂_congr fun n _ => ?_
  split
  · next y hy => simp [hy]
  · next hother => simpa using fun x hx => absurd hx (hother x)

instance : Decidable g.PathsNumeric := decidable_of_iff _ Graph.pathsNumeric_iff.symm

lemma Graph.node?_modify_of_ne {f : Node → Node} {id id' : NodeId} (hg : g.Ordered)
    (hmodify : (g.modify id f).Ordered)
    (hne : id' ≠ id) (hf : ∀ n, (f n).id = n.id) : (g.modify id f).node? id' = g.node? id' := by
  refine Option.ext fun m => ?_
  rw [node?_eq_some_iff hmodify, node?_eq_some_iff hg, modify_eq hg]
  refine and_congr_left fun hid => ?_
  constructor
  · intro hm
    obtain ⟨x, hx, rfl⟩ := List.mem_map.1 hm
    split at hid
    · next heq => exact absurd (hid.symm.trans (hf x |>.trans heq)) hne
    · next hother => rwa [if_neg hother]
  · intro hm
    exact List.mem_map.2 ⟨m, hm, if_neg fun heq => hne (hid.symm.trans heq)⟩

namespace CoherencePass

variable {known : List (NodeId × Float)} {ids : List NodeId} {id : NodeId}

/-- The graph after the turn of a node. -/
def turned (r : Registry) (g : Graph) (known : List (NodeId × Float)) (n : Node) : Graph :=
  if carries n (pathOf r known n) then g
  else g.modify n.id (fun n' => { n' with attrs := n'.attrs.mark pathMark (.number (pathOf r known n)) })

lemma markAlong_graph_cons (hn : g.node? n.id = some n) : (markAlong r g known (n.id :: ids)).graph =
    (markAlong r (turned r g known n) ((n.id, pathOf r known n) :: known) ids).graph := by
  rw [markAlong, hn]
  unfold turned
  dsimp only
  split
  · rfl
  · rfl

lemma turned_reattributed (hg : g.Ordered) (r : Registry) (known : List (NodeId × Float)) (n : Node) :
    g.Reattributed (turned r g known n) := by
  unfold turned
  split
  · exact .refl g
  · exact Graph.Reattributed.modify hg n.id (·.mark pathMark (.number (pathOf r known n)))

lemma potential_turned (hg : g.Ordered) (n : Node) : (turned r g known n).potential = g.potential := by
  unfold turned
  split
  · rfl
  · rw [Graph.modify_eq hg]
    refine Graph.potentialOf_map fun m _ => ?_
    split
    · exact Attributes.potential_path
    · rfl

lemma node?_turned_of_ne (hg : g.Ordered) (hne : id ≠ n.id) : (turned r g known n).node? id = g.node? id := by
  have hg' := (turned_reattributed hg r known n).ordered hg
  unfold turned at hg' ⊢
  split
  · rfl
  · next hcarries =>
    rw [if_neg hcarries] at hg'
    exact Graph.node?_modify_of_ne hg hg' hne fun _ => rfl

/-- After its turn a node carries its path, or it has just been marked with it. -/
lemma exists_turned (hg : g.Ordered) (hn : n ∈ g.nodes) (r : Registry) (known : List (NodeId × Float)) :
    ∃ m ∈ (turned r g known n).nodes, m.id = n.id ∧ pathOf r known m = pathOf r known n ∧
    (carries m (pathOf r known n) = true ∨ m.attrs.mark? pathMark = some (.number (pathOf r known n))) := by
  unfold turned
  split
  · next hcarries => exact ⟨n, hn, rfl, rfl, .inl hcarries⟩
  · rw [Graph.modify_eq hg]
    refine ⟨_, List.mem_map.2 ⟨n, hn, if_pos rfl⟩, rfl, rfl, .inr Attributes.mark?_mark_self⟩

lemma markAlong_reattributed (hg : g.Ordered) (r : Registry) (known : List (NodeId × Float)) (ids : List NodeId) :
    g.Reattributed (markAlong r g known ids).graph := by
  induction ids generalizing g known with
  | nil => exact .refl g
  | cons id rest ih =>
    cases hnode : g.node? id with
    | none =>
      rw [markAlong, hnode]
      exact ih hg known
    | some n =>
      obtain ⟨-, rfl⟩ := (Graph.node?_eq_some_iff hg).1 hnode
      have hturned := turned_reattributed hg r known n
      rw [markAlong_graph_cons hnode]
      exact hturned.trans (ih (hturned.ordered hg) _)

lemma potential_markAlong (hg : g.Ordered) (r : Registry) (known : List (NodeId × Float)) (ids : List NodeId) :
    (markAlong r g known ids).graph.potential = g.potential := by
  induction ids generalizing g known with
  | nil => rfl
  | cons id rest ih =>
    cases hnode : g.node? id with
    | none =>
      rw [markAlong, hnode]
      exact ih hg known
    | some n =>
      obtain ⟨-, rfl⟩ := (Graph.node?_eq_some_iff hg).1 hnode
      rw [markAlong_graph_cons hnode, ih ((turned_reattributed hg r known n).ordered hg), potential_turned hg]

/-- Only the nodes whose turn comes are marked. -/
lemma node?_markAlong (hg : g.Ordered) (hid : id ∉ ids) : (markAlong r g known ids).graph.node? id = g.node? id := by
  induction ids generalizing g known with
  | nil => rfl
  | cons id' rest ih =>
    obtain ⟨hne, hrest⟩ : id ≠ id' ∧ id ∉ rest := by simpa using hid
    cases hnode : g.node? id' with
    | none =>
      rw [markAlong, hnode]
      exact ih hg hrest
    | some n =>
      obtain ⟨-, rfl⟩ := (Graph.node?_eq_some_iff hg).1 hnode
      rw [markAlong_graph_cons hnode, ih ((turned_reattributed hg r known n).ordered hg) hrest,
        node?_turned_of_ne hg hne]

/-- **Marking a second time changes nothing.** -/
theorem markAlong_again (hg : g.Ordered) (hnodup : ids.Nodup)
    (hnumeric : (markAlong r g known ids).graph.PathsNumeric) :
    markAlong r (markAlong r g known ids).graph known ids = ⟨(markAlong r g known ids).graph, false, []⟩ := by
  induction ids generalizing g known with
  | nil => rfl
  | cons id rest ih =>
    obtain ⟨hid, hrest⟩ := List.nodup_cons.1 hnodup
    cases hnode : g.node? id with
    | none =>
      have hskip : markAlong r g known (id :: rest) = markAlong r g known rest := by
        rw [markAlong, hnode]
      rw [hskip] at hnumeric ⊢
      rw [markAlong, node?_markAlong hg hid, hnode]
      exact ih hg hrest hnumeric
    | some n =>
      obtain ⟨hn, rfl⟩ := (Graph.node?_eq_some_iff hg).1 hnode
      have hg' := (turned_reattributed hg r known n).ordered hg
      rw [markAlong_graph_cons hnode] at hnumeric ⊢
      obtain ⟨m, hm, hmid, hpath, hmark⟩ := exists_turned hg hn r known
      -- the rest leaves the node alone, so it still carries its path
      have hkept : (markAlong r (turned r g known n) ((n.id, pathOf r known n) :: known) rest).graph.node? n.id =
          some m := by
        rw [node?_markAlong hg' hid, ← hmid]
        exact hg'.node?_of_mem hm
      have hcarries : carries m (pathOf r known n) = true := by
        rcases hmark with hcarries | hmark
        · exact hcarries
        · have hmem := ((Graph.node?_eq_some_iff ((markAlong_reattributed hg' ..).ordered hg')).1 hkept).1
          unfold carries
          rw [hmark]
          exact Decimal.beq_self (hnumeric m hmem _ hmark)
      rw [markAlong, hkept]
      dsimp only
      rw [hpath, if_pos hcarries]
      exact ih hg' hrest hnumeric

end CoherencePass

/-! ### Settled graphs -/

/-- The pass finds nothing to write into the graph: the coherence pass no mark, the performance pass no hint.  What
the other two write uses up potential. -/
def PassId.Settled (r : Registry) : PassId → Graph → Prop
  | .coherence, g => CoherencePass.markAll r g = .ok ⟨g, false, []⟩
  | .performance, g => PerformancePass.levels g = .ok (.ok g.hints)
  | .thermal, _ | .errorCorrection, _ => True

/-- What a pass does that has not failed: it uses up potential, or it leaves the graph settled for itself and as
settled as before for the others, and reports no change where it had nothing to write. -/
structure Advances (r : Registry) (p : PassId) (g g' : Graph) (changed : Bool) : Prop where
  le : g'.potential ≤ g.potential
  writes : g'.potential = g.potential → g'.PathsNumeric → p.Settled r g'
  keeps : g'.potential = g.potential → ∀ q : PassId, q.Settled r g → q.Settled r g'
  still : g'.potential = g.potential → p.Settled r g → changed = false

lemma Advances.of_lt (h : g'.potential < g.potential) : Advances r p g g' changed where
  le := Nat.le_of_lt h
  writes := fun heq => by omega
  keeps := fun heq => by omega
  still := fun heq => by omega

lemma Graph.Spends.advances (h : g.Spends g' changed) (hp : ∀ g, p.Settled r g) : Advances r p g g' changed := by
  rcases h with hlt | ⟨rfl, rfl⟩
  · exact .of_lt hlt
  · exact ⟨Nat.le_refl _, fun _ _ => hp _, fun _ _ hq => hq, fun _ _ => rfl⟩

variable {ceiling : Option Float} {out : Outcome}

/-- New hints leave the marks settled. -/
lemma CoherencePass.markAll_hints (hints : Hints) (h : markAll r g = .ok ⟨g, false, []⟩) :
    markAll r { g with hints := hints } = .ok ⟨{ g with hints := hints }, false, []⟩ := by
  have horder : ({ g with hints := hints } : Graph).order = g.order := rfl
  unfold markAll at h ⊢
  rw [horder]
  obtain ⟨order, ho, h⟩ := Checked.bind_eq_ok.1 h
  rw [ho, Checked.ok_bind]
  cases order with
  | error stuck => rfl
  | ok order =>
    have hmarked : markAlong r g [] order = ⟨g, false, []⟩ := Except.ok.inj h
    show Except.ok (markAlong r _ [] order) = _
    rw [markAlong_hints, hmarked]

/-- Marks cost nothing, and settle the graph unless a path is a NaN. -/
lemma CoherencePass.exists_markAll (hg : g.WellFormed) (ha : g.Acyclic) (r : Registry) :
    ∃ marked, markAll r g = .ok marked ∧ g.Reattributed marked.graph ∧ marked.graph.potential = g.potential ∧
      (marked.graph.PathsNumeric → PassId.Settled r .coherence marked.graph) := by
  obtain ⟨order, horder, -, hperm⟩ := Graph.order_of_acyclic hg.ordered ha
  have hmarked := markAlong_reattributed hg.ordered r [] order
  refine ⟨markAlong r g [] order, ?_, hmarked, potential_markAlong hg.ordered r [] order, fun hnumeric => ?_⟩
  · unfold markAll
    rw [horder]
    rfl
  · show markAll r _ = _
    unfold markAll
    rw [hmarked.order_eq hg.ordered, horder]
    exact congrArg Except.ok (markAlong_again hg.ordered (hperm.nodup_iff.2 hg.ordered.ids_nodup) hnumeric)

lemma CoherencePass.run_advances (hg : g.WellFormed) (ha : g.Acyclic) (h : run ⟨r, ceiling⟩ g = .ok out)
    (hresult : out.result = .ok changed) : Advances r .coherence g out.graph changed := by
  have hlisted := listed_candidates (r := r) hg.ordered
  have hends : Ends r [.coherence] g (mergeAll r g).graph (mergeAll r g).result := merge_ends hg hlisted
  unfold run at h
  dsimp only at h
  split at h
  · obtain rfl := Except.ok.inj h
    cases hresult
  next count hcount =>
  rw [hcount] at hends
  have hchain : Rewrites r [.coherence] g (mergeAll r g).graph := hends
  have hspends : g.Spends (mergeAll r g).graph (0 < count) := merge_spends hg hlisted count hcount
  obtain ⟨marked, hmarkAll, hattributes, hsame, hsettles⟩ :=
    exists_markAll (Rewrites.wellFormed hchain hg) (Rewrites.acyclic hchain hg ha) r
  rw [hmarkAll] at h
  obtain rfl := Except.ok.inj h
  obtain rfl := Except.ok.inj hresult
  rcases hspends with hlt | ⟨hgraph, hnone⟩
  · exact .of_lt (by rw [hsame]; exact hlt)
  · -- without a merge the graph that is marked is the graph before the pass
    rw [hgraph] at hmarkAll hattributes hsame
    have hfound : PassId.Settled r .coherence g → marked = ⟨g, false, []⟩ :=
      fun hsettled => Except.ok.inj (hmarkAll.symm.trans hsettled)
    refine ⟨Nat.le_of_eq hsame, fun _ => hsettles, fun _ q hq => ?_, fun _ hsettled => ?_⟩
    · cases q with
      | coherence =>
        rw [hfound hq]
        exact hq
      | performance =>
        show PerformancePass.levels marked.graph = _
        rw [hattributes.levels_eq hg.ordered, hattributes.hints_eq]
        exact hq
      | thermal | errorCorrection => trivial
    · rw [hfound hsettled, hnone]
      rfl

lemma PerformancePass.run_advances (h : run g = .ok out) (hresult : out.result = .ok changed) :
    Advances r .performance g out.graph changed := by
  unfold run at h
  obtain ⟨found, hfound, h⟩ := Checked.bind_eq_ok.1 h
  cases found with
  | error e =>
    obtain rfl := Except.ok.inj h
    cases hresult
  | ok hints =>
    obtain rfl := Except.ok.inj h
    split at hresult
    · next hsame =>
      obtain rfl := Except.ok.inj hresult
      rw [if_pos hsame]
      refine ⟨Nat.le_refl _, fun _ _ => ?_, fun _ q hq => hq, fun _ _ => rfl⟩
      rw [hsame] at hfound
      exact hfound
    · next hother =>
      obtain rfl := Except.ok.inj hresult
      rw [if_neg hother]
      have hsettles : levels { g with hints := hints } = .ok (.ok hints) := (levels_hints g hints).trans hfound
      refine ⟨Nat.le_refl _, fun _ _ => hsettles, fun _ q hq => ?_, fun _ hsettled => ?_⟩
      · cases q with
        | coherence => exact CoherencePass.markAll_hints hints hq
        | performance => exact hsettles
        | thermal | errorCorrection => trivial
      · have hsettled : levels g = .ok (.ok g.hints) := hsettled
        exact absurd (Except.ok.inj (Except.ok.inj (hfound.symm.trans hsettled))) hother

/-- **Each of the four passes uses up potential, or leaves a graph that is settled for it.** -/
theorem PassId.run_advances (hceiling : ValidCeiling ceiling) (hg : g.WellFormed) (ha : g.Acyclic)
    (h : p.pass.run ⟨r, ceiling⟩ g = .ok out) (hresult : out.result = .ok changed) :
    Advances r p g out.graph changed := by
  cases p with
  | coherence => exact CoherencePass.run_advances hg ha h hresult
  | thermal =>
    refine Graph.Spends.advances ?_ fun _ => trivial
    cases ceiling with
    | none =>
      obtain rfl := Except.ok.inj h
      exact .inr ⟨rfl, (Except.ok.inj hresult).symm⟩
    | some x => exact ThermalPass.steps_spends (hceiling x rfl) hg h hresult
  | errorCorrection =>
    refine Graph.Spends.advances ?_ fun _ => trivial
    obtain ⟨wrapped, hwrapped, h⟩ := Checked.bind_eq_ok.1 h
    obtain rfl := Except.ok.inj h
    obtain ⟨_, hdone, rfl⟩ := Checked.map_eq_ok.1 hresult
    exact ProtectionPass.wrapAll_spends hg (ProtectionPass.targets_all hg.ordered) hwrapped hdone
  | performance => exact PerformancePass.run_advances h hresult

/-! ### Rounds -/

/-- The guard lets a pass through as it is. -/
lemma Guard.run_eq_ok {pass : Pass} {ctx : PassContext} (h : Guard.run pass ctx g = .ok out)
    (hresult : out.result = .ok changed) : pass.run ctx g = .ok out := by
  unfold Guard.run at h
  obtain ⟨made, hmade, h⟩ := Checked.bind_eq_ok.1 h
  cases hmaderesult : made.result with
  | error e =>
    rw [hmaderesult] at h
    obtain rfl := Except.ok.inj h
    exact hmade
  | ok c =>
    rw [hmaderesult] at h
    obtain ⟨decision, -, h⟩ := Checked.bind_eq_ok.1 h
    cases decision with
    | ok _ =>
      obtain rfl := Except.ok.inj h
      exact hmade
    | error e =>
      obtain rfl := Except.ok.inj h
      cases hresult

/-- What passes do in a round that uses up nothing. -/
structure Quiet (r : Registry) (ids : List PassId) (g g' : Graph) (outs : List Outcome) : Prop where
  keeps : ∀ q : PassId, q.Settled r g → q.Settled r g'
  settles : ∀ p ∈ ids, p.Settled r g'
  still : (∀ p ∈ ids, p.Settled r g) → ∀ out ∈ outs, out.result = .ok false

/-- **A round uses up potential or is quiet.** -/
theorem trail_advances {ids : List PassId} {outs : List Outcome} (hceiling : ValidCeiling ceiling)
    (hg : g.WellFormed) (ha : g.Acyclic) (h : Pipeline.trail ⟨r, ceiling⟩ (ids.map PassId.pass) g = .ok outs)
    (hpassed : Pipeline.Passed outs) (hnumeric : ∀ out ∈ outs, out.graph.PathsNumeric) :
    (Pipeline.lastGraph g outs).potential ≤ g.potential ∧
      ((Pipeline.lastGraph g outs).potential = g.potential → Quiet r ids g (Pipeline.lastGraph g outs) outs) := by
  induction ids generalizing g outs with
  | nil =>
    obtain rfl := Except.ok.inj h
    exact ⟨Nat.le_refl _, fun _ => ⟨fun _ hq => hq, fun _ hp => absurd hp List.not_mem_nil,
      fun _ _ hout => absurd hout List.not_mem_nil⟩⟩
  | cons id rest ih =>
    rw [List.map_cons] at h
    obtain ⟨first, tail, c, rfl, hfirst, hresult, htail, hpassed'⟩ := Pipeline.exists_of_trail_cons h hpassed
    have hadvances : Advances r id g first.graph c :=
      PassId.run_advances hceiling hg ha (Guard.run_eq_ok hfirst hresult) hresult
    have hchain : Rewrites r [id] g first.graph := by
      have hends := ((guard_yields hceiling hg ha id).of_ok hfirst).1
      rwa [hresult] at hends
    obtain ⟨hle, hquiet⟩ := ih (Rewrites.wellFormed hchain hg) (Rewrites.acyclic hchain hg ha) htail hpassed'
      fun out hout => hnumeric out (List.mem_cons_of_mem _ hout)
    rw [Pipeline.lastGraph_cons]
    refine ⟨Nat.le_trans hle hadvances.le, fun heq => ?_⟩
    have hle' := hadvances.le
    -- neither the first pass nor the others have used up anything
    have hfirstEq : first.graph.potential = g.potential := by omega
    have hrest := hquiet (by omega)
    refine ⟨fun q hq => hrest.keeps q (hadvances.keeps hfirstEq q hq), fun p hp => ?_, fun hsettled out hout => ?_⟩
    · rcases List.mem_cons.1 hp with rfl | hp
      · exact hrest.keeps p (hadvances.writes hfirstEq (hnumeric first (List.mem_cons_self ..)))
      · exact hrest.settles p hp
    · rcases List.mem_cons.1 hout with rfl | hout
      · rw [hresult, hadvances.still hfirstEq (hsettled id (List.mem_cons_self ..))]
      · refine hrest.still (fun p hp => ?_) out hout
        exact hadvances.keeps hfirstEq p (hsettled p (List.mem_cons_of_mem _ hp))

end Waveflow
