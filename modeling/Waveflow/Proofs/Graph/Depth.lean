import Waveflow.Proofs.Graph.Cycles
import Waveflow.Proofs.Graph.Reach

/-!
# Depths

`Graph.depths` gives every node the length of the longest chain of edges between nodes that ends in it (`IsHeight`).  It
computes them in one sweep along an order.  The sweep passes over inputs of which no depth is known, and it makes no
difference whether they are missing or still to come; that they are missing is due to the order, in which the inputs
that are there have had their turn before the node (`Charted.step`).  Around a cycle there is no order and no depth
(`depths_exact`).

Depths grow along every edge, so they are a measure of the graph.  Without dangling edges all chains of edges count
(`IsDepth`, `depths_of_acyclic`).
-/

namespace Waveflow.Graph

open Relation (TransGen ReflTransGen)

variable {g : Graph} {a b i id : NodeId} {n : Node} {d e k : Nat} {known : DepthMap} {done rest order : List NodeId}

/-! ### Chains that end in a node -/

/-- A chain of that many edges between nodes of the graph ends in the node. -/
inductive Ascent (g : Graph) : Nat → NodeId → Prop
  | start (id : NodeId) : Ascent g 0 id
  | step {k : Nat} {a b : NodeId} : Ascent g k a → g.Links a b → Ascent g (k + 1) b

/-- The longest chain of edges between nodes that ends in the node has that length. -/
def IsHeight (g : Graph) (id : NodeId) (d : Nat) : Prop := IsGreatest { k | g.Ascent k id } d

lemma IsHeight.eq (hd : g.IsHeight id d) (he : g.IsHeight id e) : d = e :=
  Nat.le_antisymm (he.2 hd.1) (hd.2 he.1)

lemma IsHeight.lt_of_links (hd : g.IsHeight a d) (he : g.IsHeight b e) (hab : g.Links a b) : d < e :=
  he.2 (Ascent.step hd.1 hab)

/-! ### The sweep -/

/-- The depths of the listed nodes are known, and no others. -/
structure Charted (g : Graph) (known : DepthMap) (done : List NodeId) : Prop where
  keys : known.map (·.1) = done.reverse
  heights : ∀ id ∈ done, ∃ d, known.lookup id = some d ∧ g.IsHeight id d

lemma Charted.lookup_eq_some_iff (hc : g.Charted known done) :
    known.lookup id = some d ↔ id ∈ done ∧ g.IsHeight id d := by
  constructor
  · intro hlookup
    have hid : id ∈ done := by
      obtain ⟨l, r, rfl, -⟩ := List.lookup_eq_some_iff.1 hlookup
      rw [← List.mem_reverse, ← hc.keys]
      simp
    obtain ⟨e, he, hheight⟩ := hc.heights id hid
    exact ⟨hid, Option.some.inj (he.symm.trans hlookup) ▸ hheight⟩
  · rintro ⟨hid, hheight⟩
    obtain ⟨e, he, hheight'⟩ := hc.heights id hid
    rw [he, hheight.eq hheight']

/-- The depth of a node is one more than the greatest depth of an input that is there. -/
lemma isHeight_depthFrom (h : g.Ordered) (hn : n ∈ g.nodes) (hc : g.Charted known done)
    (hinputs : ∀ i ∈ n.inputs, i ∈ done ↔ i ∈ g.ids) : g.IsHeight n.id (depthFrom known n.inputs) := by
  unfold depthFrom
  have hlinks : ∀ i, g.Links i n.id ↔ i ∈ n.inputs ∧ i ∈ done := by
    intro i
    constructor
    · rintro ⟨hi, m, hm, hid, hedge⟩
      obtain rfl := h.eq_of_id_eq hm hn hid
      exact ⟨hedge, (hinputs i hedge).2 hi⟩
    · rintro ⟨hedge, hi⟩
      exact ⟨(hinputs i hedge).1 hi, n, hn, rfl, hedge⟩
  have hmem : ∀ k, k ∈ (n.inputs.filterMap (fun i => known.lookup i)).map (· + 1) ↔
      ∃ i, g.Links i n.id ∧ ∃ d, g.IsHeight i d ∧ d + 1 = k := by
    intro k
    simp only [List.mem_map, List.mem_filterMap, hc.lookup_eq_some_iff, hlinks]
    constructor
    · rintro ⟨d, ⟨i, hi, hdone, hheight⟩, rfl⟩
      exact ⟨i, ⟨hi, hdone⟩, d, hheight, rfl⟩
    · rintro ⟨i, ⟨hi, hdone⟩, d, hheight, rfl⟩
      exact ⟨d, ⟨i, hi, hdone, hheight⟩, rfl⟩
  -- the last edge of a chain comes from an input of the node, and the chain before it is no longer than its depth
  have hlast : ∀ k, g.Ascent (k + 1) n.id → ∃ d, k ≤ d ∧
      d + 1 ∈ (n.inputs.filterMap (known.lookup ·)).map (· + 1) := by
    rintro k (_ | ⟨hchain, hlink⟩)
    obtain ⟨d, -, hheight⟩ := hc.heights _ ((hlinks _).1 hlink).2
    exact ⟨d, hheight.2 hchain, (hmem _).2 ⟨_, hlink, d, hheight, rfl⟩⟩
  cases hmax : ((n.inputs.filterMap (fun i => known.lookup i)).map (· + 1)).max? with
  | none =>
    refine ⟨.start _, fun k hk => ?_⟩
    rw [List.max?_eq_none_iff] at hmax
    cases k with
    | zero => exact Nat.le_refl _
    | succ k =>
      obtain ⟨d, -, hin⟩ := hlast k hk
      rw [hmax] at hin
      cases hin
  | some top =>
    rw [List.max?_eq_some_iff] at hmax
    obtain ⟨htop, hle⟩ := hmax
    obtain ⟨i, hlink, d, hheight, rfl⟩ := (hmem top).1 htop
    refine ⟨Ascent.step hheight.1 hlink, fun k hk => ?_⟩
    cases k with
    | zero => exact Nat.zero_le _
    | succ k =>
      obtain ⟨e, hke, hin⟩ := hlast k hk
      exact Nat.le_trans (Nat.succ_le_succ hke) (hle _ hin)

/-- One turn of the sweep. -/
lemma Charted.step (h : g.Ordered) (hn : n ∈ g.nodes) (hnew : n.id ∉ done)
    (hinputs : ∀ i ∈ n.inputs, i ∈ done ↔ i ∈ g.ids) (hc : g.Charted known done) :
    g.Charted ((n.id, depthFrom known n.inputs) :: known) (done ++ [n.id]) := by
  refine ⟨by simp [hc.keys], fun id hid => ?_⟩
  rcases List.mem_append.1 hid with hid | hid
  · obtain ⟨d, hlookup, hheight⟩ := hc.heights id hid
    have hne : (id == n.id) = false := beq_false_of_ne fun heq => hnew (heq ▸ hid)
    exact ⟨d, by rw [List.lookup_cons, hne]; exact hlookup, hheight⟩
  · obtain rfl := List.mem_singleton.1 hid
    exact ⟨_, by rw [List.lookup_cons, beq_self_eq_true], isHeight_depthFrom h hn hc hinputs⟩

/-- The whole sweep, by induction on the numbers that are still to come. -/
lemma charted_depthsAlong (h : g.Ordered) (hcourse : g.Course g.contains (done ++ rest)) (hc : g.Charted known done) :
    g.Charted (g.depthsAlong known rest) (done ++ rest) := by
  induction rest generalizing known done with
  | nil =>
    rw [List.append_nil]
    exact hc
  | cons id rest ih =>
    obtain ⟨n, hn, rfl⟩ := mem_ids.1 (hcourse.subset_ids (List.mem_append_right _ (List.mem_cons_self ..)))
    obtain ⟨hnew, hready⟩ := hcourse.next_of_append h hn
    have hinputs : ∀ i ∈ n.inputs, i ∈ done ↔ i ∈ g.ids := fun i hi =>
      ⟨fun hdone => hcourse.subset_ids (List.mem_append_left _ hdone),
        fun hid => hready i hi ((contains_iff h).2 hid)⟩
    rw [depthsAlong, h.node?_of_mem hn]
    dsimp only
    rw [List.append_cons] at hcourse ⊢
    exact ih hcourse (hc.step h hn hnew hinputs)

/-- Where no chain of edges closes, every node gets its depth. -/
theorem charted_depths (h : g.Ordered) (ha : g.Acyclic) :
    ∃ known order, g.depths = .ok (.ok known) ∧ g.Charted known order ∧ order.Perm g.ids := by
  obtain ⟨order, horder, hcourse, hperm⟩ := order_of_acyclic h ha
  have hnone : g.Charted [] [] := ⟨rfl, fun id hid => by cases hid⟩
  have hcourse' : g.Course g.contains ([] ++ order) := hcourse
  refine ⟨g.depthsAlong [] order, order, ?_, charted_depthsAlong h hcourse' hnone, hperm⟩
  unfold depths
  rw [horder]
  rfl

/-! ### What depths tell -/

/-- Every node has a depth, the length of the longest chain of edges between nodes that ends in it.  Depths grow along
every edge between nodes, by one along some edge into a node that is not at the start, and no chain of edges joins two
nodes of one depth. -/
structure HasDepths (g : Graph) (known : DepthMap) : Prop where
  each : (known.map (·.1)).Perm g.ids
  longest : ∀ id ∈ g.ids, ∃ d, known.lookup id = some d ∧ g.IsHeight id d
  grows : ∀ a b d e, g.Links a b → known.lookup a = some d → known.lookup b = some e → d < e
  apart : ∀ a b d, known.lookup a = some d → known.lookup b = some d → g.reaches a b = false
  nearest : ∀ id d, known.lookup id = some (d + 1) → ∃ a, g.Links a id ∧ known.lookup a = some d

/-- A chain of edges leads from a node to deeper ones. -/
lemma IsHeight.lt_of_transGen (hab : TransGen g.Links a b) (hcharted : ∀ id ∈ g.ids, ∃ d, g.IsHeight id d)
    (hd : g.IsHeight a d) (he : g.IsHeight b e) : d < e := by
  induction hab generalizing e with
  | single hlink => exact hd.lt_of_links he hlink
  | tail _ hlink ih =>
    obtain ⟨m, hm⟩ := hcharted _ hlink.1
    exact Nat.lt_trans (ih hm) (hm.lt_of_links he hlink)

lemma Charted.hasDepths (h : g.Ordered) (hc : g.Charted known order) (hperm : order.Perm g.ids) :
    g.HasDepths known := by
  have hheights : ∀ id ∈ g.ids, ∃ d, known.lookup id = some d ∧ g.IsHeight id d :=
    fun id hid => hc.heights id (hperm.mem_iff.2 hid)
  refine ⟨?_, hheights, fun a b d e hlink hd he => ?_, fun a b d ha hb => ?_, fun id d hid => ?_⟩
  · rw [hc.keys]
    exact order.reverse_perm.trans hperm
  · rw [hc.lookup_eq_some_iff] at hd he
    exact hd.2.lt_of_links he.2 hlink
  · rw [hc.lookup_eq_some_iff] at ha hb
    unfold reaches
    simp only [Bool.and_eq_false_imp, List.contains_eq_mem, decide_eq_false_iff_not, mem_ancestors_iff h]
    intro _ hchain
    have hlinks := transGen_awaits h hchain (hperm.mem_iff.1 ha.1)
    rw [awaits_eq h] at hlinks
    have hheight : ∀ id ∈ g.ids, ∃ d, g.IsHeight id d := fun id hid => (hheights id hid).imp fun _ => And.right
    exact Nat.lt_irrefl d (IsHeight.lt_of_transGen hlinks hheight ha.2 hb.2)
  · obtain ⟨-, hchain, hgreatest⟩ := hc.lookup_eq_some_iff.1 hid
    obtain _ | ⟨hchain, hlink⟩ := hchain
    obtain ⟨e, he, hheight⟩ := hheights _ hlink.1
    have hle : d ≤ e := hheight.2 hchain
    have hge : e + 1 ≤ d + 1 := hgreatest (Ascent.step hheight.1 hlink)
    obtain rfl : e = d := by omega
    exact ⟨_, hlink, he⟩

/-- **The depths of a graph are exact.**  Where no chain of edges between nodes closes, the depth of every node is the
length of the longest chain into it, whatever inputs are missing and wherever the edges run.  Otherwise there are no
depths, and the smallest of the nodes on a cycle and behind one is named. -/
theorem depths_exact (h : g.Ordered) :
    ((∀ id, ¬ TransGen g.Links id id) → ∃ known, g.depths = .ok (.ok known) ∧ g.HasDepths known) ∧
    ((∃ id, TransGen g.Links id id) → ∃ id, IsLeast { id | g.Snared id } id ∧
      g.depths = .ok (.error (.cycle id))) := by
  constructor
  · intro ha
    obtain ⟨known, order, hdepths, hcharted, hperm⟩ := charted_depths h ((acyclic_iff h).2 ha)
    exact ⟨known, hdepths, hcharted.hasDepths h hperm⟩
  · rintro ⟨id, hcycle⟩
    obtain ⟨stuck, horder, hascend, hstuck⟩ := stuck_of_cyclic h fun ha => (acyclic_iff h).1 ha id hcycle
    cases stuck with
    | nil => exact absurd ((hstuck id).2 ⟨id, hcycle, .refl⟩) List.not_mem_nil
    | cons first rest =>
      refine ⟨first, ⟨(hstuck first).1 (List.mem_cons_self ..), fun k hk => ?_⟩, ?_⟩
      · rcases List.mem_cons.1 ((hstuck k).2 hk) with rfl | hk
        · exact Nat.le_refl _
        · exact Nat.le_of_lt ((List.pairwise_cons.1 hascend).1 k hk)
      · unfold depths
        rw [horder]
        rfl

/-- The three nodes of the outflow stand below each other against the order of their numbers; the eddy has no depths. -/
theorem depths_exact_outflow : outflow.Ordered ∧ outflow.HasDepths [(0, 2), (5, 1), (4, 0)] ∧
    eddy.Ordered ∧ IsLeast { id | eddy.Snared id } 1 := by
  have hordered : outflow.Ordered := ordered_iff.2 (by decide)
  have hordered' : eddy.Ordered := ordered_iff.2 (by decide)
  have horder : outflow.order = .ok (.ok [4, 5, 0]) := by rfl
  have hacyclic := (acyclic_iff hordered).1 (acyclic_of_order hordered horder)
  obtain ⟨known, hknown, hdepths⟩ := (depths_exact hordered).1 hacyclic
  have hrun : outflow.depths = .ok (.ok [(0, 2), (5, 1), (4, 0)]) := by rfl
  obtain rfl := Except.ok.inj (Except.ok.inj (hrun.symm.trans hknown))
  have hself : eddy.Links 4 4 :=
    ⟨by decide, Node.plain 4 (.operation .split) [4] .scalar, by simp [eddy], rfl, by decide⟩
  obtain ⟨id, hleast, hcycle⟩ := (depths_exact hordered').2 ⟨4, .single hself⟩
  have hrun' : eddy.depths = .ok (.error (.cycle 1)) := by rfl
  obtain rfl : 1 = id := Refusal.cycle.inj (Except.error.inj (Except.ok.inj (hrun'.symm.trans hcycle)))
  exact ⟨hordered, hdepths, hordered', hleast⟩

/-! ### Graphs without dangling edges -/

/-- A chain of that many edges ends in the node. -/
inductive Chain (g : Graph) : Nat → NodeId → Prop
  | start (id : NodeId) : Chain g 0 id
  | step {k : Nat} {a b : NodeId} : Chain g k a → g.Feeds a b → Chain g (k + 1) b

/-- The longest chain of edges that ends in the node has that length. -/
def IsDepth (g : Graph) (id : NodeId) (d : Nat) : Prop := IsGreatest { k | g.Chain k id } d

lemma IsDepth.eq (hd : g.IsDepth id d) (he : g.IsDepth id e) : d = e :=
  Nat.le_antisymm (he.2 hd.1) (hd.2 he.1)

lemma IsDepth.lt_of_feeds (hd : g.IsDepth a d) (he : g.IsDepth b e) (hab : g.Feeds a b) : d < e :=
  he.2 (Chain.step hd.1 hab)

/-- Where all inputs are there, every chain of edges is one between nodes. -/
lemma chain_iff (hc : g.Closed) : g.Chain k id ↔ g.Ascent k id := by
  constructor
  · intro hchain
    induction hchain with
    | start id => exact .start id
    | step _ hedge ih =>
      have ⟨n, hn, _, hi⟩ := hedge
      exact .step ih ⟨hc n hn _ hi, hedge⟩
  · intro hchain
    induction hchain with
    | start id => exact .start id
    | step _ hlink ih => exact .step ih hlink.2

lemma isDepth_iff (hc : g.Closed) : g.IsDepth id d ↔ g.IsHeight id d := by
  unfold IsDepth IsHeight
  simp only [chain_iff hc]

/-- The depths of the nodes in the list are known. -/
def Known (g : Graph) (known : DepthMap) (done : List NodeId) : Prop :=
  ∀ id ∈ done, ∃ d, List.lookup id known = some d ∧ g.IsDepth id d

/-- Every node of a graph without cycles and dangling edges gets its depth. -/
theorem depths_of_acyclic (h : g.Ordered) (hc : g.Closed) (ha : g.Acyclic) :
    ∃ known, g.depths = .ok (.ok known) ∧ g.Known known g.ids := by
  obtain ⟨known, order, hdepths, hcharted, hperm⟩ := charted_depths h ha
  refine ⟨known, hdepths, fun id hid => ?_⟩
  obtain ⟨d, hd, hheight⟩ := hcharted.heights id (hperm.mem_iff.2 hid)
  exact ⟨d, hd, (isDepth_iff hc).2 hheight⟩

/-- Known depths are a measure that grows along every edge. -/
lemma Known.ranked (hc : g.Closed) (hknown : g.Known known g.ids) :
    g.Ranked (fun id => (List.lookup id known).getD 0) := by
  intro n hn i hi
  obtain ⟨d, hd, hdepth⟩ := hknown i (hc n hn i hi)
  obtain ⟨e, he, hdepth'⟩ := hknown n.id (id_mem_ids hn)
  simp only [hd, he, Option.getD_some]
  exact hdepth.lt_of_feeds hdepth' ⟨n, hn, rfl, hi⟩

end Waveflow.Graph
