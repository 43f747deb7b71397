import Waveflow.Proofs.Pass.Merging
import Waveflow.Proofs.Pass.Settled

/-!
# Paths

The path of a node is the largest of the paths of its inputs plus what the node itself consumes.  On a graph without
cycles these equations have a solution (`Graph.exists_paths`), and one sweep along the order of the graph writes it to
the nodes: when the turn of a node comes, the paths of its inputs are known (`CoherencePass.markAlong_eq`).  A node is
reported on its turn, so the reports follow the order of the graph.
-/

namespace Waveflow

variable {r : Registry} {g : Graph} {path : NodeId → Float} {known : List (NodeId × Float)}
  {done ids order : List NodeId} {id : NodeId} {n : Node} {ctx : PassContext}

/-! ### The equations -/

namespace Graph

/-- The equations of paths.  An edge from a missing node adds nothing. -/
def Paths (r : Registry) (g : Graph) (path : NodeId → Float) : Prop :=
  ∀ n ∈ g.nodes, path n.id =
    ((n.inputs.filter g.contains).map path).foldl CoherencePass.larger 0.0 + CoherencePass.cost r n

/-- The equations of paths have a solution. -/
lemma exists_paths (h : g.Ordered) (ha : g.Acyclic) (r : Registry) : ∃ path, g.Paths r path := by
  obtain ⟨order, -, hcourse, hperm⟩ := order_of_acyclic h ha
  have hvalue : ∀ n ∈ g.nodes, ∀ v w : NodeId → Float,
      (∀ i ∈ n.inputs, g.contains i = true → v i = w i) →
      ((n.inputs.filter g.contains).map v).foldl CoherencePass.larger 0.0 + CoherencePass.cost r n =
        ((n.inputs.filter g.contains).map w).foldl CoherencePass.larger 0.0 + CoherencePass.cost r n := by
    intro n _ v w hsame
    rw [List.map_congr_left fun i hi => hsame i (List.mem_filter.1 hi).1 (List.mem_filter.1 hi).2]
  obtain ⟨path, hpath⟩ := hcourse.exists_valuation h hvalue fun _ => 0.0
  exact ⟨path, fun n hn => hpath n hn (hperm.mem_iff.2 (id_mem_ids hn))⟩

/-- Where every edge comes from a node, all inputs count. -/
lemma Paths.of_closed (h : g.Ordered) (hc : g.Closed) (hpath : g.Paths r path) (hn : n ∈ g.nodes) :
    path n.id = (n.inputs.map path).foldl CoherencePass.larger 0.0 + CoherencePass.cost r n := by
  have hall : n.inputs.filter g.contains = n.inputs :=
    List.filter_eq_self.2 fun i hi => (contains_iff h).2 (hc n hn i hi)
  rw [hpath n hn, hall]

/-- Every node is marked with its path. -/
def withPaths (g : Graph) (path : NodeId → Float) : Graph :=
  { g with nodes := g.nodes.map fun n => n.marked pathMark (.number (path n.id)) }

lemma reattributed_withPaths (g : Graph) (path : NodeId → Float) : g.Reattributed (g.withPaths path) :=
  ⟨fun n => n.attrs.mark pathMark (.number (path n.id)), rfl⟩

lemma mem_withPaths {m : Node} :
    m ∈ (g.withPaths path).nodes ↔ ∃ n ∈ g.nodes, m = n.marked pathMark (.number (path n.id)) := by
  unfold withPaths
  simp only [List.mem_map, eq_comm]

end Graph

namespace CoherencePass

/-! ### Known paths -/

/-- The paths of the nodes in the list are known, and no others. -/
def Records (path : NodeId → Float) (done : List NodeId) (known : List (NodeId × Float)) : Prop :=
  ∀ id, List.lookup id known = if id ∈ done then some (path id) else none

lemma records_nil : Records path [] [] := fun _ => rfl

lemma Records.snoc (h : Records path done known) (id : NodeId) :
    Records path (done ++ [id]) ((id, path id) :: known) := by
  intro i
  rw [List.lookup_cons, h i]
  by_cases hi : i = id
  · simp [hi]
  · simp [hi, beq_false_of_ne hi]

/-- The path of a node is computed from those of its inputs, which are known when they count. -/
lemma Records.pathOf_eq (h : Records path done known) (hg : g.Ordered) (hpath : g.Paths r path) (hn : n ∈ g.nodes)
    (hdone : done ⊆ g.ids) (hinputs : ∀ i ∈ n.inputs, g.contains i = true → i ∈ done) :
    pathOf r known n = path n.id := by
  have hlookup : ∀ i ∈ n.inputs, List.lookup i known = if g.contains i then some (path i) else none := by
    intro i hi
    rw [h i]
    refine if_congr ⟨fun hmem => (Graph.contains_iff hg).2 (hdone hmem), hinputs i hi⟩ rfl rfl
  have hknown : n.inputs.filterMap (fun i => List.lookup i known) = (n.inputs.filter g.contains).map path := by
    rw [← List.filterMap_eq_map, ← List.filterMap_eq_filter, List.filterMap_filterMap]
    refine List.filterMap_congr fun i hi => ?_
    rw [hlookup i hi, Option.guard]
    split <;> rfl
  rw [hpath n hn, pathOf, hknown]

/-! ### The sweep -/

/-- The node with its path written to it, unless it carries it already. -/
def charted (path : NodeId → Float) (n : Node) : Node :=
  if carries n (path n.id) then n else n.marked pathMark (.number (path n.id))

lemma charted_id : (charted path n).id = n.id := by
  unfold charted
  split <;> rfl

/-- The graph when the nodes in the list have had their turn. -/
def chart (g : Graph) (path : NodeId → Float) (done : List NodeId) : Graph :=
  { g with nodes := g.nodes.map (fun n => if n.id ∈ done then charted path n else n) }

lemma chart_nil : chart g path [] = g := by
  unfold chart
  simp

/-- When every node has had its turn. -/
lemma chart_all (hall : ∀ id ∈ g.ids, id ∈ done) :
    chart g path done = { g with nodes := g.nodes.map (charted path) } := by
  unfold chart
  congr 1
  exact List.map_congr_left fun n hn => if_pos (hall n.id (Graph.id_mem_ids hn))

lemma ordered_chart (hg : g.Ordered) : (chart g path done).Ordered := by
  have hids : (chart g path done).ids = g.ids := by
    unfold Graph.ids chart
    rw [List.map_map]
    refine List.map_congr_left fun n _ => ?_
    rw [Function.comp_apply]
    split
    · exact charted_id
    · rfl
  rw [Graph.ordered_iff, hids]
  exact hg.ids_ascend

/-- A node is as it was until its turn. -/
lemma node?_chart (hg : g.Ordered) (hn : n ∈ g.nodes) (hnew : n.id ∉ done) :
    (chart g path done).node? n.id = some n :=
  (ordered_chart hg).node?_of_mem (List.mem_map.2 ⟨n, hn, if_neg hnew⟩)

/-- The turn of a node. -/
lemma turned_chart (hg : g.Ordered) (hn : n ∈ g.nodes) (hnew : n.id ∉ done) (hpath : pathOf r known n = path n.id) :
    turned r (chart g path done) known n = chart g path (done ++ [n.id]) := by
  have hothers : ∀ m ∈ g.nodes, m.id ≠ n.id →
      (if m.id ∈ done ++ [n.id] then charted path m else m) = if m.id ∈ done then charted path m else m := by
    intro m _ hne
    simp [hne]
  have hself : (if n.id ∈ done ++ [n.id] then charted path n else n) = charted path n := by simp
  unfold turned
  rw [hpath]
  split
  · next hcarries =>
    unfold chart
    congr 1
    refine List.map_congr_left fun m hm => ?_
    by_cases hid : m.id = n.id
    · obtain rfl := hg.eq_of_id_eq hm hn hid
      rw [hself, if_neg hnew, charted, if_pos hcarries]
    · rw [hothers m hm hid]
  · next hcarries =>
    rw [Graph.modify_eq (ordered_chart hg)]
    unfold chart
    rw [List.map_map]
    congr 1
    refine List.map_congr_left fun m hm => ?_
    rw [Function.comp_apply]
    by_cases hid : m.id = n.id
    · obtain rfl := hg.eq_of_id_eq hm hn hid
      rw [hself, if_neg hnew, if_pos rfl, charted, if_neg hcarries]
      rfl
    · rw [hothers m hm hid, if_neg]
      split
      · rwa [charted_id]
      · exact hid

lemma markAlong_cons (hn : g.node? n.id = some n) (r : Registry) (known : List (NodeId × Float)) (ids : List NodeId) :
    markAlong r g known (n.id :: ids) =
      let more := markAlong r (turned r g known n) ((n.id, pathOf r known n) :: known) ids
      ⟨more.graph, !carries n (pathOf r known n) || more.changed,
        (if carries n (pathOf r known n) then [] else exceeded n (pathOf r known n)) ++ more.reported⟩ := by
  rw [markAlong, hn]
  unfold turned
  dsimp only
  split
  · next hcarries => simp [hcarries]
  · next hcarries => simp [hcarries]

/-- The nodes in the list that do not carry their paths. -/
def due (g : Graph) (path : NodeId → Float) (ids : List NodeId) : List Node :=
  (ids.filterMap g.node?).filter (fun n => !carries n (path n.id))

lemma due_cons (hn : g.node? n.id = some n) :
    due g path (n.id :: ids) = if carries n (path n.id) then due g path ids else n :: due g path ids := by
  unfold due
  rw [List.filterMap_cons_some hn, List.filter_cons]
  by_cases hcarries : carries n (path n.id) = true
  · simp [hcarries]
  · simp [hcarries]

/-- **The sweep writes the solution of the equations**, and reports on those nodes that do not carry it already.  By
induction on the numbers that are still to come. -/
theorem markAlong_eq (hg : g.Ordered) (hpath : g.Paths r path) (hcourse : g.Course g.contains (done ++ ids))
    (hknown : Records path done known) : markAlong r (chart g path done) known ids =
      ⟨chart g path (done ++ ids), !(due g path ids).isEmpty,
        (due g path ids).flatMap fun n => exceeded n (path n.id)⟩ := by
  induction ids generalizing done known with
  | nil =>
    rw [List.append_nil]
    rfl
  | cons id rest ih =>
    obtain ⟨n, hn, rfl⟩ := Graph.mem_ids.1 (hcourse.subset_ids (List.mem_append_right _ (List.mem_cons_self ..)))
    obtain ⟨hnew, hinputs⟩ := hcourse.next_of_append hg hn
    have hdone : done ⊆ g.ids := fun i hi => hcourse.subset_ids (List.mem_append_left _ hi)
    have heq : pathOf r known n = path n.id := hknown.pathOf_eq hg hpath hn hdone hinputs
    rw [List.append_cons] at hcourse ⊢
    rw [markAlong_cons (node?_chart hg hn hnew), turned_chart hg hn hnew heq, heq, due_cons (hg.node?_of_mem hn),
      ih hcourse (hknown.snoc n.id)]
    dsimp only
    split
    · next hcarries => simp [hcarries]
    · next hcarries => simp [hcarries]

/-- Marking the whole graph. -/
theorem markAll_eq (hg : g.Ordered) (ha : g.Acyclic) (hpath : g.Paths r path) :
    ∃ order, g.order = .ok (.ok order) ∧ order.Perm g.ids ∧ markAll r g =
      .ok ⟨{ g with nodes := g.nodes.map (charted path) }, !(due g path order).isEmpty,
        (due g path order).flatMap fun n => exceeded n (path n.id)⟩ := by
  obtain ⟨order, horder, hcourse, hperm⟩ := Graph.order_of_acyclic hg ha
  have hcourse' : g.Course g.contains ([] ++ order) := hcourse
  have hmark := markAlong_eq hg hpath hcourse' records_nil
  rw [chart_nil, List.nil_append, chart_all fun id hid => hperm.mem_iff.2 hid] at hmark
  refine ⟨order, horder, hperm, ?_⟩
  unfold markAll
  rw [horder]
  exact congrArg Except.ok hmark

/-! ### The pass -/

variable {g' : Graph} {count : Nat} {marked : Marked} {e : CompileError}

lemma run_of_merged (hmerged : mergeAll ctx.registry g = ⟨g', .ok count⟩)
    (hmarked : markAll ctx.registry g' = .ok marked) :
    run ctx g = .ok ⟨marked.graph, .ok (0 < count || marked.changed), marked.reported⟩ := by
  unfold run
  rw [hmerged]
  dsimp only
  rw [hmarked]
  rfl

lemma run_of_refused (hrefused : (mergeAll ctx.registry g).result = .error e) :
    run ctx g = .ok ⟨(mergeAll ctx.registry g).graph, .error e, []⟩ := by
  unfold run
  dsimp only
  rw [hrefused]
  rfl

/-- The report warns that the path of the node goes over its budget. -/
def Overruns (path : NodeId → Float) (n : Node) (d : Diagnostic) : Prop :=
  exceeded n (path n.id) = [d] ∧ d.severity = .warning ∧ d.stage = .optimize ∧ d.kind = .budgetExceeded ∧
    d.node = some n.id

lemma exceededBy_iff {b : Budget} {x : Float} :
    b.exceededBy x = true ↔ ∃ limit, b = .bounded limit ∧ limit.value < x := by
  cases b with
  | bounded limit => simp [Budget.exceededBy]
  | unbounded => simp [Budget.exceededBy]

/-- The reports are those of the nodes whose paths go over their budgets, one each and in the order of the graph. -/
def ReportsOverruns (path : NodeId → Float) (g : Graph) (reported : List Diagnostic) : Prop :=
  ∃ order exceeding, g.order = .ok (.ok order) ∧ (exceeding.map Node.id).Sublist order ∧
    (∀ n, n ∈ exceeding ↔ n ∈ g.nodes ∧ ∃ limit, n.attrs.coherence = .bounded limit ∧
      limit.value < path n.id) ∧
    List.Forall₂ (Overruns path) exceeding reported

/-- One report for each node whose path goes over its budget. -/
lemma overruns_exceeded (path : NodeId → Float) (ns : List Node) :
    List.Forall₂ (Overruns path) (ns.filter (fun n => n.attrs.coherence.exceededBy (path n.id)))
      (ns.flatMap fun n => exceeded n (path n.id)) := by
  induction ns with
  | nil => exact .nil
  | cons n rest ih =>
    rw [List.filter_cons, List.flatMap_cons]
    by_cases hover : n.attrs.coherence.exceededBy (path n.id) = true
    · have hreport : ∃ d, exceeded n (path n.id) = [d] ∧ Overruns path n d := by
        unfold Overruns exceeded
        rw [if_pos hover]
        exact ⟨_, rfl, rfl, rfl, rfl, rfl, rfl⟩
      obtain ⟨d, heq, hoverruns⟩ := hreport
      rw [if_pos hover, heq]
      exact .cons hoverruns ih
    · have hnone : exceeded n (path n.id) = [] := if_neg hover
      rw [if_neg hover, hnone]
      exact ih

/-- Nodes that carry no path are all marked and all have a turn. -/
lemma charted_of_fresh (hfresh : n.attrs.mark? pathMark = none) :
    carries n (path n.id) = false ∧ charted path n = n.marked pathMark (.number (path n.id)) := by
  have hcarries : carries n (path n.id) = false := by
    unfold carries
    rw [hfresh]
  exact ⟨hcarries, if_neg (by simp [hcarries])⟩

lemma due_of_fresh (hg : g.Ordered) (hfresh : ∀ n ∈ g.nodes, n.attrs.mark? pathMark = none) :
    due g path ids = ids.filterMap g.node? := by
  refine List.filter_eq_self.2 fun n hn => ?_
  obtain ⟨id, -, hnode⟩ := List.mem_filterMap.1 hn
  rw [(charted_of_fresh (hfresh n ((Graph.node?_eq_some_iff hg).1 hnode).1)).1]
  rfl

lemma ids_filterMap_node? (hg : g.Ordered) (hids : ids ⊆ g.ids) : (ids.filterMap g.node?).map (·.id) = ids := by
  induction ids with
  | nil => rfl
  | cons id rest ih =>
    obtain ⟨n, hn, rfl⟩ := Graph.mem_ids.1 (hids (List.mem_cons_self ..))
    rw [List.filterMap_cons_some (hg.node?_of_mem hn), List.map_cons,
      ih fun i hi => hids (List.mem_cons_of_mem _ hi)]

/-- What is reported of nodes while they are marked. -/
lemma reportsOverruns_withPaths (hg : g.Ordered) (horder : g.order = .ok (.ok order)) (hperm : order.Perm g.ids) :
    ReportsOverruns path (g.withPaths path) ((order.filterMap g.node?).flatMap fun n => exceeded n (path n.id)) := by
  refine ⟨order, ((order.filterMap g.node?).filter fun n => n.attrs.coherence.exceededBy (path n.id)).map
    fun n => n.marked pathMark (.number (path n.id)), ?_, ?_, fun m => ?_, ?_⟩
  · exact ((g.reattributed_withPaths path).order_eq hg).trans horder
  · have hsub := (List.filter_sublist (p := fun n => n.attrs.coherence.exceededBy (path n.id))
      (l := order.filterMap g.node?)).map (·.id)
    rw [ids_filterMap_node? hg hperm.subset] at hsub
    rw [List.map_map]
    exact hsub
  · simp only [Graph.mem_withPaths, List.mem_map, List.mem_filter, List.mem_filterMap, exceededBy_iff]
    constructor
    · rintro ⟨n, ⟨⟨id, -, hnode⟩, hover⟩, rfl⟩
      exact ⟨⟨n, ((Graph.node?_eq_some_iff hg).1 hnode).1, rfl⟩, hover⟩
    · rintro ⟨⟨n, hn, rfl⟩, hover⟩
      exact ⟨n, ⟨⟨n.id, hperm.mem_iff.2 (Graph.id_mem_ids hn), hg.node?_of_mem hn⟩, hover⟩, rfl⟩
  · rw [List.forall₂_map_left_iff]
    exact overruns_exceeded path _

/-- Marking a graph that carries no marks yet. -/
lemma markAll_of_fresh (hg : g.Ordered) (ha : g.Acyclic) (hpath : g.Paths r path)
    (hfresh : ∀ n ∈ g.nodes, n.attrs.mark? pathMark = none) :
    ∃ changed reported, markAll r g = .ok ⟨g.withPaths path, changed, reported⟩ ∧
      ReportsOverruns path (g.withPaths path) reported := by
  obtain ⟨order, horder, hperm, hmarked⟩ := markAll_eq hg ha hpath
  have hcharted : g.nodes.map (charted path) = (g.withPaths path).nodes :=
    List.map_congr_left fun n hn => (charted_of_fresh (hfresh n hn)).2
  rw [hcharted, due_of_fresh hg hfresh] at hmarked
  exact ⟨_, _, hmarked, reportsOverruns_withPaths hg horder hperm⟩

/-- Merging leaves the attributes of the nodes that stay. -/
lemma fresh_gathered {home : NodeId → NodeId} (hfresh : ∀ n ∈ g.nodes, n.attrs.mark? pathMark = none) :
    ∀ n ∈ (g.gathered home).nodes, n.attrs.mark? pathMark = none := by
  intro m hm
  obtain ⟨n, hn, -, rfl⟩ := Graph.mem_gathered.1 hm
  exact hfresh n hn

/-- **The marks solve the equations of paths.**  On a graph that carries no marks yet, every node that merging leaves is
marked with the largest mark of an input plus what it consumes itself, nothing else changes, and the reports are those
of the nodes whose marks go over their budgets, one each and in the order of the graph.  A merge is refused only where
something else than an input is declared as one. -/
theorem run_accounts (hg : g.WellFormed) (ha : g.Acyclic) (hfresh : ∀ n ∈ g.nodes, n.attrs.mark? pathMark = none) :
    ∃ out, run ctx g = .ok out ∧ (g.Declares → ∃ changed, out.result = .ok changed) ∧
      ∀ changed, out.result = .ok changed → ∃ path : NodeId → Float,
        out.graph = (mergeAll ctx.registry g).graph.withPaths path ∧ out.graph.WellFormed ∧
        (∀ n ∈ out.graph.nodes, n.attrs.mark? pathMark = some (.number (path n.id)) ∧
          path n.id = (n.inputs.map path).foldl larger 0.0 + cost ctx.registry n) ∧
        ReportsOverruns path out.graph out.reported := by
  have hends : Ends ctx.registry [.coherence] g (mergeAll ctx.registry g).graph (mergeAll ctx.registry g).result :=
    merge_ends hg (listed_candidates hg.ordered)
  rcases mergeAll_gathers hg.ordered ctx.registry with
    ⟨count, kept, home, hmerged, -⟩ | ⟨⟨e, he⟩, hundeclared⟩
  · rw [hmerged] at hends
    have hchain : Rewrites ctx.registry [.coherence] g (g.gathered home) := hends
    have hg' := Rewrites.wellFormed hchain hg
    have ha' := Rewrites.acyclic hchain hg ha
    obtain ⟨path, hpath⟩ := Graph.exists_paths hg'.ordered ha' ctx.registry
    obtain ⟨updated, reported, hmarked, hreports⟩ := markAll_of_fresh hg'.ordered ha' hpath (fresh_gathered hfresh)
    refine ⟨_, run_of_merged hmerged hmarked, fun _ => ⟨_, rfl⟩, fun _ _ => ⟨path, ?_, ?_, ?_, hreports⟩⟩
    · rw [hmerged]
    · exact (Graph.reattributed_withPaths _ path).wellFormed hg'
    · intro m hm
      obtain ⟨n, hn, rfl⟩ := Graph.mem_withPaths.1 hm
      have hsolved := hpath.of_closed hg'.ordered hg'.closed hn
      exact ⟨Attributes.mark?_mark_self, hsolved⟩
  · refine ⟨_, run_of_refused he, fun hdeclares => absurd hdeclares hundeclared, fun changed hresult => ?_⟩
    cases hresult

/-- Two equal operations and two that use them, one of them before them; both users have budgets. -/
def delta : Graph where
  name := "delta"
  nodes := [
    { Node.plain 0 (.operation .fourier) [3] .scalar with
      attrs := { Attributes.plain with coherence := .bounded 2.0 } },
    Node.plain 1 .input [] .scalar,
    Node.plain 2 (.operation .split) [1] .scalar,
    Node.plain 3 (.operation .split) [1] .scalar,
    { Node.plain 4 (.operation .merge) [2, 0] .scalar with
      attrs := { Attributes.plain with coherence := .bounded 4.0 } }]
  inputs := [1]
  outputs := [⟨"y", 4⟩]
  hints := Hints.empty
  nextId := 5

theorem run_accounts_delta : ∃ out changed path, run ⟨.builtin, none⟩ delta = .ok out ∧
    out.result = .ok changed ∧
    out.graph = (mergeAll .builtin delta).graph.withPaths path ∧ ReportsOverruns path out.graph out.reported ∧
      out.graph.nodes.map (fun n => (n.id, n.inputs)) = [(0, [2]), (1, []), (2, [1]), (4, [2, 0])] ∧
      out.reported.map (·.node) = [some 0] := by
  have hclosed : delta.Closed := by
    unfold Graph.Closed
    decide
  have hwf : delta.WellFormed := ⟨Graph.ordered_iff.2 (by decide), by decide, hclosed⟩
  have hranked : delta.Ranked (fun id => if id = 0 then 4 else if id = 4 then 5 else id) := by
    unfold Graph.Ranked
    decide
  obtain ⟨out, hrun, hreturns, hmarks⟩ : ∃ out, run ⟨.builtin, none⟩ delta = .ok out ∧ _ :=
    run_accounts hwf hranked.acyclic (by decide +kernel)
  obtain ⟨changed, hresult⟩ := hreturns (by unfold Graph.Declares; decide)
  obtain ⟨path, hgraph, -, -, hreports⟩ := hmarks changed hresult
  have hdone : (run ⟨.builtin, none⟩ delta).toOption.map
      (fun out => (out.graph.nodes.map (fun n => (n.id, n.inputs)), out.reported.map (·.node))) =
        some ([(0, [2]), (1, []), (2, [1]), (4, [2, 0])], [some 0]) := by decide +kernel
  rw [hrun] at hdone
  obtain ⟨hnodes, hreported⟩ := Prod.mk.inj (Option.some.inj hdone)
  exact ⟨out, changed, path, hrun, hresult, hgraph, hreports, hnodes, hreported⟩

end CoherencePass

end Waveflow
