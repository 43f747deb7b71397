import Waveflow.Proofs.Pass.Paths

/-!
# Equal computations are merged for good

Along edges that ascend, one run of the coherence pass leaves no two nodes to merge.  The marks that it writes
afterwards cannot make nodes equal that were not, since none of them carried such a mark before
(`isDuplicate_marked`).  A second run then finds every candidate told apart from those before it (`merge_idle`) and
every node marked with its path (`markAll_withPaths`).
-/

namespace Waveflow

variable {r : Registry} {g : Graph} {home : NodeId → NodeId} {path : NodeId → Float} {kept ids done : List NodeId}
  {m n : Node} {v w : AttrValue} {ctx : PassContext}

/-! ### Marks and merging -/

lemma Attributes.beq_eq (a b : Attributes) : (a == b) =
    (a.coherence == b.coherence &&
      (a.thermal == b.thermal && (a.correction == b.correction && a.extra == b.extra))) := by
  cases a
  cases b
  rfl

lemma Node.mergeable_marked : (n.marked pathMark v).Mergeable r ↔ n.Mergeable r := by
  have hpart : (n.marked pathMark v).attrs.hasFlag partMark = n.attrs.hasFlag partMark :=
    Attributes.hasFlag_mark_of_ne (by decide)
  unfold Mergeable
  rw [hpart]
  rfl

lemma Node.mergeable_rewired : (n.rewired home).Mergeable r ↔ n.Mergeable r := by
  have hinputs : (n.rewired home).inputs ≠ [] ↔ n.inputs ≠ [] := not_congr List.map_eq_nil_iff
  unfold Mergeable
  rw [hinputs]
  rfl

namespace CoherencePass

/-- Marks do not make nodes equal that were not. -/
lemma isDuplicate_marked (hm : m.attrs.mark? pathMark = none) (hn : n.attrs.mark? pathMark = none)
    (h : isDuplicate (m.marked pathMark v) (n.marked pathMark w) = true) : isDuplicate m n = true := by
  unfold isDuplicate at h ⊢
  rw [Bool.and_eq_true] at h ⊢
  refine ⟨h.1, ?_⟩
  have hattrs := h.2
  rw [Attributes.beq_eq] at hattrs ⊢
  simp only [Bool.and_eq_true] at hattrs ⊢
  exact ⟨hattrs.1, hattrs.2.1, hattrs.2.2.1, Dict.beq_of_insert hm hn hattrs.2.2.2⟩

/-- Where no two nodes are to be merged, nothing is. -/
lemma merge_idle (hg : g.Ordered) (hasc : (kept ++ ids).Pairwise (· < ·))
    (hapart : ∀ m ∈ g.nodes, ∀ n ∈ g.nodes, m.id ∈ kept ++ ids → n.id ∈ kept ++ ids → m.id < n.id →
      g.isOutput n.id = false → isDuplicate m n = false) (hin : ids ⊆ g.ids) :
      merge g kept ids = ⟨g, .ok 0⟩ := by
  induction ids generalizing kept with
  | nil => rfl
  | cons id rest ih =>
    obtain ⟨n, hn, rfl⟩ := Graph.mem_ids.1 (hin (List.mem_cons_self ..))
    have hid : n.id ∈ kept ++ n.id :: rest := List.mem_append_right _ (List.mem_cons_self ..)
    have hlast : ∀ k ∈ kept, k < n.id :=
      fun k hk => (List.pairwise_append.1 hasc).2.2 k hk n.id (List.mem_cons_self ..)
    have hrest : merge g (kept ++ [n.id]) rest = ⟨g, .ok 0⟩ := by
      rw [List.append_cons] at hasc hapart
      exact ih hasc hapart fun i hi => hin (List.mem_cons_of_mem _ hi)
    rw [merge]
    split
    · exact hrest
    · next hout =>
      have hkeeper : keeper? g kept n = none := by
        by_contra hsome
        obtain ⟨k, hk⟩ := Option.ne_none_iff_exists'.1 hsome
        obtain ⟨hkept, keep, hkeep, rfl, hsame⟩ := keeper?_eq_some hg hk
        rw [hapart keep hkeep n hn (List.mem_append_left _ hkept) hid (hlast _ hkept) (Bool.eq_false_iff.2 hout)]
          at hsame
        cases hsame
      rw [hg.node?_of_mem hn]
      dsimp only
      rw [hkeeper]
      exact hrest

/-! ### Marks that are there -/

lemma paths_withPaths (hg : g.Ordered) (hpath : g.Paths r path) : (g.withPaths path).Paths r path := by
  intro m hm
  obtain ⟨n, hn, rfl⟩ := Graph.mem_withPaths.1 hm
  rw [(g.reattributed_withPaths path).contains_eq hg]
  exact hpath n hn

/-- Marks that are numbers are not written again. -/
lemma markAll_withPaths (hg : g.Ordered) (ha : g.Acyclic) (hpath : g.Paths r path)
    (hnumeric : (g.withPaths path).PathsNumeric) :
    markAll r (g.withPaths path) = .ok ⟨g.withPaths path, false, []⟩ := by
  have hmarks := g.reattributed_withPaths path
  have hg' := hmarks.ordered hg
  have hcarries : ∀ m ∈ (g.withPaths path).nodes, carries m (path m.id) = true := by
    intro m hm
    have hnumber := hnumeric m hm (path m.id)
    obtain ⟨n, hn, rfl⟩ := Graph.mem_withPaths.1 hm
    have hmark : (n.marked pathMark (.number (path n.id))).attrs.mark? pathMark = some (.number (path n.id)) :=
      Attributes.mark?_mark_self
    unfold carries
    rw [hmark]
    exact Decimal.beq_self (hnumber hmark)
  obtain ⟨order, -, -, hmarked⟩ := markAll_eq hg' (hmarks.acyclic ha) (paths_withPaths hg hpath)
  have hcharted : (g.withPaths path).nodes.map (charted path) = (g.withPaths path).nodes := by
    conv_rhs => rw [← List.map_id (g.withPaths path).nodes]
    exact List.map_congr_left fun m hm => if_pos (hcarries m hm)
  have hdue : due (g.withPaths path) path order = [] := by
    refine List.filter_eq_nil_iff.2 fun m hm => ?_
    obtain ⟨id, -, hnode⟩ := List.mem_filterMap.1 hm
    simp [hcarries m ((Graph.node?_eq_some_iff hg').1 hnode).1]
  rw [hcharted, hdue] at hmarked
  exact hmarked

/-! ### After the pass -/

/-- Homes are not younger. -/
lemma Gathering.home_le (h : Gathering g done kept home) (hdone : done ⊆ g.ids) (id : NodeId) : home id ≤ id := by
  by_cases heq : home id = id
  · exact le_of_eq heq
  · have hmem : id ∈ done := by
      by_contra hnot
      exact heq (h.fixed id hnot)
    obtain ⟨n, hn, rfl⟩ := Graph.mem_ids.1 (hdone hmem)
    exact le_of_lt (h.sent n hn heq).2.1

/-- Edges still ascend when they have been moved to older nodes. -/
lemma Gathering.ranked (h : Gathering g done kept home) (hdone : done ⊆ g.ids) (hranked : g.Ranked fun id => id) :
    (g.gathered home).Ranked fun id => id := by
  intro m hm i hi
  obtain ⟨n, hn, -, rfl⟩ := Graph.mem_gathered.1 hm
  obtain ⟨j, hj, rfl⟩ := List.mem_map.1 hi
  exact lt_of_le_of_lt (h.home_le hdone j) (hranked n hn j hj)

/-- What merging for good makes of a graph.  Some nodes have been dropped and their uses moved to their homes, and every
node that is left is marked with a path.  Only mergeable nodes that are no outputs have been dropped, each for an older
node that is still there and computes the same.  Among the mergeable nodes that are left no two compute the same,
but for later ones that are outputs. -/
structure Merged (r : Registry) (g : Graph) (home : NodeId → NodeId) (path : NodeId → Float)
    (g' : Graph) : Prop where
  graph : g' = (g.gathered home).withPaths path
  stays : ∀ n ∈ g.nodes, g.isOutput n.id = true ∨ ¬ n.Mergeable r → n.id ∈ g'.ids
  replaced : ∀ n ∈ g.nodes, n.id ∉ g'.ids → home n.id ∈ g'.ids ∧ home n.id < n.id ∧
    ∃ keep ∈ g.nodes, keep.id = home n.id ∧ isDuplicate (keep.rewired home) (n.rewired home) = true
  fixed : ∀ id ∈ g'.ids, home id = id
  settled : ∀ id, home (home id) = home id
  distinct : ∀ m ∈ g'.nodes, ∀ n ∈ g'.nodes, m.id < n.id → m.Mergeable r → n.Mergeable r →
    g'.isOutput n.id = false → isDuplicate m n = false

lemma Gathering.merged (hg : g.Ordered) (hranked : g.Ranked fun id => id)
    (hfresh : ∀ n ∈ g.nodes, n.attrs.mark? pathMark = none) (h : Gathering g (candidates r g) kept home) :
    Merged r g home path ((g.gathered home).withPaths path) := by
  have hids : ∀ id, id ∈ ((g.gathered home).withPaths path).ids ↔ id ∈ g.ids ∧ home id = id := by
    intro id
    rw [(Graph.reattributed_withPaths _ path).ids_eq]
    exact Graph.mem_ids_gathered
  refine ⟨rfl, fun n hn hstays => ?_, fun n hn hdropped => ?_, fun id hid => ((hids id).1 hid).2, h.home_home, ?_⟩
  · refine (hids n.id).2 ⟨Graph.id_mem_ids hn, ?_⟩
    by_contra hmoved
    rcases hstays with hout | hno
    · rw [(h.sent n hn hmoved).1] at hout
      cases hout
    · exact hmoved (h.fixed n.id fun hmem => hno (mergeable_of_mem hg hn hmem))
  · have hmoved : home n.id ≠ n.id := fun heq => hdropped ((hids n.id).2 ⟨Graph.id_mem_ids hn, heq⟩)
    obtain ⟨-, hlt, keep, hkeep, hid, hsame⟩ := h.sent n hn hmoved
    refine ⟨(hids _).2 ⟨hid ▸ Graph.id_mem_ids hkeep, h.home_home n.id⟩, hlt, keep, hkeep, hid, hsame⟩
  · intro a ha b hb hlt hma hmb hout
    obtain ⟨_, ham, rfl⟩ := Graph.mem_withPaths.1 ha
    obtain ⟨_, hbn, rfl⟩ := Graph.mem_withPaths.1 hb
    obtain ⟨m, hm, hmfixed, rfl⟩ := Graph.mem_gathered.1 ham
    obtain ⟨n, hn, hnfixed, rfl⟩ := Graph.mem_gathered.1 hbn
    have hkept : ∀ c ∈ g.nodes, c.Mergeable r → home c.id = c.id → c.id ∈ kept :=
      fun c hc hmergeable heq => (h.stays c.id).2 ⟨mem_candidates.2 ⟨c, hc, rfl, hmergeable⟩, heq⟩
    have hapart := h.apart hranked m hm n hn
      (hkept m hm (Node.mergeable_rewired.1 (Node.mergeable_marked.1 hma)) hmfixed)
      (hkept n hn (Node.mergeable_rewired.1 (Node.mergeable_marked.1 hmb)) hnfixed) hlt hout
    have hfresh' : ∀ c ∈ (g.gathered home).nodes, c.attrs.mark? pathMark = none := fresh_gathered hfresh
    by_contra hsame
    rw [isDuplicate_marked (hfresh' _ ham) (hfresh' _ hbn) (Bool.eq_true_of_not_eq_false hsame)] at hapart
    cases hapart

/-- On a graph that is merged for good the pass has nothing to do. -/
lemma Merged.run_idle {g' : Graph} (h : Merged ctx.registry g home path g') (hg : (g.gathered home).Ordered)
    (ha : (g.gathered home).Acyclic) (hpath : (g.gathered home).Paths ctx.registry path) (hnumeric : g'.PathsNumeric) :
    run ctx g' = .ok ⟨g', .ok false, []⟩ := by
  obtain rfl := h.graph
  have hg' := (Graph.reattributed_withPaths (g.gathered home) path).ordered hg
  have hidle : mergeAll ctx.registry ((g.gathered home).withPaths path) =
      ⟨(g.gathered home).withPaths path, .ok 0⟩ := by
    refine merge_idle hg' (candidates_ascend hg') (fun m hm n hn hmem hnmem hlt hout => ?_) candidates_subset_ids
    exact h.distinct m hm n hn hlt (mergeable_of_mem hg' hm hmem) (mergeable_of_mem hg' hn hnmem) hout
  exact run_of_merged hidle (markAll_withPaths hg ha hpath hnumeric)

/-- **Equal computations are merged for good.**  On a graph whose edges ascend and that carries no marks yet, one run
merges everything there is to merge, however many merges only follow from others; it is refused only where something
else than an input is declared as one.  If no path is a NaN, a second run changes nothing and reports nothing. -/
theorem run_merges (hg : g.Ordered) (hranked : g.Ranked fun id => id)
    (hfresh : ∀ n ∈ g.nodes, n.attrs.mark? pathMark = none) :
    ∃ out, run ctx g = .ok out ∧ (g.Declares → ∃ changed, out.result = .ok changed) ∧
      ∀ changed, out.result = .ok changed → ∃ home path, Merged ctx.registry g home path out.graph ∧
        (out.graph.PathsNumeric → run ctx out.graph = .ok ⟨out.graph, .ok false, []⟩) := by
  rcases mergeAll_gathers hg ctx.registry with
    ⟨count, kept, home, hmerged, hgathers⟩ | ⟨⟨e, he⟩, hundeclared⟩
  · have hg' := hg.gathered home
    have ha' := (hgathers.ranked candidates_subset_ids hranked).acyclic
    obtain ⟨path, hpath⟩ := Graph.exists_paths hg' ha' ctx.registry
    obtain ⟨updated, reported, hmarked, -⟩ := markAll_of_fresh hg' ha' hpath (fresh_gathered hfresh)
    have hgood : Merged ctx.registry g home path _ := hgathers.merged hg hranked hfresh
    exact ⟨_, run_of_merged hmerged hmarked, fun _ => ⟨_, rfl⟩, fun _ _ =>
      ⟨home, path, hgood, hgood.run_idle hg' ha' hpath⟩⟩
  · refine ⟨_, run_of_refused he, fun hdeclares => absurd hdeclares hundeclared, fun changed hresult => ?_⟩
    cases hresult

/-- Two chains of equal operations that meet three times; one of the meetings is an output.  Two equal operations have
side effects. -/
def echoes : Graph where
  name := "echoes"
  nodes := [Node.plain 0 .input [] .scalar,
    Node.plain 1 (.operation .split) [0] .scalar, Node.plain 2 (.operation .split) [0] .scalar,
    Node.plain 3 (.operation .fourier) [1] .scalar, Node.plain 4 (.operation .fourier) [2] .scalar,
    Node.plain 5 (.operation .merge) [3, 4] .scalar, Node.plain 6 (.operation .merge) [4, 3] .scalar,
    Node.plain 7 (.operation .merge) [4, 4] .scalar,
    Node.plain 8 (.operation .correct) [7] .scalar, Node.plain 9 (.operation .correct) [7] .scalar]
  inputs := [0]
  outputs := [⟨"y", 6⟩]
  hints := Hints.empty
  nextId := 10

theorem run_merges_echoes : ∃ out home path, run ⟨.builtin, none⟩ echoes = .ok out ∧
    Merged .builtin echoes home path out.graph ∧ run ⟨.builtin, none⟩ out.graph =
      .ok ⟨out.graph, .ok false, []⟩ ∧
      out.graph.nodes.map (fun n => (n.id, n.inputs)) =
        [(0, []), (1, [0]), (3, [1]), (5, [3, 3]), (6, [3, 3]), (8, [5]), (9, [5])] := by
  have hranked : echoes.Ranked (fun id => id) := by
    unfold Graph.Ranked
    decide
  obtain ⟨out, hrun, hreturns, hmerges⟩ : ∃ out, run ⟨.builtin, none⟩ echoes = .ok out ∧ _ :=
    run_merges (Graph.ordered_iff.2 (by decide)) hranked (by decide +kernel)
  obtain ⟨changed, hresult⟩ := hreturns (by unfold Graph.Declares; decide)
  obtain ⟨home, path, hmerged, hagain⟩ := hmerges changed hresult
  have hdone : (run ⟨.builtin, none⟩ echoes).toOption.map
      (fun out => (out.graph.nodes.map (fun n => (n.id, n.inputs)), decide out.graph.PathsNumeric)) =
        some ([(0, []), (1, [0]), (3, [1]), (5, [3, 3]), (6, [3, 3]), (8, [5]), (9, [5])], true) := by decide +kernel
  rw [hrun] at hdone
  obtain ⟨hnodes, hnumeric⟩ := Prod.mk.inj (Option.some.inj hdone)
  exact ⟨out, home, path, hrun, hmerged, hagain (of_decide_eq_true hnumeric), hnodes⟩

end CoherencePass

end Waveflow
