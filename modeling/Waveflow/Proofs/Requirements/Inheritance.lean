import Waveflow.Proofs.Decimal.Whole
import Waveflow.Proofs.Requirements

/-!
# Requirements along the edges

`Correction.rank` is the strength of a requirement without a limit.  Inheritance goes once through the nodes, each
after its inputs; what it has given to a node is never touched again, so one sweep already solves the equations
that `Inherits` states: an explicit requirement stays, any other node takes the strongest fault-tolerant
requirement among its inputs if that is above its own.

What remains to be refused are therefore edges into nodes with an explicit requirement.  Where nothing is refused
and no default is fault-tolerant at level zero, strength never falls along a chain of edges that leaves a
fault-tolerant node: above the strength of basic protection there are only fault-tolerant requirements.
-/

namespace Waveflow

variable {c : Correction} {g : Graph} {n : Node} {id : NodeId}

/-! ### Strength -/

/-- The strength of a requirement, however large. -/
def Correction.rank : Correction → Nat
  | .none => 0
  | .basic _ => 1
  | .faultTolerant level _ => 1 + level

lemma Correction.strength_eq (h : c.rank < wordLimit) : c.strength = .ok c.rank := by
  cases c with
  | none | basic _ => rfl
  | faultTolerant level _ => exact addWord_eq_ok h

lemma Correction.isFaultTolerant_of_rank (h : 1 < c.rank) : c.isFaultTolerant = true := by
  cases c with
  | none | basic _ => simp [rank] at h
  | faultTolerant _ _ => rfl

/-- The node says itself which protection it asks for. -/
def Node.isExplicit (n : Node) : Bool := n.params.contains "correction"

/-- The nodes have other requirements. -/
def Graph.withCorrections (g : Graph) (final : NodeId → Correction) : Graph :=
  { g with nodes := g.nodes.map fun n => { n with attrs := { n.attrs with correction := final n.id } } }

namespace Graph

lemma reattributed_withCorrections (g : Graph) (final : NodeId → Correction) :
    g.Reattributed (g.withCorrections final) :=
  ⟨fun n => { n.attrs with correction := final n.id }, rfl⟩

lemma node?_withCorrections (hg : g.Ordered) (final : NodeId → Correction) (id : NodeId) :
    (g.withCorrections final).node? id =
      (g.node? id).map fun n => { n with attrs := { n.attrs with correction := final n.id } } := by
  have hg' := (g.reattributed_withCorrections final).ordered hg
  cases hnode : g.node? id with
  | none =>
    rw [Option.map_none, node?_eq_none_iff hg', (g.reattributed_withCorrections final).ids_eq]
    exact (node?_eq_none_iff hg).1 hnode
  | some n =>
    obtain ⟨hn, rfl⟩ := (node?_eq_some_iff hg).1 hnode
    exact (node?_eq_some_iff hg').2 ⟨List.mem_map_of_mem hn, rfl⟩

/-- Giving one node another requirement. -/
lemma modify_withCorrections (hg : g.Ordered) (final : NodeId → Correction) (id : NodeId) (c : Correction) :
    (g.withCorrections final).modify id (fun n => { n with attrs := { n.attrs with correction := c } }) =
      g.withCorrections (Function.update final id c) := by
  rw [modify_eq ((g.reattributed_withCorrections final).ordered hg)]
  unfold withCorrections
  dsimp only
  rw [List.map_map]
  congr 1
  refine List.map_congr_left fun n _ => ?_
  by_cases hid : n.id = id
  · simp [hid]
  · simp [hid]

end Graph

namespace Requirements

/-! ### What a node inherits -/

/-- The requirements that nodes end with, seen from one node that had one of its own: an explicit one stays; any
other gives way to a stronger fault-tolerant one of an input, and then it is one of the strongest of these. -/
structure Inherits (final : NodeId → Correction) (own : Correction) (n : Node) : Prop where
  explicit : n.isExplicit = true → final n.id = own
  keeps : n.isExplicit = false →
    (∀ i ∈ n.inputs, (final i).isFaultTolerant = true → (final i).rank ≤ own.rank) → final n.id = own
  inherits : n.isExplicit = false →
    (∃ i ∈ n.inputs, (final i).isFaultTolerant = true ∧ own.rank < (final i).rank) →
    ∃ i ∈ n.inputs, final n.id = final i ∧ (final i).isFaultTolerant = true ∧
      ∀ j ∈ n.inputs, (final j).isFaultTolerant = true → (final j).rank ≤ (final i).rank

lemma Inherits.congr {final final' : NodeId → Correction} {own : Correction} (h : Inherits final own n)
    (hself : final' n.id = final n.id) (hinputs : ∀ i ∈ n.inputs, final' i = final i) : Inherits final' own n where
  explicit := fun he => hself.trans (h.explicit he)
  keeps := fun he hall => hself.trans (h.keeps he fun i hi => hinputs i hi ▸ hall i hi)
  inherits := by
    rintro he ⟨i, hi, hft, hlt⟩
    rw [hinputs i hi] at hft hlt
    obtain ⟨j, hj, heq, hftj, hmax⟩ := h.inherits he ⟨i, hi, hft, hlt⟩
    refine ⟨j, hj, ?_, ?_, fun k hk => ?_⟩
    · rw [hself, hinputs j hj, heq]
    · rwa [hinputs j hj]
    · rw [hinputs j hj, hinputs k hk]
      exact hmax k hk

/-- A node that has inherited is not weaker than a fault-tolerant input. -/
lemma Inherits.rank_le {final : NodeId → Correction} {own : Correction} (h : Inherits final own n)
    (hexplicit : n.isExplicit = false) {i : NodeId} (hi : i ∈ n.inputs) (hft : (final i).isFaultTolerant = true) :
    (final i).rank ≤ (final n.id).rank := by
  by_cases habove : ∃ j ∈ n.inputs, (final j).isFaultTolerant = true ∧ own.rank < (final j).rank
  · obtain ⟨j, -, heq, -, hmax⟩ := h.inherits hexplicit habove
    rw [heq]
    exact hmax i hi hft
  · push Not at habove
    rw [h.keeps hexplicit habove]
    exact habove i hi hft

/-- The strongest of some requirements is one of them. -/
lemma strongest_eq {cs : List Correction} (h : ∀ c ∈ cs, c.rank < wordLimit) :
    cs = [] ∧ strongest cs = .ok none ∨
      ∃ c ∈ cs, strongest cs = .ok (some (c, c.rank)) ∧ ∀ d ∈ cs, d.rank ≤ c.rank := by
  induction cs with
  | nil => exact .inl ⟨rfl, rfl⟩
  | cons c rest ih =>
    right
    have hc := Correction.strength_eq (h c (List.mem_cons_self ..))
    unfold strongest
    rw [hc, Checked.ok_bind]
    rcases ih fun d hd => h d (List.mem_cons_of_mem _ hd) with ⟨rfl, hrest⟩ | ⟨d, hd, hrest, hmax⟩
    · rw [hrest]
      exact ⟨c, List.mem_cons_self .., rfl, fun d hd => by rw [List.mem_singleton.1 hd]⟩
    · rw [hrest, Checked.ok_bind]
      by_cases hlt : d.rank < c.rank
      · refine ⟨c, List.mem_cons_self .., by simp [hlt], fun e he => ?_⟩
        rcases List.mem_cons.1 he with rfl | he
        · exact Nat.le_refl _
        · exact Nat.le_trans (hmax e he) (Nat.le_of_lt hlt)
      · refine ⟨d, List.mem_cons_of_mem _ hd, by simp [hlt], fun e he => ?_⟩
        rcases List.mem_cons.1 he with rfl | he
        · exact Nat.le_of_not_lt hlt
        · exact hmax e he

/-- The fault-tolerant requirements of the inputs of a node. -/
lemma mem_above {b : Graph} (hb : b.WellFormed) (hn : n ∈ b.nodes) (final : NodeId → Correction) :
    c ∈ ((n.inputs.filterMap (b.withCorrections final).node?).map (·.attrs.correction)).filter
        Correction.isFaultTolerant ↔
      ∃ i ∈ n.inputs, final i = c ∧ c.isFaultTolerant = true := by
  rw [List.mem_filter, List.mem_map]
  constructor
  · rintro ⟨⟨m, hm, rfl⟩, hft⟩
    obtain ⟨i, hi, hnode⟩ := List.mem_filterMap.1 hm
    rw [Graph.node?_withCorrections hb.ordered] at hnode
    obtain ⟨x, hx, rfl⟩ := Option.map_eq_some_iff.1 hnode
    obtain ⟨-, rfl⟩ := (Graph.node?_eq_some_iff hb.ordered).1 hx
    exact ⟨_, hi, rfl, hft⟩
  · rintro ⟨i, hi, rfl, hft⟩
    obtain ⟨x, hx, rfl⟩ := Graph.mem_ids.1 (hb.closed n hn i hi)
    have hnode : (b.withCorrections final).node? x.id =
        some { x with attrs := { x.attrs with correction := final x.id } } := by
      rw [Graph.node?_withCorrections hb.ordered, hb.ordered.node?_of_mem hx, Option.map_some]
    exact ⟨⟨_, List.mem_filterMap.2 ⟨x.id, hi, hnode⟩, rfl⟩, hft⟩

variable {b : Graph} {final : NodeId → Correction} {done : List NodeId}

/-- One node looks at its inputs: what it gets solves its equation. -/
lemma inherited_eq (hb : b.WellFormed) (hn : n ∈ b.nodes) (hbound : ∀ m ∈ b.nodes, (final m.id).rank < wordLimit)
    (hself : n.id ∉ n.inputs) (hexplicit : n.isExplicit = false) :
    ∃ c, inherited (b.withCorrections final) { n with attrs := { n.attrs with correction := final n.id } } = .ok c ∧
      (∃ m ∈ b.nodes, c = final m.id) ∧ Inherits (Function.update final n.id c) (final n.id) n := by
  have habove := fun c => mem_above (c := c) hb hn final
  have hinput : ∀ i ∈ n.inputs, ∃ m ∈ b.nodes, final i = final m.id := by
    intro i hi
    obtain ⟨m, hm, rfl⟩ := Graph.mem_ids.1 (hb.closed n hn i hi)
    exact ⟨m, hm, rfl⟩
  -- the new requirement of the node changes none of its inputs
  have hupdate : ∀ c, ∀ i ∈ n.inputs, Function.update final n.id c i = final i := by
    intro c i hi
    exact Function.update_of_ne (fun e : i = n.id => hself (e ▸ hi)) ..
  have hsolves :
      ∀ c, (∀ i ∈ n.inputs, (final i).isFaultTolerant = true → (final i).rank ≤ (final n.id).rank) ∧
        c = final n.id ∨
      (∃ i ∈ n.inputs, c = final i ∧ (final i).isFaultTolerant = true ∧ (final n.id).rank < (final i).rank ∧
        ∀ j ∈ n.inputs, (final j).isFaultTolerant = true → (final j).rank ≤ (final i).rank) →
      Inherits (Function.update final n.id c) (final n.id) n := by
    intro c hc
    refine ⟨fun he => absurd (he.symm.trans hexplicit) (by decide), fun _ hle => ?_, fun _ hlt => ?_⟩
    · rw [Function.update_self]
      rcases hc with ⟨-, rfl⟩ | ⟨i, hi, rfl, hft, hlt, -⟩
      · rfl
      · have hle := hle i hi (by rwa [hupdate _ i hi])
        rw [hupdate _ i hi] at hle
        exact absurd hlt (Nat.not_lt.2 hle)
    · obtain ⟨j, hj, hftj, hltj⟩ := hlt
      rw [hupdate c j hj] at hftj hltj
      rcases hc with ⟨hle, -⟩ | ⟨i, hi, rfl, hft, hlt, hmax⟩
      · exact absurd hltj (Nat.not_lt.2 (hle j hj hftj))
      · refine ⟨i, hi, ?_, ?_, fun k hk => ?_⟩
        · rw [Function.update_self, hupdate _ i hi]
        · rwa [hupdate _ i hi]
        · rw [hupdate _ i hi, hupdate _ k hk]
          exact hmax k hk
  have hlimit : ∀ c ∈ ((n.inputs.filterMap (b.withCorrections final).node?).map (·.attrs.correction)).filter
      Correction.isFaultTolerant, c.rank < wordLimit := by
    intro c hc
    obtain ⟨i, hi, rfl, -⟩ := (habove c).1 hc
    obtain ⟨m, hm, heq⟩ := hinput i hi
    exact heq ▸ hbound m hm
  unfold inherited
  dsimp only
  rcases strongest_eq hlimit with ⟨hnil, hnone⟩ | ⟨c, hc, hsome, hmax⟩
  · rw [hnone]
    refine ⟨final n.id, rfl, ⟨n, hn, rfl⟩, hsolves _ (.inl ⟨fun i hi hft => ?_, rfl⟩)⟩
    have hmem := (habove (final i)).2 ⟨i, hi, rfl, hft⟩
    rw [hnil] at hmem
    exact absurd hmem List.not_mem_nil
  · obtain ⟨i, hi, rfl, hft⟩ := (habove c).1 hc
    have hmax' : ∀ j ∈ n.inputs, (final j).isFaultTolerant = true → (final j).rank ≤ (final i).rank :=
      fun j hj hftj => hmax _ ((habove _).2 ⟨j, hj, rfl, hftj⟩)
    rw [hsome, Checked.ok_bind]
    dsimp only
    rw [Correction.strength_eq (hbound n hn), Checked.ok_bind]
    by_cases hlt : (final n.id).rank < (final i).rank
    · rw [if_pos hlt]
      exact ⟨final i, rfl, hinput i hi, hsolves _ (.inr ⟨i, hi, rfl, hft, hlt, hmax'⟩)⟩
    · rw [if_neg hlt]
      refine ⟨final n.id, rfl, ⟨n, hn, rfl⟩, hsolves _ (.inl ⟨fun j hj hftj => ?_, rfl⟩)⟩
      exact Nat.le_trans (hmax' j hj hftj) (Nat.le_of_not_lt hlt)

/-! ### The sweep -/

/-- Some nodes have looked at their inputs, and the others still have the requirements of their own. -/
structure Swept (b : Graph) (done : List NodeId) (final : NodeId → Correction) : Prop where
  origin : ∀ n ∈ b.nodes, ∃ m ∈ b.nodes, final n.id = m.attrs.correction
  waiting : ∀ n ∈ b.nodes, n.id ∉ done → final n.id = n.attrs.correction
  settled : ∀ n ∈ b.nodes, n.id ∈ done → Inherits final n.attrs.correction n

/-- One more node has looked at its inputs; those before do not see it. -/
lemma Swept.step (h : Swept b done final) (hb : b.WellFormed) (hn : n ∈ b.nodes) (hnew : n.id ∉ done)
    (hbefore : ∀ m ∈ b.nodes, m.id ∈ done → ∀ i ∈ m.inputs, i ∈ done)
    (hc : ∃ m ∈ b.nodes, c = final m.id)
    (hinherits : Inherits (Function.update final n.id c) n.attrs.correction n) :
    Swept b (done ++ [n.id]) (Function.update final n.id c) := by
  have hother : ∀ id, id ≠ n.id → Function.update final n.id c id = final id :=
    fun id hne => Function.update_of_ne hne ..
  refine ⟨fun m hm => ?_, fun m hm hleft => ?_, fun m hm hmem => ?_⟩
  · by_cases hid : m.id = n.id
    · obtain ⟨x, hx, rfl⟩ := hc
      rw [hid, Function.update_self]
      exact h.origin x hx
    · rw [hother _ hid]
      exact h.origin m hm
  · rw [List.mem_append, List.mem_singleton, not_or] at hleft
    rw [hother _ hleft.2]
    exact h.waiting m hm hleft.1
  · rcases List.mem_append.1 hmem with hmem | hmem
    · refine (h.settled m hm hmem).congr (hother _ fun e => hnew (e ▸ hmem)) fun i hi => ?_
      exact hother _ fun e => hnew (e ▸ hbefore m hm hmem i hi)
    · obtain rfl := hb.ordered.eq_of_id_eq hm hn (List.mem_singleton.1 hmem)
      exact hinherits

/-- **The sweep solves the equations of all nodes that it goes through.** -/
theorem inheritAlong_eq (hb : b.WellFormed) (hbound : ∀ n ∈ b.nodes, n.attrs.correction.rank < wordLimit)
    {rest : List NodeId} (hcourse : b.Course b.contains (done ++ rest)) (h : Swept b done final) :
    ∃ final', inheritAlong (b.withCorrections final) rest = .ok (b.withCorrections final') ∧
      Swept b (done ++ rest) final' := by
  induction rest generalizing done final with
  | nil => exact ⟨final, rfl, by rwa [List.append_nil]⟩
  | cons id rest ih =>
    have hcounts : ∀ m ∈ b.nodes, ∀ i ∈ m.inputs, b.contains i = true :=
      fun m hm i hi => (Graph.contains_iff hb.ordered).2 (hb.closed m hm i hi)
    obtain ⟨n, hn, rfl⟩ := Graph.mem_ids.1 (hcourse.subset_ids (List.mem_append_right _ (List.mem_cons_self ..)))
    obtain ⟨hnew, hready⟩ := hcourse.next_of_append hb.ordered hn
    have hbefore : ∀ m ∈ b.nodes, m.id ∈ done → ∀ i ∈ m.inputs, i ∈ done :=
      fun m hm hmem i hi => hcourse.mem_of_mem_append hb.ordered hm hmem hi (hcounts m hm i hi)
    have hself : n.id ∉ n.inputs := fun hi => hnew (hready _ hi (hcounts n hn _ hi))
    have hown := h.waiting n hn hnew
    have hcourse' : b.Course b.contains ((done ++ [n.id]) ++ rest) := by
      rwa [List.append_assoc, List.singleton_append]
    rw [← List.singleton_append, ← List.append_assoc, List.singleton_append]
    unfold inheritAlong
    rw [Graph.node?_withCorrections hb.ordered, hb.ordered.node?_of_mem hn, Option.map_some]
    dsimp only
    cases hexplicit : n.params.contains "correction" with
    | true =>
      rw [if_pos rfl]
      refine ih hcourse' ?_
      have hstays : Function.update final n.id (final n.id) = final := Function.update_eq_self ..
      have hstep := h.step (c := final n.id) hb hn hnew hbefore ⟨n, hn, rfl⟩ ?_
      · rwa [hstays] at hstep
      · rw [hstays]
        refine ⟨fun _ => hown, fun he => ?_, fun he => ?_⟩
        · exact absurd (hexplicit.symm.trans he) (by decide)
        · exact absurd (hexplicit.symm.trans he) (by decide)
    | false =>
      rw [if_neg Bool.false_ne_true]
      have hlimit : ∀ m ∈ b.nodes, (final m.id).rank < wordLimit := by
        intro m hm
        obtain ⟨x, hx, heq⟩ := h.origin m hm
        exact heq ▸ hbound x hx
      obtain ⟨c, hc, horigin, hinherits⟩ := inherited_eq hb hn hlimit hself hexplicit
      rw [hc, Checked.ok_bind, Graph.modify_withCorrections hb.ordered]
      rw [hown] at hinherits
      exact ih hcourse' (h.step hb hn hnew hbefore horigin hinherits)

/-- **Inheritance solves the equations of all nodes**, and no requirement comes from anywhere else. -/
theorem inherit_eq (hb : b.WellFormed) (ha : b.Acyclic)
    (hbound : ∀ n ∈ b.nodes, n.attrs.correction.rank < wordLimit) :
    ∃ final, inherit b = .ok (b.withCorrections final) ∧
      (∀ n ∈ b.nodes, ∃ m ∈ b.nodes, final n.id = m.attrs.correction) ∧
      ∀ n ∈ b.nodes, Inherits final n.attrs.correction n := by
  obtain ⟨order, horder, hcourse, hperm⟩ := Graph.order_of_acyclic hb.ordered ha
  -- every node starts with the requirement of its own
  let own (id : NodeId) : Correction := ((b.node? id).map (·.attrs.correction)).getD .none
  have hown : ∀ n ∈ b.nodes, own n.id = n.attrs.correction := by
    intro n hn
    show ((b.node? n.id).map _).getD _ = _
    rw [hb.ordered.node?_of_mem hn]
    rfl
  have hstart : b.withCorrections own = b := by
    unfold Graph.withCorrections
    have hnodes : b.nodes.map (fun n => { n with attrs := { n.attrs with correction := own n.id } }) = b.nodes := by
      conv_rhs => rw [← List.map_id b.nodes]
      refine List.map_congr_left fun n hn => ?_
      rw [hown n hn]
      rfl
    rw [hnodes]
  have hswept : Swept b [] own :=
    ⟨fun n hn => ⟨n, hn, hown n hn⟩, fun n hn _ => hown n hn, fun _ _ hmem => absurd hmem List.not_mem_nil⟩
  have hcourse' : b.Course b.contains ([] ++ order) := hcourse
  obtain ⟨final, hrun, hfinal⟩ := inheritAlong_eq hb hbound hcourse' hswept
  rw [hstart] at hrun
  refine ⟨final, ?_, hfinal.origin, fun n hn => hfinal.settled n hn (hperm.mem_iff.2 (Graph.id_mem_ids hn))⟩
  unfold inherit
  rw [horder, Checked.ok_bind]
  exact hrun

end Requirements

end Waveflow
