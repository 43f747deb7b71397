import Waveflow.Proofs.Graph.Leading
import Waveflow.Proofs.Schedule.Levels
import Mathlib.Data.Prod.Lex

/-!
# Schedules without groups

Without hints nothing but the order of precedence decides: at every place of the schedule stands the node with the
tightest budget, and of equal ones the smallest number, among all nodes whose inputs have been scheduled
(`Greedy.Alone.step`).  The order of precedence is total on the nodes, so there is only one such schedule, and where no
budget is tighter than another it is the order of the graph (`Graph.schedule_leading`).
-/

namespace Waveflow

variable {g : Graph} {a b c : NodeId} {m n : Node}

/-! ### A total order -/

/-- Budgets are compared in a total preorder. -/
instance Budget.transCmp_compare : Std.TransCmp Budget.compare := by
  have hrank : Budget.compare = compareOn Budget.rank := by
    funext x y
    exact Budget.compare_eq x y
  rw [hrank]
  infer_instance

/-- A budget with a limit is tighter than none. -/
lemma Budget.compare_unbounded (amount : Double) : (Budget.bounded amount).compare .unbounded = .lt := rfl

/-- The place of a node in the order of precedence. -/
def Node.priority (n : Node) : ℕ ×ₗ ℕ := toLex (n.attrs.coherence.rank, n.id)

namespace Graph

lemma before_iff (h : g.Ordered) (hm : m ∈ g.nodes) (hn : n ∈ g.nodes) :
    g.Before m.id n.id ↔ m.priority < n.priority := by
  unfold Before Node.priority
  rw [Prod.Lex.toLex_lt_toLex]
  simp only [h.node?_of_mem hm, h.node?_of_mem hn, Option.some.injEq, Budget.compare_eq, Nat.compare_eq_lt,
    Nat.compare_eq_eq]
  constructor
  · rintro ⟨x, y, rfl, rfl, hlt⟩
    exact hlt
  · intro hlt
    exact ⟨m, n, rfl, rfl, hlt⟩

/-- What goes before another is a node, and so is the other. -/
lemma Before.exists_nodes (h : g.Ordered) (hab : g.Before a b) :
    ∃ m ∈ g.nodes, ∃ n ∈ g.nodes, m.id = a ∧ n.id = b := by
  obtain ⟨m, n, hm, hn, -⟩ := hab
  obtain ⟨hm, hma⟩ := (node?_eq_some_iff h).1 hm
  obtain ⟨hn, hnb⟩ := (node?_eq_some_iff h).1 hn
  exact ⟨m, hm, n, hn, hma, hnb⟩

lemma before_irrefl (h : g.Ordered) (a : NodeId) : ¬ g.Before a a := by
  intro haa
  obtain ⟨m, hm, -, -, rfl, -⟩ := haa.exists_nodes h
  exact lt_irrefl _ ((before_iff h hm hm).1 haa)

lemma before_trans (h : g.Ordered) (hab : g.Before a b) (hbc : g.Before b c) : g.Before a c := by
  obtain ⟨x, hx, y, hy, rfl, rfl⟩ := hab.exists_nodes h
  obtain ⟨-, -, z, hz, -, rfl⟩ := hbc.exists_nodes h
  exact (before_iff h hx hz).2 (((before_iff h hx hy).1 hab).trans ((before_iff h hy hz).1 hbc))

lemma before_asymm (h : g.Ordered) (a b : NodeId) (hab : g.Before a b) : ¬ g.Before b a :=
  fun hba => before_irrefl h a (before_trans h hab hba)

/-- Of two nodes one goes before the other. -/
lemma before_total (h : g.Ordered) (ha : a ∈ g.ids) (hb : b ∈ g.ids) (hne : a ≠ b) :
    g.Before a b ∨ g.Before b a := by
  obtain ⟨m, hm, rfl⟩ := mem_ids.1 ha
  obtain ⟨n, hn, rfl⟩ := mem_ids.1 hb
  rw [before_iff h hm hn, before_iff h hn hm]
  refine lt_or_gt_of_ne fun heq => hne ?_
  exact congrArg (fun x => (ofLex x).2) heq

/-- Where no budget is tighter than another, the smaller number goes before. -/
lemma before_of_lt (h : g.Ordered)
    (heven : ∀ m ∈ g.nodes, ∀ n ∈ g.nodes, m.attrs.coherence.compare n.attrs.coherence = .eq) (ha : a ∈ g.ids)
    (hb : b ∈ g.ids) (hlt : a < b) : g.Before a b := by
  obtain ⟨m, hm⟩ := h.exists_node? ha
  obtain ⟨n, hn⟩ := h.exists_node? hb
  have hsame := heven m ((node?_eq_some_iff h).1 hm).1 n ((node?_eq_some_iff h).1 hn).1
  exact ⟨m, n, hm, hn, .inr ⟨hsame, hlt⟩⟩

end Graph

/-! ### One step -/

namespace Greedy

variable {s t : Slot} {ss : List Slot} {done : List NodeId} {p p' : Progress}

/-- The place of a slot in the order of precedence. -/
def Slot.priority (s : Slot) : ℕ ×ₗ ℕ := toLex (s.budget.rank, s.id)

lemma precedes_iff_priority : precedes s t = true ↔ s.priority < t.priority := by
  unfold Slot.priority
  rw [precedes_iff, Prod.Lex.toLex_lt_toLex]

/-- No slot precedes the first one. -/
lemma priority_first?_le (hs : first? ss = some s) (ht : t ∈ ss) : s.priority ≤ t.priority := by
  induction ss generalizing s t with
  | nil => cases ht
  | cons u rest ih =>
    rw [first?] at hs
    split at hs
    · next hnone =>
      obtain rfl := Option.some.inj hs
      obtain rfl : t = u := by simpa [first?_eq_none hnone] using ht
      exact le_rfl
    · next v hv =>
      split at hs
      · next hlt =>
        obtain rfl := Option.some.inj hs
        rw [precedes_iff_priority] at hlt
        rcases List.mem_cons.1 ht with rfl | ht
        · exact hlt.le
        · exact ih hv ht
      · next hle =>
        obtain rfl := Option.some.inj hs
        rw [precedes_iff_priority, not_lt] at hle
        rcases List.mem_cons.1 ht with rfl | ht
        · exact le_rfl
        · exact hle.trans (ih hv ht)

/-- The first of the slots that are ready is the first of the nodes that can be taken. -/
lemma first_of_first? (h : g.Ordered) (hs : first? ((g.nodes.map (Slot.seen done)).filter (·.isReady)) = some s) :
    g.First (fun _ => true) g.Before done s.id := by
  have hmem := first?_mem hs
  obtain ⟨n, hn, hid, hleft, hinputs⟩ := mem_ready hmem
  refine ⟨⟨n, hn, hid, hleft, fun i hi _ => hinputs i hi⟩, fun m hm hfree hne => ?_⟩
  have hready : (Slot.seen done m).isReady = true := isReady_seen.2 ⟨hfree.1, fun i hi => hfree.2 i hi rfl⟩
  have hslot : Slot.seen done m ∈ g.nodes.map (Slot.seen done) := List.mem_map_of_mem hm
  refine before_of_precedes h (List.mem_filter.1 hmem).1 hslot (precedes_of_not_precedes (Ne.symm hne) ?_)
  rw [precedes_iff_priority, not_lt]
  exact priority_first?_le hs (List.mem_filter.2 ⟨hslot, hready⟩)

/-- Without groups a step takes the first slot that is ready. -/
lemma advance_alone (hp : p.pending = []) : advance p = match first? (p.slots.filter (·.isReady)) with
    | none => .ok none
    | some best => some <$> emit best.id none p := by
  unfold advance
  rw [hp]
  dsimp only
  cases hbest : first? (p.slots.filter (·.isReady)) with
  | none => rfl
  | some best => simp [firstGroup?, hbest]

/-- No group is to come or has been, and the numbers have been taken in the order of precedence. -/
structure Alone (g : Graph) (p : Progress) : Prop where
  pending : p.pending = []
  emitted : p.emitted = []
  steps : p.steps = p.taken.map (⟨·, none⟩)
  leading : g.Leading (fun _ => true) g.Before p.taken

lemma alone_start (hhints : g.hints.groups = []) : Alone g (start g) where
  pending := by
    unfold start
    rw [hhints]
    rfl
  emitted := rfl
  steps := rfl
  leading := Graph.leading_nil

/-- **A step takes the first of the nodes that can be taken.** -/
theorem Alone.step (h : g.Ordered) (inv : Invariant g p) (halone : Alone g p) (hstep : Advances p p') :
    Alone g p' := by
  unfold Advances at hstep
  rw [advance_alone halone.pending] at hstep
  split at hstep
  · cases hstep
  · next best hbest =>
    rw [inv.slots] at hbest
    have hfirst := first_of_first? h hbest
    obtain ⟨n, -, hid, hleft, -⟩ := hfirst.released
    obtain ⟨q, hemit, hq⟩ := Checked.map_eq_ok.1 hstep
    obtain rfl := Option.some.inj hq
    rw [emit_eq inv.slots (hid ▸ hleft)] at hemit
    obtain rfl := Except.ok.inj hemit
    have htaken : (p.steps ++ [(⟨best.id, none⟩ : Step)]).map (·.node) = p.taken ++ [best.id] := List.map_append
    refine ⟨halone.pending, halone.emitted, ?_, ?_⟩
    · show p.steps ++ [⟨best.id, none⟩] = ((p.steps ++ [(⟨best.id, none⟩ : Step)]).map (·.node)).map
          (⟨·, none⟩)
      rw [htaken, List.map_append, ← halone.steps]
      rfl
    · show g.Leading _ _ ((p.steps ++ [(⟨best.id, none⟩ : Step)]).map (·.node))
      rw [htaken]
      exact halone.leading.snoc hfirst

/-- Every schedule in the making takes the nodes in the order of precedence. -/
theorem alone_of_reaches (h : g.Ordered) (hhints : g.hints.groups = [])
    (hreach : Relation.ReflTransGen Advances (start g) p) : Alone g p := by
  have hsolid : ∀ grp ∈ g.hints.groups, Solid grp := fun grp hgrp => by simp [hhints] at hgrp
  induction hreach with
  | refl => exact alone_start hhints
  | tail hbefore hstep halone => exact halone.step h (invariant_of_reaches h hsolid hbefore) hstep

end Greedy

/-! ### The schedule -/

namespace Graph

/-- A schedule without groups takes every node once, in the order of precedence. -/
lemma exists_schedule_leading (h : g.Ordered) (hc : g.Closed) (ha : g.Acyclic) (hhints : g.hints.groups = []) :
    ∃ s, g.schedule = .ok (.ok s) ∧ s = ⟨s.order.map (⟨·, none⟩), []⟩ ∧ s.order.Perm g.ids ∧
      g.Leading (fun _ => true) g.Before s.order := by
  have hsolid : ∀ grp ∈ g.hints.groups, Greedy.Solid grp := fun grp hgrp => by simp [hhints] at hgrp
  obtain ⟨s, hs, hfits⟩ := schedule_of_acyclic h hsolid hc ha
  have hschedule := hs
  unfold schedule at hs
  dsimp only at hs
  obtain ⟨p, hrun, hs⟩ := Checked.bind_eq_ok.1 hs
  have halone := Greedy.alone_of_reaches h hhints (Greedy.reaches_run hrun)
  split at hs
  · cases hs
  obtain rfl := Except.ok.inj (Except.ok.inj hs)
  exact ⟨_, hschedule, congrArg₂ Schedule.mk halone.steps halone.emitted, hfits.once, halone.leading⟩

/-- **Without hints the schedule is the greedy one.**  Budgets are compared in a total preorder in which none comes
last, so the order of precedence is a strict total order on the nodes.  At every place of the schedule stands the
first of the nodes that can be taken there, no other order of the nodes has this property, and where no budget is
tighter than another the schedule is in the order of the graph. -/
theorem schedule_leading (h : g.Ordered) (hc : g.Closed) (ha : g.Acyclic) (hhints : g.hints.groups = []) :
    Std.TransCmp Budget.compare ∧ (∀ amount : Double, (Budget.bounded amount).compare .unbounded = .lt) ∧
    (∀ a, ¬ g.Before a a) ∧ (∀ a b c, g.Before a b → g.Before b c → g.Before a c) ∧
    (∀ a ∈ g.ids, ∀ b ∈ g.ids, a ≠ b → g.Before a b ∨ g.Before b a) ∧
    ∃ s, g.schedule = .ok (.ok s) ∧ s = ⟨s.order.map (⟨·, none⟩), []⟩ ∧ s.order.Perm g.ids ∧
      g.Leading (fun _ => true) g.Before s.order ∧
      (∀ other, other.Perm g.ids → g.Leading (fun _ => true) g.Before other → other = s.order) ∧
      ((∀ m ∈ g.nodes, ∀ n ∈ g.nodes, m.attrs.coherence.compare n.attrs.coherence = .eq) →
        g.order = .ok (.ok s.order)) := by
  obtain ⟨s, hschedule, hsteps, hperm, hlead⟩ := exists_schedule_leading h hc ha hhints
  have hunique : ∀ other, other.Perm g.ids → g.Leading (fun _ => true) g.Before other → other = s.order :=
    fun other hother hlead' => hlead'.unique hlead (before_asymm h) (hother.trans hperm.symm).length_eq
  refine ⟨inferInstance, Budget.compare_unbounded, before_irrefl h, fun _ _ _ => before_trans h,
    fun a ha b hb => before_total h ha hb, s, hschedule, hsteps, hperm, hlead, hunique, fun heven => ?_⟩
  obtain ⟨sorted, hsorted, -, hids⟩ := order_of_acyclic h ha
  have hsmallest := (order_leading h hsorted).of_closed h hc
  rw [hsorted, hunique sorted hids (hsmallest.congr fun a ha b hb => before_of_lt h heven ha hb)]

/-- Three operations on one input of a larger number; the second and the third have the same tight budget. -/
def rapids : Graph where
  name := "rapids"
  nodes := [Node.plain 0 (.operation .split) [2] .scalar,
    { Node.plain 1 (.operation .split) [2] .scalar with attrs := { Attributes.plain with coherence := .bounded 1.0 } },
    Node.plain 2 .input [] .scalar,
    { Node.plain 3 (.operation .merge) [2, 2] .scalar with
      attrs := { Attributes.plain with coherence := .bounded 1.0 } }]
  inputs := [2]
  outputs := []
  hints := Hints.empty
  nextId := 4

/-- The graph with no budgets at all. -/
def stillWater : Graph := { rapids with nodes := rapids.nodes.map fun n => { n with attrs := Attributes.plain } }

theorem schedule_leading_rapids :
    (∃ s, rapids.schedule = .ok (.ok s) ∧ s.order = [2, 1, 3, 0] ∧
      rapids.Leading (fun _ => true) rapids.Before s.order) ∧
    ∃ s, stillWater.schedule = .ok (.ok s) ∧ stillWater.order = .ok (.ok s.order) := by
  have hranked : rapids.Ranked (fun id => if id = 2 then 0 else 1) := by
    unfold Ranked
    decide
  have hranked' : stillWater.Ranked (fun id => if id = 2 then 0 else 1) := by
    unfold Ranked
    decide
  obtain ⟨-, -, -, -, -, s, hschedule, -, -, hlead, -⟩ :=
    schedule_leading (ordered_iff.2 (by decide)) (by unfold Closed; decide) hranked.acyclic (by rfl)
  obtain ⟨-, -, -, -, -, s', hschedule', -, -, -, -, hsame⟩ :=
    schedule_leading (ordered_iff.2 (by decide)) (by unfold Closed; decide) hranked'.acyclic (by rfl)
  have horder : (rapids.schedule.map (·.map Schedule.order)) = .ok (.ok [2, 1, 3, 0]) := by rfl
  rw [hschedule] at horder
  exact ⟨⟨s, hschedule, Except.ok.inj (Except.ok.inj horder), hlead⟩, s', hschedule', hsame (by decide)⟩

end Graph

end Waveflow
