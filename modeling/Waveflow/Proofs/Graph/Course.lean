import Waveflow.Proofs.Graph.Lookup
import Mathlib.Data.Fintype.Card
import Mathlib.Data.Fintype.EquivFin
import Mathlib.Data.Fintype.Sets
import Mathlib.Logic.Function.Basic
import Mathlib.Logic.Relation
import Mathlib.Order.WellFounded

/-!
# Chains of edges and courses

`Feeds` is the edge relation of a graph, `Acyclic` says that no chain of edges closes.  A `Course`
takes numbers one after the other, each when the edges into it that count come from numbers taken
before; it is `Stuck` when no number is left that could be taken.

Main statement: a course that is stuck has taken exactly the numbers above which there is neither a
cycle nor a missing node (`Course.mem_iff`).  Orders and schedules are both courses.
-/

namespace Waveflow.Graph

open Relation (TransGen ReflTransGen)

variable {g : Graph} {counts : NodeId → Bool} {done : List NodeId} {a b i id : NodeId} {n : Node}

/-! ### Edges -/

/-- An edge leads from `a` into the node `b`. -/
def Feeds (g : Graph) (a b : NodeId) : Prop := ∃ n ∈ g.nodes, n.id = b ∧ a ∈ n.inputs

/-- No chain of edges leads from a node back to itself. -/
def Acyclic (g : Graph) : Prop := ∀ id, ¬ TransGen g.Feeds id id

/-- Every edge comes from a node that is there. -/
def Closed (g : Graph) : Prop := ∀ n ∈ g.nodes, ∀ i ∈ n.inputs, i ∈ g.ids

/-- The measure grows along every edge. -/
def Ranked (g : Graph) (rank : NodeId → Nat) : Prop := ∀ n ∈ g.nodes, ∀ i ∈ n.inputs, rank i < rank n.id

theorem dangling_eq_nil_iff (h : g.Ordered) : g.dangling = [] ↔ g.Closed := by
  unfold dangling Closed
  rw [List.flatMap_eq_nil_iff]
  refine forall₂_congr fun n _ => ?_
  rw [List.map_eq_nil_iff, List.filter_eq_nil_iff]
  refine forall₂_congr fun i _ => ?_
  rw [← contains_iff h]
  simp

lemma Feeds.mem_ids (h : g.Feeds a b) : b ∈ g.ids := by
  obtain ⟨n, hn, rfl, -⟩ := h
  exact id_mem_ids hn

lemma transGen_mem_ids (h : TransGen g.Feeds a b) : b ∈ g.ids := by
  cases h with
  | single h => exact h.mem_ids
  | tail _ h => exact h.mem_ids

lemma Ranked.lt_of_transGen {rank : NodeId → Nat} (h : g.Ranked rank) (hab : TransGen g.Feeds a b) :
    rank a < rank b := by
  induction hab with
  | single hab =>
    obtain ⟨n, hn, rfl, hi⟩ := hab
    exact h n hn _ hi
  | tail _ hbc ih =>
    obtain ⟨n, hn, rfl, hi⟩ := hbc
    exact lt_trans ih (h n hn _ hi)

/-- A measure that grows along the edges leaves no room for a cycle. -/
theorem Ranked.acyclic {rank : NodeId → Nat} (h : g.Ranked rank) : g.Acyclic :=
  fun _ hcycle => lt_irrefl _ (h.lt_of_transGen hcycle)

/-- If every member of a finite set has a predecessor in the set, the set holds a cycle. -/
lemma exists_cycle {R : NodeId → NodeId → Prop} {s : List NodeId} (ha : a ∈ s)
    (h : ∀ u ∈ s, ∃ w ∈ s, R w u) : ∃ u ∈ s, TransGen R u u := by
  by_contra hnone
  push Not at hnone
  let above (x y : { u // u ∈ s }) : Prop := TransGen R x.1 y.1
  have : IsTrans _ above := ⟨fun _ _ _ hxy hyz => TransGen.trans hxy hyz⟩
  have : Std.Irrefl above := ⟨fun x => hnone x.1 x.2⟩
  have hwf : WellFounded above := Finite.wellFounded_of_trans_of_irrefl above
  obtain ⟨m, -, hmin⟩ := hwf.has_min Set.univ ⟨⟨a, ha⟩, trivial⟩
  obtain ⟨w, hw, hwm⟩ := h m.1 m.2
  exact hmin ⟨w, hw⟩ trivial (TransGen.single hwm)

/-! ### Courses -/

/-- Numbers taken one after the other, each after the numbers that it waits for. -/
inductive Course (g : Graph) (counts : NodeId → Bool) : List NodeId → Prop
  | start : Course g counts []
  | take {done : List NodeId} {n : Node} : Course g counts done → n ∈ g.nodes → n.id ∉ done →
      (∀ i ∈ n.inputs, counts i = true → i ∈ done) → Course g counts (done ++ [n.id])

/-- Every number that is left waits for another one. -/
def Stuck (g : Graph) (counts : NodeId → Bool) (done : List NodeId) : Prop :=
  ∀ n ∈ g.nodes, n.id ∉ done → ∃ i ∈ n.inputs, counts i = true ∧ i ∉ done

/-- The edges that count. -/
def Awaits (g : Graph) (counts : NodeId → Bool) (a b : NodeId) : Prop := g.Feeds a b ∧ counts a = true

lemma Awaits.transGen_feeds (h : TransGen (g.Awaits counts) a b) : TransGen g.Feeds a b := by
  induction h with
  | single h => exact .single h.1
  | tail _ h ih => exact ih.tail h.1

namespace Course

lemma nodup (c : g.Course counts done) : done.Nodup := by
  induction c with
  | start => exact List.nodup_nil
  | take _ _ hnew _ ih =>
    rw [List.nodup_append]
    refine ⟨ih, List.nodup_singleton _, ?_⟩
    intro x hx y hy
    rw [List.mem_singleton.1 hy]
    exact fun e => hnew (e ▸ hx)

lemma subset_ids (c : g.Course counts done) : done ⊆ g.ids := by
  induction c with
  | start => simp
  | take _ hn _ _ ih =>
    intro x hx
    rcases List.mem_append.1 hx with hx | hx
    · exact ih hx
    · rw [List.mem_singleton.1 hx]
      exact id_mem_ids hn

lemma length_le (c : g.Course counts done) : done.length ≤ g.nodes.length := by
  have hsub := (List.subperm_of_subset c.nodup c.subset_ids).length_le
  unfold ids at hsub
  rwa [List.length_map] at hsub

/-- Numbers that are all ready can be taken in any order. -/
lemma append (c : g.Course counts done) {more : List NodeId} (hnodup : more.Nodup)
    (hready : ∀ id ∈ more, ∃ n ∈ g.nodes, n.id = id ∧ n.id ∉ done ∧
      ∀ i ∈ n.inputs, counts i = true → i ∈ done) : g.Course counts (done ++ more) := by
  induction more generalizing done with
  | nil => rwa [List.append_nil]
  | cons id more ih =>
    obtain ⟨hnot, hrest⟩ := List.nodup_cons.1 hnodup
    obtain ⟨n, hn, rfl, hleft, hin⟩ := hready id (List.mem_cons_self ..)
    have hall := ih (c.take hn hleft hin) hrest fun id hid => by
      obtain ⟨m, hm, rfl, hleft', hin'⟩ := hready id (List.mem_cons_of_mem _ hid)
      refine ⟨m, hm, rfl, ?_, fun i hi hc => List.mem_append_left _ (hin' i hi hc)⟩
      rw [List.mem_append, List.mem_singleton, not_or]
      exact ⟨hleft', fun e => hnot (e ▸ hid)⟩
    rwa [List.append_assoc, List.singleton_append] at hall

/-- A course as long as the graph has taken every number. -/
lemma perm_of_length (c : g.Course counts done) (h : g.nodes.length ≤ done.length) : done.Perm g.ids := by
  refine (List.subperm_of_subset c.nodup c.subset_ids).perm_of_length_le ?_
  unfold ids
  rwa [List.length_map]

/-- What a number waits for has been taken before it. -/
theorem idxOf_lt (h : g.Ordered) (c : g.Course counts done) (hn : n ∈ g.nodes) (hmem : n.id ∈ done)
    (hi : i ∈ n.inputs) (hc : counts i = true) : i ∈ done ∧ done.idxOf i < done.idxOf n.id := by
  induction c with
  | start => simp at hmem
  | @take done m c hm hnew hready ih =>
    by_cases hold : n.id ∈ done
    · obtain ⟨hin, hlt⟩ := ih hold
      rw [List.idxOf_append_of_mem hin, List.idxOf_append_of_mem hold]
      exact ⟨List.mem_append_left _ hin, hlt⟩
    · have hid : n.id = m.id := by simpa [hold] using hmem
      obtain rfl := h.eq_of_id_eq hn hm hid
      have hin := hready i hi hc
      rw [List.idxOf_append_of_mem hin, List.idxOf_append_of_notMem hold]
      have hlt := List.idxOf_lt_length_of_mem hin
      exact ⟨List.mem_append_left _ hin, by omega⟩

/-- What a number waits for is among the first of a course as soon as the number is. -/
lemma mem_of_mem_append (h : g.Ordered) {rest : List NodeId} (c : g.Course counts (done ++ rest)) (hn : n ∈ g.nodes)
    (hmem : n.id ∈ done) (hi : i ∈ n.inputs) (hc : counts i = true) : i ∈ done := by
  obtain ⟨-, hlt⟩ := c.idxOf_lt h hn (List.mem_append_left _ hmem) hi hc
  by_contra hnot
  rw [List.idxOf_append_of_notMem hnot, List.idxOf_append_of_mem hmem] at hlt
  have hplace := List.idxOf_lt_length_of_mem hmem
  omega

/-- The number that comes next waits only for numbers before it, and is not one of them. -/
lemma next_of_append (h : g.Ordered) {rest : List NodeId} (c : g.Course counts (done ++ n.id :: rest))
    (hn : n ∈ g.nodes) :
    n.id ∉ done ∧ ∀ i ∈ n.inputs, counts i = true → i ∈ done := by
  have hnew : n.id ∉ done := by
    have hnodup := c.nodup
    rw [List.nodup_append] at hnodup
    exact fun hmem => hnodup.2.2 n.id hmem n.id (List.mem_cons_self ..) rfl
  refine ⟨hnew, fun i hi hc => ?_⟩
  obtain ⟨-, hlt⟩ := c.idxOf_lt h hn (List.mem_append_right _ (List.mem_cons_self ..)) hi hc
  by_contra hnot
  rw [List.idxOf_append_of_notMem hnot, List.idxOf_append_of_notMem hnew, List.idxOf_cons_self] at hlt
  omega

/-- A chain of awaited edges that ends in a course lies in it, and its places ascend. -/
lemma idxOf_lt_of_transGen (h : g.Ordered) (c : g.Course counts done)
    (hab : TransGen (g.Awaits counts) a b) (hb : b ∈ done) : a ∈ done ∧ done.idxOf a < done.idxOf b := by
  induction hab using TransGen.head_induction_on with
  | single hab =>
    obtain ⟨⟨n, hn, rfl, hi⟩, hc⟩ := hab
    exact c.idxOf_lt h hn hb hi hc
  | head hac _ ih =>
    obtain ⟨hcmem, hlt⟩ := ih
    obtain ⟨⟨n, hn, rfl, hi⟩, hc⟩ := hac
    obtain ⟨hin, hlt'⟩ := c.idxOf_lt h hn hcmem hi hc
    exact ⟨hin, lt_trans hlt' hlt⟩

/-- Above a number that has been taken there is no cycle and no missing node. -/
lemma sound (h : g.Ordered) (c : g.Course counts done) (hid : id ∈ done) {u : NodeId}
    (hu : ReflTransGen (g.Awaits counts) u id) : u ∈ g.ids ∧ ¬ TransGen (g.Awaits counts) u u := by
  have hmem : u ∈ done := by
    rcases Relation.reflTransGen_iff_eq_or_transGen.1 hu with rfl | hu
    · exact hid
    · exact (c.idxOf_lt_of_transGen h hu hid).1
  refine ⟨c.subset_ids hmem, fun hcycle => ?_⟩
  exact lt_irrefl _ (c.idxOf_lt_of_transGen h hcycle hmem).2

/-- Equations for the numbers of a course can be solved one after the other, if each speaks only of numbers that its own
waits for. -/
lemma exists_valuation {V : Type*} (h : g.Ordered) (c : g.Course counts done) {value : Node → (NodeId → V) → V}
    (hvalue : ∀ n ∈ g.nodes, ∀ v w : NodeId → V, (∀ i ∈ n.inputs, counts i = true → v i = w i) →
      value n v = value n w)
    (start : NodeId → V) : ∃ val : NodeId → V, ∀ n ∈ g.nodes, n.id ∈ done → val n.id = value n val := by
  induction c with
  | start => exact ⟨start, fun _ _ hmem => absurd hmem List.not_mem_nil⟩
  | @take done m c hm hnew hready ih =>
    obtain ⟨val, hval⟩ := ih
    let val' := Function.update val m.id (value m val)
    -- a number that has been taken does not use the new one
    have hsame : ∀ i ∈ done, val i = val' i := by
      intro i hi
      have hne : i ≠ m.id := fun e => hnew (e ▸ hi)
      exact (Function.update_of_ne hne _ _).symm
    refine ⟨val', fun n hn hmem => ?_⟩
    by_cases hold : n.id ∈ done
    · rw [← hsame _ hold, hval n hn hold]
      exact hvalue n hn _ _ fun i hi hcount => hsame i (c.idxOf_lt h hn hold hi hcount).1
    · have hid : n.id = m.id := by simpa [hold] using hmem
      obtain rfl := h.eq_of_id_eq hn hm hid
      have hself : val' n.id = value n val := Function.update_self ..
      rw [hself]
      exact hvalue n hn _ _ fun i hi hcount => hsame i (hready i hi hcount)

end Course

/-- Above a number that is left when a course is stuck there is a cycle or a missing node. -/
lemma Stuck.exists_blocked (hs : g.Stuck counts done) (hleft : id ∉ done) :
    ∃ u, ReflTransGen (g.Awaits counts) u id ∧ (u ∈ g.ids → TransGen (g.Awaits counts) u u) := by
  classical
  by_contra hnone
  push Not at hnone
  -- everything above the number is there, so what is left above it is a finite set without a first member
  let left := g.ids.filter (fun u => decide (ReflTransGen (g.Awaits counts) u id) && decide (u ∉ done))
  have hmem : ∀ u, u ∈ left ↔ ReflTransGen (g.Awaits counts) u id ∧ u ∉ done := by
    intro u
    simp only [left, List.mem_filter, Bool.and_eq_true, decide_eq_true_eq, and_iff_right_iff_imp]
    exact fun hu => (hnone u hu.1).1
  have hstep : ∀ u ∈ left, ∃ w ∈ left, g.Awaits counts w u := by
    intro u hu
    obtain ⟨hchain, hnot⟩ := (hmem u).1 hu
    obtain ⟨m, hm, rfl⟩ := Graph.mem_ids.1 (hnone u hchain).1
    obtain ⟨i, hi, hc, hleft⟩ := hs m hm hnot
    have hedge : g.Awaits counts i m.id := ⟨⟨m, hm, rfl, hi⟩, hc⟩
    exact ⟨i, (hmem i).2 ⟨ReflTransGen.head hedge hchain, hleft⟩, hedge⟩
  obtain ⟨u, hu, hcycle⟩ := exists_cycle ((hmem id).2 ⟨.refl, hleft⟩) hstep
  exact (hnone u ((hmem u).1 hu).1).2 hcycle

/-- **What a stuck course has taken**: the numbers above which everything is there and nothing goes
round. -/
theorem Course.mem_iff (h : g.Ordered) (c : g.Course counts done) (hs : g.Stuck counts done) :
    id ∈ done ↔ ∀ u, ReflTransGen (g.Awaits counts) u id → u ∈ g.ids ∧
      ¬ TransGen (g.Awaits counts) u u := by
  constructor
  · exact fun hmem u hu => c.sound h hmem hu
  · intro hall
    by_contra hleft
    obtain ⟨u, hu, hblocked⟩ := hs.exists_blocked hleft
    obtain ⟨hin, hno⟩ := hall u hu
    exact hno (hblocked hin)

end Waveflow.Graph
