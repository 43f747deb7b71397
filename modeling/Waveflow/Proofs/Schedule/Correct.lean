import Waveflow.Proofs.Graph.Hints
import Waveflow.Proofs.Schedule.Verify

/-!
# Schedules are right

A graph has a schedule exactly when no edge dangles and no chain of edges closes, whatever its hints
say; the schedule fits the graph and is accepted.  Otherwise the nodes that are named are those above
which there is a cycle or a dangling edge.
-/

namespace Waveflow

open Relation (TransGen ReflTransGen)

/-! ### Groups that were added -/

/-- A group that was added has at least two members, none of them twice. -/
lemma ParallelGroup.Made.solid {grp : ParallelGroup} (h : grp.Made) : Greedy.Solid grp := by
  obtain ⟨hints, members, hgroup⟩ := h
  unfold Hints.group? at hgroup
  dsimp only at hgroup
  split at hgroup
  · cases hgroup
  · next hlen =>
    obtain rfl := Option.some.inj hgroup
    refine ⟨(ascending_pairwise members).imp fun hlt => Nat.ne_of_lt hlt, ?_⟩
    rintro (hnil : ascending members = [])
    simp [hnil] at hlen

namespace Graph

variable {g : Graph} {done : List NodeId} {id : NodeId}

/-! ### Nodes that cannot be scheduled -/

/-- The node, or one above it, is on a cycle or has an edge from a missing node. -/
def Blocked (g : Graph) (id : NodeId) : Prop :=
  ∃ u, ReflTransGen g.Feeds u id ∧ (TransGen g.Feeds u u ∨ ∃ i, g.Feeds i u ∧ i ∉ g.ids)

lemma awaits_eq_feeds : g.Awaits (fun _ => true) = g.Feeds := by
  funext a b
  simp [Awaits]

/-- The nodes that a stuck schedule has not taken are the blocked ones. -/
theorem notMem_iff_blocked (h : g.Ordered) (c : g.Course (fun _ => true) done)
    (hs : g.Stuck (fun _ => true) done) (hid : id ∈ g.ids) : id ∉ done ↔ g.Blocked id := by
  rw [c.mem_iff h hs, awaits_eq_feeds]
  push Not
  constructor
  · rintro ⟨u, hu, hbad⟩
    by_cases hin : u ∈ g.ids
    · exact ⟨u, hu, .inl (hbad hin)⟩
    · -- a missing node above is not the node itself, so it feeds one that is there
      rcases ReflTransGen.cases_head hu with rfl | ⟨v, huv, hv⟩
      · exact absurd hid hin
      · exact ⟨v, hv, .inr ⟨u, huv, hin⟩⟩
  · rintro ⟨u, hu, hcycle | ⟨i, hi, hmissing⟩⟩
    · exact ⟨u, hu, fun _ => hcycle⟩
    · exact ⟨i, ReflTransGen.head hi hu, fun hin => absurd hin hmissing⟩

lemma not_blocked (hc : g.Closed) (ha : g.Acyclic) : ¬ g.Blocked id := by
  rintro ⟨u, -, hcycle | ⟨i, ⟨n, hn, -, hi⟩, hmissing⟩⟩
  · exact ha u hcycle
  · exact hmissing (hc n hn i hi)

lemma closed_and_acyclic (h : ∀ id ∈ g.ids, ¬ g.Blocked id) : g.Closed ∧ g.Acyclic := by
  constructor
  · intro n hn i hi
    by_contra hmissing
    exact h n.id (id_mem_ids hn) ⟨n.id, .refl, .inr ⟨i, ⟨n, hn, rfl, hi⟩, hmissing⟩⟩
  · intro u hcycle
    exact h u (transGen_mem_ids hcycle) ⟨u, .refl, .inl hcycle⟩

/-! ### The outcome -/

lemma fits_of_invariant {p : Greedy.Progress} (h : g.Ordered) (inv : Greedy.Invariant g p)
    (hlen : g.nodes.length ≤ p.steps.length) : (Schedule.mk p.steps p.emitted).Fits g where
  once := inv.course.perm_of_length (by simpa [Greedy.Progress.taken] using hlen)
  after_inputs := by
    intro n hn i hi
    have hall := inv.course.perm_of_length (by simpa [Greedy.Progress.taken] using hlen)
    exact inv.course.idxOf_lt h hn (hall.mem_iff.2 (id_mem_ids hn)) hi rfl
  groups := inv.emitted
  tags := inv.tags

/-- A graph without dangling edges and cycles has a schedule, and it is accepted. -/
theorem schedule_of_acyclic (h : g.Ordered) (hsolid : ∀ grp ∈ g.hints.groups, Greedy.Solid grp)
    (hc : g.Closed) (ha : g.Acyclic) : ∃ s, g.schedule = .ok (.ok s) ∧ s.Fits g := by
  obtain ⟨p, inv, hstuck, hout⟩ := Greedy.exists_run h hsolid
  have hlen : g.nodes.length ≤ p.steps.length := by
    have hsub : g.ids ⊆ p.taken := by
      intro id hid
      by_contra hleft
      exact not_blocked hc ha ((notMem_iff_blocked h inv.course hstuck hid).1 hleft)
    have hle := (List.subperm_of_subset h.ids_nodup hsub).length_le
    unfold ids Greedy.Progress.taken at hle
    rwa [List.length_map, List.length_map] at hle
  rw [if_neg (Nat.not_lt.2 hlen)] at hout
  exact ⟨_, hout, fits_of_invariant h inv hlen⟩

/-- **The scheduler is right under any hints.**  Whatever the groups name, it ends, and it gives a
schedule exactly when no edge dangles and nothing goes round.  A schedule fits the graph and passes the
check; a refusal lists the blocked nodes in ascending order. -/
theorem schedule_correct (h : g.Ordered) (hmade : ∀ grp ∈ g.hints.groups, grp.Made) :
    ∃ outcome, g.schedule = .ok outcome ∧
      ((∃ s, outcome = .ok s) ↔ g.dangling = [] ∧ g.Acyclic) ∧
      (∀ s, outcome = .ok s → s.Fits g ∧ s.verify g = .ok ()) ∧
      (∀ e, outcome = .error e → ∃ left, e = .cyclicDependency left ∧ left.Pairwise (· < ·) ∧
        ∀ id, id ∈ left ↔ id ∈ g.ids ∧ g.Blocked id) := by
  have hsolid : ∀ grp ∈ g.hints.groups, Greedy.Solid grp := fun grp hgrp => (hmade grp hgrp).solid
  obtain ⟨p, inv, hstuck, hout⟩ := Greedy.exists_run h hsolid
  have hblocked : ∀ id ∈ g.ids, (id ∉ p.taken ↔ g.Blocked id) :=
    fun id hid => notMem_iff_blocked h inv.course hstuck hid
  refine ⟨_, hout, ?_, ?_, ?_⟩
  · rw [dangling_eq_nil_iff h]
    constructor
    · rintro ⟨s, hs⟩
      split at hs
      · cases hs
      · next hlen =>
        have hfits := fits_of_invariant h inv (Nat.le_of_not_lt hlen)
        exact closed_and_acyclic fun id hid hb => (hblocked id hid).2 hb (hfits.once.mem_iff.2 hid)
    · rintro ⟨hc, ha⟩
      obtain ⟨s, hs, -⟩ := schedule_of_acyclic h hsolid hc ha
      exact ⟨s, Except.ok.inj (hout.symm.trans hs)⟩
  · intro s hs
    split at hs
    · cases hs
    · next hlen =>
      obtain rfl := Except.ok.inj hs
      have hfits := fits_of_invariant h inv (Nat.le_of_not_lt hlen)
      exact ⟨hfits, hfits.verify_eq h⟩
  · intro e he
    split at he
    · obtain rfl := Except.error.inj he
      refine ⟨_, rfl, h.ids_ascend.filter _, fun id => ?_⟩
      rw [List.mem_filter, Bool.not_eq_true', List.contains_eq_mem, decide_eq_false_iff_not]
      exact and_congr_right fun hid => hblocked id hid
    · cases he

/-- Two nodes on one input, hinted to run side by side; a second group names a missing node. -/
def fork : Graph where
  name := "fork"
  nodes := [Node.plain 0 .input [] .scalar, Node.plain 1 (.operation .interfere) [0, 0] .scalar,
    Node.plain 2 (.operation .merge) [0, 0] .scalar]
  inputs := [0]
  outputs := []
  hints := (Hints.empty.addAll [[1, 2], [2, 7]]).2
  nextId := 3

theorem schedule_correct_fork : ∃ s, fork.schedule = .ok (.ok s) ∧ s.Fits fork ∧ s.verify fork = .ok () := by
  have hordered : fork.Ordered := ordered_iff.2 (by decide)
  have hmade : ∀ grp ∈ fork.hints.groups, grp.Made :=
    Hints.addAll_made _ fun grp hgrp => by cases hgrp
  have hranked : fork.Ranked (fun id => id) := by
    unfold Ranked
    decide
  obtain ⟨outcome, hout, hiff, hok, -⟩ := schedule_correct hordered hmade
  obtain ⟨s, rfl⟩ := hiff.2 ⟨by decide, hranked.acyclic⟩
  exact ⟨s, hout, hok s rfl⟩

end Graph

end Waveflow
