import Waveflow.Proofs.Schedule.Levels

/-!
# Budgets that a schedule looks up

The order of precedence compares the budgets of numbers that are ready and of the members of groups that are full.
`Priced g p` says that a schedule in the making has a budget for each of them: its slots are those of the nodes, with
the budgets of the nodes, and the members of the groups that are still to come are nodes.  Taking a number leaves the
numbers and the budgets of all slots as they are, and no step brings a group back, so this holds from the start to the
end (`priced_of_reaches`), under whatever hints: groups of missing nodes are dropped at the start.
-/

namespace Waveflow

variable {g : Graph} {grp : ParallelGroup} {id : NodeId}

namespace Greedy

variable {p p' : Progress} {group : Option GroupId}

/-- The number of a slot and the budget that is found there. -/
def Slot.price (s : Slot) : NodeId × Budget := (s.id, s.budget)

/-- Every number that may be looked up has the budget of its node. -/
structure Priced (g : Graph) (p : Progress) : Prop where
  slots : p.slots.map Slot.price = g.nodes.map fun n => (n.id, n.attrs.coherence)
  pending : ∀ grp ∈ p.pending, grp.members ⊆ g.ids

/-! ### What is found -/

lemma Priced.ids (h : Priced g p) : p.slots.map (·.id) = g.ids := by
  have hfirst := congrArg (List.map Prod.fst) h.slots
  rwa [List.map_map, List.map_map] at hfirst

/-- The budget of a slot is that of the node. -/
lemma Priced.budget (h : Priced g p) (hg : g.Ordered) {s : Slot} (hs : s ∈ p.slots) :
    ∃ n, g.node? s.id = some n ∧ s.budget = n.attrs.coherence := by
  have hmem : s.price ∈ g.nodes.map fun n => (n.id, n.attrs.coherence) := h.slots ▸ List.mem_map_of_mem hs
  obtain ⟨n, hn, heq⟩ := List.mem_map.1 hmem
  obtain ⟨hid, hbudget⟩ := Prod.mk.inj heq
  exact ⟨n, hid ▸ hg.node?_of_mem hn, hbudget.symm⟩

/-- The look-up of a group that is still to come misses none of its members. -/
lemma Priced.members (h : Priced g p) (hgrp : grp ∈ p.pending) :
    (memberSlots p.slots grp).map (·.id) = grp.members :=
  ids_memberSlots fun m hm => by
    rw [h.ids]
    exact h.pending grp hgrp hm

/-! ### One step -/

lemma price_after {s t : Slot} (h : s.after id = .ok t) : t.price = s.price := by
  unfold Slot.after Waiting.after at h
  obtain ⟨w, hw, h⟩ := Checked.bind_eq_ok.1 h
  obtain ⟨owed, -, hw⟩ := Checked.bind_eq_ok.1 hw
  obtain rfl := Except.ok.inj hw
  obtain rfl := Except.ok.inj h
  rfl

lemma prices_take {ss ss' : List Slot} (h : take id ss = .ok ss') : ss'.map Slot.price = ss.map Slot.price := by
  induction ss generalizing ss' with
  | nil =>
    obtain rfl := Except.ok.inj h
    rfl
  | cons s rest ih =>
    rw [take] at h
    obtain ⟨t, ht, h⟩ := Checked.bind_eq_ok.1 h
    obtain ⟨more, hmore, h⟩ := Checked.bind_eq_ok.1 h
    obtain rfl := Except.ok.inj h
    rw [List.map_cons, List.map_cons, price_after ht, ih hmore]

lemma prices_emit (h : emit id group p = .ok p') :
    p'.slots.map Slot.price = p.slots.map Slot.price ∧ p'.pending = p.pending := by
  unfold emit at h
  obtain ⟨slots, hslots, h⟩ := Checked.bind_eq_ok.1 h
  obtain rfl := Except.ok.inj h
  exact ⟨prices_take hslots, rfl⟩

lemma prices_emitMembers {k : GroupId} {ids : List NodeId} (h : emitMembers k ids p = .ok p') :
    p'.slots.map Slot.price = p.slots.map Slot.price ∧ p'.pending = p.pending := by
  induction ids generalizing p with
  | nil =>
    obtain rfl := Except.ok.inj h
    exact ⟨rfl, rfl⟩
  | cons id rest ih =>
    rw [emitMembers] at h
    obtain ⟨mid, hmid, h⟩ := Checked.bind_eq_ok.1 h
    obtain ⟨hslots, hpending⟩ := prices_emit hmid
    obtain ⟨hslots', hpending'⟩ := ih h
    exact ⟨hslots'.trans hslots, hpending'.trans hpending⟩

/-- One step changes no budget, and brings no group back. -/
lemma prices_of_advances (hstep : Advances p p') :
    p'.slots.map Slot.price = p.slots.map Slot.price ∧ p'.pending.Sublist p.pending := by
  rcases advance_cases hstep with ⟨grp, -, -, hrun⟩ | ⟨s, -, -, -, hrun⟩ | ⟨s, -, -, -, -, hrun⟩
  · unfold emitGroup at hrun
    obtain ⟨mid, hmid, hrun⟩ := Checked.bind_eq_ok.1 hrun
    obtain rfl := Except.ok.inj hrun
    obtain ⟨hslots, hpending⟩ := prices_emitMembers hmid
    exact ⟨hslots, hpending ▸ List.erase_sublist⟩
  · obtain ⟨hslots, hpending⟩ := prices_emit hrun
    exact ⟨hslots, hpending ▸ List.Sublist.refl _⟩
  · obtain ⟨hslots, hpending⟩ := prices_emit hrun
    exact ⟨hslots, hpending ▸ List.filter_sublist⟩

lemma Priced.step (h : Priced g p) (hstep : Advances p p') : Priced g p' := by
  obtain ⟨hslots, hpending⟩ := prices_of_advances hstep
  exact ⟨hslots.trans h.slots, fun grp hgrp => h.pending grp (hpending.subset hgrp)⟩

/-! ### The whole run -/

lemma members_of_admissible (h : g.Ordered) {groups : List ParallelGroup} {claimed : List NodeId}
    (hgrp : grp ∈ admissible g claimed groups) : grp.members ⊆ g.ids := by
  induction groups generalizing claimed with
  | nil => cases hgrp
  | cons first rest ih =>
    rw [admissible] at hgrp
    dsimp only at hgrp
    split at hgrp
    · next hkept =>
      rcases List.mem_cons.1 hgrp with rfl | hgrp
      · simp only [Bool.and_eq_true, List.all_eq_true] at hkept
        exact fun m hm => (Graph.contains_iff h).1 (hkept.1.1 m hm)
      · exact ih hgrp
    · exact ih hgrp

lemma priced_start (h : g.Ordered) : Priced g (start g) where
  slots := by
    show (slots g).map Slot.price = _
    rw [slots_eq h, List.map_map]
    rfl
  pending := fun _ hgrp => members_of_admissible h hgrp

/-- **Every budget that a schedule in the making looks up is there.** -/
theorem priced_of_reaches (h : g.Ordered) (hreach : Relation.ReflTransGen Advances (start g) p) : Priced g p := by
  induction hreach with
  | refl => exact priced_start h
  | tail _ hstep ih => exact ih.step hstep

/-- A schedule in the making can always go on: no node waits for less than nothing. -/
lemma exists_advance (h : g.Ordered) (hsolid : ∀ grp ∈ g.hints.groups, Solid grp)
    (hreach : Relation.ReflTransGen Advances (start g) p) : ∃ next, advance p = .ok next := by
  rcases advance_spec h hsolid (invariant_of_reaches h hsolid hreach) with ⟨hnone, -⟩ | ⟨q, hq, -, -⟩
  · exact ⟨none, hnone⟩
  · exact ⟨some q, hq⟩

end Greedy

end Waveflow
