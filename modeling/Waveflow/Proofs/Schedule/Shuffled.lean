import Waveflow.Proofs.Schedule.Budgets
import Waveflow.Proofs.Schedule.Priority
import Mathlib.Data.List.Pairwise

/-!
# Groups in another order

Hints list their groups one after the other.  If no two groups share a member, the order in which they are listed does
not matter: of all full groups the one with the first member is taken, and no two of them have the same first member, so
nothing is left that the place of a group in the list could decide (`Greedy.firstGroup?_eq_of_perm`).  Two schedules in
the making that are `Alike` but for the order of the groups that are to come stay so with every step (`Alike.step`), and
in the end they are the same schedule (`Graph.schedule_shuffled`).
-/

namespace Waveflow

variable {g : Graph} {grp : ParallelGroup} {id : NodeId}

/-! ### What does not depend on hints -/

namespace Graph

variable (g : Graph) (hints : Hints)

lemma collect_hints (fuel : Nat) (level seen : List NodeId) :
    ({ g with hints := hints } : Graph).collect fuel level seen = g.collect fuel level seen := by
  have hinputs : ({ g with hints := hints } : Graph).inputsOf = g.inputsOf := rfl
  induction fuel generalizing level seen with
  | zero => rfl
  | succ fuel ih =>
    unfold collect
    dsimp only
    rw [hinputs, ih]

lemma ancestors_hints (id : NodeId) : ({ g with hints := hints } : Graph).ancestors id = g.ancestors id :=
  congrArg ascending (collect_hints g hints _ _ _)

lemma isEligible_hints : Greedy.isEligible { g with hints := hints } = Greedy.isEligible g := by
  have hcontains : ({ g with hints := hints } : Graph).contains = g.contains := rfl
  funext grp
  unfold Greedy.isEligible
  rw [hcontains]
  simp only [ancestors_hints]

end Graph

namespace Greedy

variable {ss : List Slot} {groups groups' : List ParallelGroup} {best best' : ParallelGroup} {s t : Slot}
variable {p p' q : Progress}

/-! ### Groups that are apart -/

/-- Groups that have members, and none in common. -/
structure Apart (groups : List ParallelGroup) : Prop where
  disjoint : groups.Pairwise fun x y => x.members.Disjoint y.members
  nonempty : ∀ grp ∈ groups, grp.members ≠ []

lemma Apart.sublist (h : Apart groups) (hsub : groups'.Sublist groups) : Apart groups' :=
  ⟨h.disjoint.sublist hsub, fun grp hgrp => h.nonempty grp (hsub.subset hgrp)⟩

lemma Apart.perm (h : Apart groups) (hperm : groups.Perm groups') : Apart groups' :=
  ⟨(hperm.pairwise_iff List.Disjoint.symm).1 h.disjoint, fun grp hgrp => h.nonempty grp (hperm.mem_iff.2 hgrp)⟩

/-- A number is a member of one of the groups at most. -/
lemma Apart.eq_of_mem (h : Apart groups) (hbest : best ∈ groups) (hbest' : best' ∈ groups)
    (hid : id ∈ best.members) (hid' : id ∈ best'.members) : best = best' := by
  by_contra hne
  have hsymm : Std.Symm fun x y : ParallelGroup => x.members.Disjoint y.members := ⟨fun _ _ => List.Disjoint.symm⟩
  exact h.disjoint.forall hbest hbest' hne hid hid'

/-! ### The first of full groups -/

/-- The slot is the first of those of the members. -/
def Leads (ss : List Slot) (grp : ParallelGroup) (s : Slot) : Prop := first? (memberSlots ss grp) = some s

lemma groupPrecedes_iff (hs : Leads ss best s) (ht : Leads ss grp t) :
    groupPrecedes ss best grp = true ↔ s.priority < t.priority := by
  unfold Leads at hs ht
  unfold groupPrecedes
  rw [hs, ht]
  exact precedes_iff_priority

/-- A full group is led by one of its members. -/
lemma exists_leads (hfull : isFull ss grp = true) (hne : grp.members ≠ []) :
    ∃ s, Leads ss grp s ∧ s.id ∈ grp.members := by
  have hslots : (memberSlots ss grp).map (·.id) = grp.members := by
    refine ids_memberSlots fun m hm => ?_
    obtain ⟨t, ht, hboth⟩ := List.any_eq_true.1 (List.all_eq_true.1 hfull m hm)
    exact List.mem_map.2 ⟨t, ht, beq_iff_eq.1 (Bool.and_eq_true_iff.1 hboth).1⟩
  cases hfirst : first? (memberSlots ss grp) with
  | none =>
    rw [first?_eq_none hfirst, List.map_nil] at hslots
    exact absurd hslots.symm hne
  | some s => exact ⟨s, hfirst, hslots ▸ List.mem_map_of_mem (first?_mem hfirst)⟩

/-- No group precedes the one that a walk over groups with leaders ends with. -/
lemma priority_foldl_le (hall : ∀ grp ∈ best :: groups, ∃ s, Leads ss grp s) {last : ParallelGroup}
    (hlast : groups.foldl (fun best next => if groupPrecedes ss next best then next else best) best = last) :
    ∃ s, Leads ss last s ∧ ∀ grp ∈ best :: groups, ∀ t, Leads ss grp t → s.priority ≤ t.priority := by
  induction groups generalizing best with
  | nil =>
    obtain rfl : best = last := hlast
    obtain ⟨s, hs⟩ := hall best (List.mem_cons_self ..)
    refine ⟨s, hs, fun grp hgrp t ht => ?_⟩
    obtain rfl := List.mem_singleton.1 hgrp
    exact (Option.some.inj (hs.symm.trans ht)) ▸ le_rfl
  | cons next rest ih =>
    obtain ⟨u, hu⟩ := hall best (List.mem_cons_self ..)
    obtain ⟨v, hv⟩ := hall next (List.mem_cons_of_mem _ (List.mem_cons_self ..))
    have hrest : ∀ grp ∈ rest, ∃ s, Leads ss grp s :=
      fun grp hgrp => hall grp (List.mem_cons_of_mem _ (List.mem_cons_of_mem _ hgrp))
    rw [List.foldl_cons] at hlast
    split at hlast
    · next hprecedes =>
      have hlt := (groupPrecedes_iff hv hu).1 hprecedes
      obtain ⟨s, hs, hle⟩ := ih (List.forall_mem_cons.2 ⟨⟨v, hv⟩, hrest⟩) hlast
      refine ⟨s, hs, List.forall_mem_cons.2 ⟨fun t ht => ?_, hle⟩⟩
      obtain rfl := Option.some.inj (hu.symm.trans ht)
      exact (hle next (List.mem_cons_self ..) v hv).trans hlt.le
    · next hnot =>
      rw [groupPrecedes_iff hv hu, not_lt] at hnot
      obtain ⟨s, hs, hle⟩ := ih (List.forall_mem_cons.2 ⟨⟨u, hu⟩, hrest⟩) hlast
      obtain ⟨hbest, hrestle⟩ := List.forall_mem_cons.1 hle
      refine ⟨s, hs, List.forall_mem_cons.2 ⟨hbest, List.forall_mem_cons.2 ⟨fun t ht => ?_, hrestle⟩⟩⟩
      obtain rfl := Option.some.inj (hv.symm.trans ht)
      exact (hbest u hu).trans hnot

lemma priority_firstGroup?_le (hall : ∀ grp ∈ groups, ∃ s, Leads ss grp s)
    (h : firstGroup? ss groups = some best) :
    ∃ s, Leads ss best s ∧ ∀ grp ∈ groups, ∀ t, Leads ss grp t → s.priority ≤ t.priority := by
  cases groups with
  | nil => cases h
  | cons first rest => exact priority_foldl_le hall (Option.some.inj h)

/-- **The first of full groups that are apart does not depend on their order.**  Its leader is no other group's. -/
theorem firstGroup?_eq_of_perm (hapart : Apart groups) (hfull : ∀ grp ∈ groups, isFull ss grp = true)
    (hperm : groups.Perm groups') : firstGroup? ss groups = firstGroup? ss groups' := by
  have hleads : ∀ grp ∈ groups, ∃ s, Leads ss grp s ∧ s.id ∈ grp.members :=
    fun grp hgrp => exists_leads (hfull grp hgrp) (hapart.nonempty grp hgrp)
  have hall : ∀ grp ∈ groups, ∃ s, Leads ss grp s := fun grp hgrp => (hleads grp hgrp).imp fun _ hs => hs.1
  cases hbest : firstGroup? ss groups with
  | none =>
    rw [firstGroup?_eq_none hbest] at hperm
    rw [hperm.symm.eq_nil]
    rfl
  | some best =>
    cases hbest' : firstGroup? ss groups' with
    | none =>
      rw [firstGroup?_eq_none hbest'] at hperm
      rw [hperm.eq_nil] at hbest
      cases hbest
    | some best' =>
      have hmem := firstGroup?_mem hbest
      have hmem' := hperm.mem_iff.2 (firstGroup?_mem hbest')
      obtain ⟨s, hs, hle⟩ := priority_firstGroup?_le hall hbest
      obtain ⟨t, ht, hle'⟩ := priority_firstGroup?_le (fun grp hgrp => hall grp (hperm.mem_iff.2 hgrp)) hbest'
      -- each leader is not after the other, so they are of one number
      have hpriority : s.priority = t.priority :=
        le_antisymm (hle best' hmem' t ht) (hle' best (hperm.mem_iff.1 hmem) s hs)
      have hid : s.id = t.id := congrArg (fun x => (ofLex x).2) hpriority
      obtain ⟨u, hu, hin⟩ := hleads best hmem
      obtain ⟨v, hv, hin'⟩ := hleads best' hmem'
      obtain rfl := Option.some.inj (hs.symm.trans hu)
      obtain rfl := Option.some.inj (ht.symm.trans hv)
      rw [hapart.eq_of_mem hmem hmem' hin (hid ▸ hin')]

/-! ### One step -/

/-- The second schedule in the making is the first with the groups that are to come in some order. -/
def Alike (p q : Progress) : Prop := ∃ pending, p.pending.Perm pending ∧ q = { p with pending := pending }

lemma Alike.emit {k : Option GroupId} (h : Alike p q) (hrun : emit id k p = .ok p') :
    ∃ q', emit id k q = .ok q' ∧ Alike p' q' := by
  obtain ⟨pending, hperm, rfl⟩ := h
  unfold Greedy.emit at hrun ⊢
  obtain ⟨slots, hslots, hrun⟩ := Checked.bind_eq_ok.1 hrun
  obtain rfl := Except.ok.inj hrun
  exact ⟨_, Checked.bind_eq_ok.2 ⟨slots, hslots, rfl⟩, pending, hperm, rfl⟩

lemma Alike.emitMembers {k : GroupId} {ids : List NodeId} (h : Alike p q) (hrun : emitMembers k ids p = .ok p') :
    ∃ q', emitMembers k ids q = .ok q' ∧ Alike p' q' := by
  induction ids generalizing p q with
  | nil =>
    obtain rfl := Except.ok.inj hrun
    exact ⟨q, rfl, h⟩
  | cons id rest ih =>
    unfold Greedy.emitMembers at hrun ⊢
    obtain ⟨mid, hmid, hrun⟩ := Checked.bind_eq_ok.1 hrun
    obtain ⟨mid', hmid', halike⟩ := h.emit hmid
    rw [hmid']
    exact ih halike hrun

lemma Alike.emitGroup (h : Alike p q) (hrun : emitGroup grp p = .ok p') :
    ∃ q', emitGroup grp q = .ok q' ∧ Alike p' q' := by
  obtain ⟨pending, hperm, rfl⟩ := h
  unfold Greedy.emitGroup at hrun ⊢
  obtain ⟨mid, hmid, hrun⟩ := Checked.bind_eq_ok.1 hrun
  obtain rfl := Except.ok.inj hrun
  have herased : Alike { p with pending := p.pending.erase grp } { p with pending := pending.erase grp } :=
    ⟨_, hperm.erase grp, rfl⟩
  obtain ⟨mid', hmid', rest, hrest, rfl⟩ := herased.emitMembers hmid
  exact ⟨_, Checked.bind_eq_ok.2 ⟨_, hmid', rfl⟩, rest, hrest, rfl⟩

/-- **Schedules in the making stay alike with every step.** -/
theorem Alike.step (h : Alike p q) (hapart : Apart p.pending) {next : Option Progress} (hstep : advance p = .ok next) :
    ∃ next', advance q = .ok next' ∧ Option.Rel Alike next next' := by
  obtain ⟨pending, hperm, rfl⟩ := h
  have halike : Alike p { p with pending := pending } := ⟨pending, hperm, rfl⟩
  have hgroup : firstGroup? p.slots (pending.filter (isFull p.slots)) =
      firstGroup? p.slots (p.pending.filter (isFull p.slots)) :=
    (firstGroup?_eq_of_perm (hapart.sublist List.filter_sublist) (fun grp hgrp => (List.mem_filter.1 hgrp).2)
      (hperm.filter _)).symm
  have hgrouped : ∀ id, (pending.flatMap (·.members)).contains id = (p.pending.flatMap (·.members)).contains id :=
    fun id => by rw [Bool.eq_iff_iff, List.contains_iff_mem, List.contains_iff_mem, (hperm.flatMap_right _).mem_iff]
  unfold advance at hstep ⊢
  dsimp only at hstep
  simp only [hgroup, hgrouped]
  split at hstep
  · next hbest =>
    obtain rfl := Except.ok.inj hstep
    exact ⟨none, rfl, .none⟩
  · next best hbest =>
    split at hstep
    · obtain ⟨p', hrun, rfl⟩ := Checked.map_eq_ok.1 hstep
      obtain ⟨q', hrun', hnext⟩ := halike.emitGroup hrun
      exact ⟨some q', Checked.map_eq_ok.2 ⟨q', hrun', rfl⟩, .some hnext⟩
    · split at hstep
      · obtain ⟨p', hrun, rfl⟩ := Checked.map_eq_ok.1 hstep
        obtain ⟨q', hrun', hnext⟩ := halike.emit hrun
        exact ⟨some q', Checked.map_eq_ok.2 ⟨q', hrun', rfl⟩, .some hnext⟩
      · -- the groups that are given up are the same ones
        obtain ⟨p', hrun, rfl⟩ := Checked.map_eq_ok.1 hstep
        have hless : Alike { p with pending := p.pending.filter fun grp => !grp.members.contains best.id }
            { p with pending := pending.filter fun grp => !grp.members.contains best.id } :=
          ⟨_, hperm.filter _, rfl⟩
        obtain ⟨q', hrun', hnext⟩ := hless.emit hrun
        exact ⟨some q', Checked.map_eq_ok.2 ⟨q', hrun', rfl⟩, .some hnext⟩

/-! ### The whole run -/

lemma Alike.run {fuel : Nat} (h : Alike p q) (hapart : Apart p.pending) (hrun : run fuel p = .ok p') :
    ∃ q', run fuel q = .ok q' ∧ Alike p' q' := by
  induction fuel generalizing p q with
  | zero =>
    obtain rfl := Except.ok.inj hrun
    exact ⟨q, rfl, h⟩
  | succ fuel ih =>
    unfold Greedy.run at hrun ⊢
    obtain ⟨next, hstep, hrun⟩ := Checked.bind_eq_ok.1 hrun
    obtain ⟨next', hstep', hrel⟩ := h.step hapart hstep
    rw [hstep', Checked.ok_bind]
    cases hrel with
    | none =>
      obtain rfl := Except.ok.inj hrun
      exact ⟨q, rfl, h⟩
    | some halike => exact ih halike (hapart.sublist (prices_of_advances hstep).2) hrun

lemma start_eq (g : Graph) (hdisjoint : groups.Pairwise fun x y => x.members.Disjoint y.members) :
    start { g with hints := ⟨groups⟩ } = ⟨slots g, groups.filter (isEligible g), [], []⟩ := by
  have hslots : Greedy.slots { g with hints := ⟨groups⟩ } = Greedy.slots g := rfl
  unfold start
  rw [admissible_eq_filter hdisjoint fun _ _ => List.disjoint_nil_right _, Graph.isEligible_hints, hslots]

end Greedy

namespace Graph

open Greedy (Alike Apart)

variable {groups groups' : List ParallelGroup}

/-- **The schedule does not depend on the order of the groups.**  A graph without dangling edges and cycles has the same
schedule under groups that are apart from each other in any order: the same steps with the same marks, and the same
groups in the order in which they were taken. -/
theorem schedule_shuffled (h : g.Ordered) (hdangling : g.dangling = []) (ha : g.Acyclic)
    (hmade : ∀ grp ∈ groups, grp.Made) (hdisjoint : groups.Pairwise fun x y => x.members.Disjoint y.members)
    (hperm : groups.Perm groups') :
    ∃ s, ({ g with hints := ⟨groups⟩ } : Graph).schedule = .ok (.ok s) ∧
      ({ g with hints := ⟨groups'⟩ } : Graph).schedule = .ok (.ok s) := by
  have hclosed : g.Closed := (dangling_eq_nil_iff h).1 hdangling
  have hsolid : ∀ grp ∈ groups, Greedy.Solid grp := fun grp hgrp => (hmade grp hgrp).solid
  have hapart : Apart groups := ⟨hdisjoint, fun grp hgrp => (hsolid grp hgrp).2⟩
  obtain ⟨s, hs, -⟩ := schedule_of_acyclic (g := { g with hints := ⟨groups⟩ }) h hsolid hclosed ha
  refine ⟨s, hs, ?_⟩
  unfold schedule at hs ⊢
  dsimp only at hs ⊢
  rw [Greedy.start_eq g hdisjoint] at hs
  rw [Greedy.start_eq g (hapart.perm hperm).disjoint]
  have heligible := hperm.filter (Greedy.isEligible g)
  have hstart : Alike ⟨Greedy.slots g, groups.filter (Greedy.isEligible g), [], []⟩
      ⟨Greedy.slots g, groups'.filter (Greedy.isEligible g), [], []⟩ := ⟨_, heligible, rfl⟩
  obtain ⟨p, hrun, hs⟩ := Checked.bind_eq_ok.1 hs
  obtain ⟨q, hrun', rest, -, rfl⟩ := hstart.run (hapart.sublist List.filter_sublist) hrun
  rw [heligible.length_eq] at hrun'
  exact Checked.bind_eq_ok.2 ⟨_, hrun', hs⟩

/-- Six operations on one input: two with tight budgets, and two pairs each of which waits for the other. -/
def locks : Graph where
  name := "locks"
  nodes := [Node.plain 0 .input [] .scalar, Node.plain 1 (.operation .split) [0] .scalar,
    Node.plain 2 (.operation .split) [0] .scalar, Node.plain 3 (.operation .split) [2] .scalar,
    Node.plain 4 (.operation .split) [1] .scalar,
    { Node.plain 5 (.operation .split) [0] .scalar with attrs := { Attributes.plain with coherence := .bounded 1.0 } },
    { Node.plain 6 (.operation .split) [0] .scalar with attrs := { Attributes.plain with coherence := .bounded 2.0 } }]
  inputs := [0]
  outputs := []
  hints := Hints.empty
  nextId := 7

/-- The pairs of operations as groups. -/
def lockGroups : List ParallelGroup := (Hints.empty.addAll [[1, 3], [2, 4], [5, 6]]).2.groups

theorem schedule_shuffled_locks : ∃ s, ({ locks with hints := ⟨lockGroups⟩ } : Graph).schedule = .ok (.ok s) ∧
    ({ locks with hints := ⟨lockGroups.reverse⟩ } : Graph).schedule = .ok (.ok s) ∧
    s.order = [0, 5, 6, 1, 2, 4, 3] ∧ s.groups = [⟨2, [5, 6]⟩, ⟨1, [2, 4]⟩] := by
  have hranked : locks.Ranked (fun id => id) := by
    unfold Ranked
    decide
  have hmade : ∀ grp ∈ lockGroups, grp.Made := Hints.addAll_made _ fun grp hgrp => by cases hgrp
  have hapart : lockGroups.Pairwise fun x y => ∀ m ∈ x.members, m ∉ y.members := by decide
  obtain ⟨s, hs, hs'⟩ :=
    schedule_shuffled (g := locks) (ordered_iff.2 (by decide)) (by decide) hranked.acyclic hmade
    (hapart.imp fun hxy m hx hy => hxy m hx hy) (List.reverse_perm lockGroups).symm
  have houtcome :
      (({ locks with hints := ⟨lockGroups⟩ } : Graph).schedule.map (·.map fun s => (s.order, s.groups))) =
      .ok (.ok ([0, 5, 6, 1, 2, 4, 3], [⟨2, [5, 6]⟩, ⟨1, [2, 4]⟩])) := by rfl
  rw [hs] at houtcome
  obtain ⟨horder, hgroups⟩ := Prod.mk.inj (Except.ok.inj (Except.ok.inj houtcome))
  exact ⟨s, hs, hs', horder, hgroups⟩

end Graph

end Waveflow
