import Waveflow.Pass.Levels
import Waveflow.Proofs.Graph.Depth
import Waveflow.Proofs.Graph.Reach
import Waveflow.Proofs.Schedule.Correct

/-!
# Levels are scheduled as they are

A schedule gives a group up when some of its members are ready, others are not, and nothing else can be taken.  This
never happens to groups of nodes of one depth: among the numbers that are left, one of least depth waits for nothing,
and so do all members of its group, since none of them has been taken and all have that depth.

`Layered` says what this needs of the groups: apart from each other, and each of nodes of one rank, for some measure
that grows along the edges.  `Kept` is what then holds of a schedule in the making; one step keeps it (`Kept.step`),
and so does every run.
-/

namespace Waveflow

open Relation (TransGen ReflTransGen)

variable {g : Graph} {rank : NodeId → Nat} {grp : ParallelGroup} {n : Node}

/-! ### Groups of one rank -/

/-- The groups are apart from each other, and each is made of nodes of one rank. -/
structure Graph.Layered (g : Graph) (rank : NodeId → Nat) : Prop where
  ranked : g.Ranked rank
  solid : ∀ grp ∈ g.hints.groups, Greedy.Solid grp
  present : ∀ grp ∈ g.hints.groups, grp.members ⊆ g.ids
  even : ∀ grp ∈ g.hints.groups, ∀ a ∈ grp.members, ∀ b ∈ grp.members, rank a = rank b
  apart : g.hints.groups.Pairwise (fun x y => x.members.Disjoint y.members)

/-- No chain of edges joins two members of a group. -/
lemma Graph.Layered.antichain (hl : g.Layered rank) (hgrp : grp ∈ g.hints.groups) {a b : NodeId}
    (ha : a ∈ grp.members) (hb : b ∈ grp.members) : ¬ TransGen g.Feeds a b := by
  intro hab
  have hlt := hl.ranked.lt_of_transGen hab
  rw [hl.even grp hgrp a ha b hb] at hlt
  exact Nat.lt_irrefl _ hlt

namespace Greedy

variable {p p' : Progress} {done : List NodeId}

/-- The members of the group are nodes, none of which depends on another. -/
def isEligible (g : Graph) (grp : ParallelGroup) : Bool :=
  grp.members.all g.contains && grp.members.all fun a => grp.members.all fun b => !(g.ancestors a).contains b

/-- Of groups that are apart from each other and from what is claimed, the eligible ones are kept. -/
lemma admissible_eq_filter {groups : List ParallelGroup} {claimed : List NodeId}
    (hapart : groups.Pairwise (fun x y => x.members.Disjoint y.members))
    (hfree : ∀ grp ∈ groups, grp.members.Disjoint claimed) :
    admissible g claimed groups = groups.filter (isEligible g) := by
  induction groups generalizing claimed with
  | nil => rfl
  | cons grp rest ih =>
    obtain ⟨hfirst, hrest⟩ := List.pairwise_cons.1 hapart
    have hunclaimed : (grp.members.all fun m => !claimed.contains m) = true := by
      simp only [List.all_eq_true, Bool.not_eq_true', List.contains_eq_mem, decide_eq_false_iff_not]
      exact fun m hm hc => hfree grp (List.mem_cons_self ..) hm hc
    have hrestfree : ∀ x ∈ rest, x.members.Disjoint claimed := fun x hx => hfree x (List.mem_cons_of_mem _ hx)
    have hkept : admissible g (grp.members ++ claimed) rest = rest.filter (isEligible g) := by
      refine ih hrest fun x hx => List.disjoint_append_right.2 ⟨(hfirst x hx).symm, hrestfree x hx⟩
    rw [admissible]
    dsimp only
    rw [hunclaimed, Bool.and_true, hkept, ih hrest hrestfree, List.filter_cons]
    rfl

/-- Independent groups that are apart from each other are all kept. -/
lemma admissible_eq_self (h : g.Ordered) {groups : List ParallelGroup}
    (hpresent : ∀ grp ∈ groups, grp.members ⊆ g.ids)
    (hchain : ∀ grp ∈ groups, ∀ a ∈ grp.members, ∀ b ∈ grp.members, ¬ TransGen g.Feeds a b)
    (hapart : groups.Pairwise (fun x y => x.members.Disjoint y.members)) : admissible g [] groups = groups := by
  rw [admissible_eq_filter hapart fun _ _ => List.disjoint_nil_right _, List.filter_eq_self]
  intro grp hgrp
  unfold isEligible
  simp only [Bool.and_eq_true, List.all_eq_true, Bool.not_eq_true', List.contains_eq_mem, decide_eq_false_iff_not]
  refine ⟨fun m hm => (Graph.contains_iff h).2 (hpresent grp hgrp hm), fun a ha b hb hmem => ?_⟩
  exact hchain grp hgrp b hb a ha (Graph.transGen_of_mem_ancestors h hmem)

lemma admissible_of_layered (h : g.Ordered) (hl : g.Layered rank) :
    admissible g [] g.hints.groups = g.hints.groups :=
  admissible_eq_self h hl.present (fun _ hgrp _ ha _ hb => hl.antichain hgrp ha hb) hl.apart

/-! ### Steps -/

/-- One step leads from a schedule in the making to the next. -/
def Advances (p p' : Progress) : Prop := advance p = .ok (some p')

/-- What a step can do: take a full group, or a node that is in no group; or, while no group is full and every node that
is ready is in a group, give up the group of a node and take it. -/
lemma advance_cases (hstep : Advances p p') :
    (∃ grp ∈ p.pending, isFull p.slots grp = true ∧ emitGroup grp p = .ok p') ∨
    (∃ s ∈ p.slots, s.isReady = true ∧ (∀ grp ∈ p.pending, s.id ∉ grp.members) ∧
      emit s.id none p = .ok p') ∨
    ∃ s ∈ p.slots, s.isReady = true ∧ (∀ grp ∈ p.pending, ¬ isFull p.slots grp = true) ∧
      (∀ t ∈ p.slots, t.isReady = true → ∃ grp ∈ p.pending, t.id ∈ grp.members) ∧
      emit s.id none { p with pending := p.pending.filter fun grp => !grp.members.contains s.id } = .ok p' := by
  unfold Advances advance at hstep
  dsimp only at hstep
  split at hstep
  · cases hstep
  next best hbest =>
  split at hstep
  · next grp hgrp =>
    obtain ⟨hpending, hfull⟩ := List.mem_filter.1 (firstGroup?_mem hgrp)
    obtain ⟨q, hrun, heq⟩ := Checked.map_eq_ok.1 hstep
    obtain rfl := Option.some.inj heq
    exact .inl ⟨grp, hpending, hfull, hrun⟩
  next hnofull =>
  split at hstep
  · next s hs =>
    obtain ⟨hready, hfree⟩ := List.mem_filter.1 (first?_mem hs)
    obtain ⟨hslot, hready⟩ := List.mem_filter.1 hready
    obtain ⟨q, hrun, heq⟩ := Checked.map_eq_ok.1 hstep
    obtain rfl := Option.some.inj heq
    refine .inr (.inl ⟨s, hslot, hready, fun grp hgrp hmem => ?_, hrun⟩)
    simp only [Bool.not_eq_true', List.contains_eq_mem, decide_eq_false_iff_not] at hfree
    exact hfree (List.mem_flatMap.2 ⟨grp, hgrp, hmem⟩)
  · next hnofree =>
    obtain ⟨hslot, hready⟩ := List.mem_filter.1 (first?_mem hbest)
    obtain ⟨q, hrun, heq⟩ := Checked.map_eq_ok.1 hstep
    obtain rfl := Option.some.inj heq
    refine .inr (.inr ⟨best, hslot, hready, fun grp hgrp hfull => ?_, fun s hs hready => ?_, hrun⟩)
    · have hnil := firstGroup?_eq_none hnofull
      exact List.filter_eq_nil_iff.1 hnil grp hgrp hfull
    · have hnil := first?_eq_none hnofree
      have hgrouped := List.filter_eq_nil_iff.1 hnil s (List.mem_filter.2 ⟨hs, hready⟩)
      simpa [List.contains_eq_mem, List.mem_flatMap] using hgrouped

/-! ### No group is given up -/

/-- Every group is still to come as a whole, or has been taken. -/
structure Kept (g : Graph) (p : Progress) : Prop where
  groups : (p.pending ++ p.emitted).Perm g.hints.groups
  waiting : ∀ grp ∈ p.pending, ∀ m ∈ grp.members, m ∉ p.taken

lemma Kept.mem_groups (hkept : Kept g p) (hgrp : grp ∈ p.pending) : grp ∈ g.hints.groups :=
  hkept.groups.mem_iff.1 (List.mem_append_left _ hgrp)

lemma isFull_of_ready (hready : ∀ id ∈ grp.members, ∃ n ∈ g.nodes, n.id = id ∧ Ready done n) :
    isFull (g.nodes.map (Slot.seen done)) grp = true := by
  refine List.all_eq_true.2 fun id hid => ?_
  obtain ⟨n, hn, rfl, hr⟩ := hready id hid
  refine List.any_eq_true.2 ⟨_, List.mem_map_of_mem hn, ?_⟩
  rw [isReady_seen.2 hr, Bool.and_true]
  exact beq_self_eq_true _

/-- While numbers are left, a group is full or a node that is in no group is ready. -/
lemma exists_full_or_free (hc : g.Closed) (hl : g.Layered rank) (inv : Invariant g p) (hkept : Kept g p)
    (hleft : ∃ n ∈ g.nodes, n.id ∉ p.taken) :
    (∃ grp ∈ p.pending, isFull p.slots grp = true) ∨
      ∃ s ∈ p.slots, s.isReady = true ∧ ∀ grp ∈ p.pending, s.id ∉ grp.members := by
  obtain ⟨n, ⟨hn, hnew⟩, hmin⟩ := (measure fun n : Node => rank n.id).wf.has_min
    { n | n ∈ g.nodes ∧ n.id ∉ p.taken } hleft
  -- a number that is left and of no greater rank waits for nothing: its inputs are of smaller rank
  have hready : ∀ m ∈ g.nodes, m.id ∉ p.taken → rank m.id ≤ rank n.id → Ready p.taken m := by
    intro m hm hmnew hle
    refine ⟨hmnew, fun i hi => ?_⟩
    obtain ⟨x, hx, rfl⟩ := Graph.mem_ids.1 (hc m hm i hi)
    by_contra hxnew
    exact hmin x ⟨hx, hxnew⟩ (Nat.lt_of_lt_of_le (hl.ranked m hm _ hi) hle)
  rw [inv.slots]
  by_cases hgrouped : ∃ grp ∈ p.pending, n.id ∈ grp.members
  · obtain ⟨grp, hgrp, hmem⟩ := hgrouped
    have hhint := hkept.mem_groups hgrp
    refine .inl ⟨grp, hgrp, isFull_of_ready fun id hid => ?_⟩
    obtain ⟨m, hm, rfl⟩ := Graph.mem_ids.1 (hl.present grp hhint hid)
    exact ⟨m, hm, rfl, hready m hm (hkept.waiting grp hgrp _ hid) (hl.even grp hhint _ hid _ hmem).le⟩
  · push Not at hgrouped
    exact .inr ⟨_, List.mem_map_of_mem hn, isReady_seen.2 (hready n hn hnew (Nat.le_refl _)), hgrouped⟩

/-- One step keeps every group. -/
theorem Kept.step (h : g.Ordered) (hc : g.Closed) (hl : g.Layered rank) (inv : Invariant g p) (hkept : Kept g p)
    (hstep : Advances p p') : Kept g p' := by
  rcases advance_cases hstep with ⟨grp, hgrp, hfull, hrun⟩ | ⟨s, hs, hready, hfree, hrun⟩ |
    ⟨s, hs, hready, hnofull, hgrouped, -⟩
  · have hsolid := hl.solid grp (hkept.mem_groups hgrp)
    obtain ⟨order, hperm, -, -, heq⟩ := emitGroup_eq h inv.slots inv.course hsolid.1 hfull
    obtain rfl := Except.ok.inj (hrun.symm.trans heq)
    have hsplit := List.perm_cons_erase hgrp
    have hgroups : (grp :: (p.pending.erase grp ++ p.emitted)).Perm g.hints.groups :=
      (hsplit.append_right p.emitted).symm.trans hkept.groups
    refine ⟨?_, fun x hx m hm hmem => ?_⟩
    · dsimp only
      rw [← List.append_assoc]
      exact List.perm_append_comm.trans hgroups
    · -- the other groups have no member among those that were taken now
      obtain ⟨hapart, -⟩ := List.pairwise_cons.1 ((hgroups.pairwise_iff List.Disjoint.symm).2 hl.apart)
      have htaken : m ∈ p.taken ++ order := by simpa [Progress.taken, Function.comp_def] using hmem
      rcases List.mem_append.1 htaken with htaken | htaken
      · exact hkept.waiting x (List.mem_of_mem_erase hx) m hm htaken
      · exact hapart x (List.mem_append_left _ hx) (hperm.mem_iff.1 htaken) hm
  · rw [inv.slots] at hs
    obtain ⟨n, hn, rfl⟩ := List.mem_map.1 hs
    have hnew := (isReady_seen.1 hready).1
    obtain rfl := Except.ok.inj (hrun.symm.trans (emit_eq inv.slots hnew none))
    refine ⟨hkept.groups, fun x hx m hm hmem => ?_⟩
    have htaken : m ∈ p.taken ∨ m = n.id := by simpa [Progress.taken, Slot.seen, Waiting.seen] using hmem
    rcases htaken with htaken | rfl
    · exact hkept.waiting x hx m hm htaken
    · exact hfree x hx hm
  · -- the way in which a group would be given up
    rw [inv.slots] at hs
    obtain ⟨n, hn, hid, hnew, -⟩ := mem_ready (List.mem_filter.2 ⟨hs, hready⟩)
    rcases exists_full_or_free hc hl inv hkept ⟨n, hn, hnew⟩ with
      ⟨grp, hgrp, hfull⟩ | ⟨t, ht, htready, hfree⟩
    · exact absurd hfull (hnofull grp hgrp)
    · obtain ⟨grp, hgrp, hmem⟩ := hgrouped t ht htready
      exact absurd hmem (hfree grp hgrp)

lemma kept_start (h : g.Ordered) (hl : g.Layered rank) : Kept g (start g) where
  groups := by
    unfold start
    rw [admissible_of_layered h hl, List.append_nil]
  waiting := fun _ _ _ _ hmem => by cases hmem

lemma invariant_of_reaches (h : g.Ordered) (hsolid : ∀ grp ∈ g.hints.groups, Solid grp)
    (hreach : ReflTransGen Advances (start g) p) : Invariant g p := by
  induction hreach with
  | refl => exact invariant_start h
  | tail _ hstep inv =>
    rcases advance_spec h hsolid inv with ⟨hnone, -⟩ | ⟨q, hq, inv', -⟩
    · cases hnone.symm.trans hstep
    · obtain rfl := Option.some.inj (Except.ok.inj (hq.symm.trans hstep))
      exact inv'

/-- Every schedule in the making keeps every group. -/
theorem kept_of_reaches (h : g.Ordered) (hc : g.Closed) (hl : g.Layered rank)
    (hreach : ReflTransGen Advances (start g) p) : Invariant g p ∧ Kept g p := by
  refine ⟨invariant_of_reaches h hl.solid hreach, ?_⟩
  induction hreach with
  | refl => exact kept_start h hl
  | tail hbefore hstep hkept => exact hkept.step h hc hl (invariant_of_reaches h hl.solid hbefore) hstep

lemma reaches_run {fuel : Nat} (hrun : run fuel p = .ok p') : ReflTransGen Advances p p' := by
  induction fuel generalizing p with
  | zero => exact Except.ok.inj hrun ▸ .refl
  | succ fuel ih =>
    rw [run] at hrun
    obtain ⟨next, hadvance, hrun⟩ := Checked.bind_eq_ok.1 hrun
    cases next with
    | none => exact Except.ok.inj hrun ▸ .refl
    | some q => exact .head hadvance (ih hrun)

end Greedy

/-! ### Groups of one depth -/

namespace Graph

variable {known : DepthMap}

lemma mem_level {d : Nat} {id : NodeId} : id ∈ PerformancePass.level g known d ↔
    ∃ n ∈ g.nodes, n.isOperation = true ∧ List.lookup n.id known = some d ∧ n.id = id := by
  unfold PerformancePass.level
  simp [and_assoc]

/-- The members of the groups are the levels of at least two operations. -/
lemma levels_members (hlevels : PerformancePass.levels g = .ok (.ok g.hints)) (hknown : g.depths = .ok (.ok known)) :
    ∃ last, (∀ id d, List.lookup id known = some d → d ≤ last) ∧ (∀ grp ∈ g.hints.groups, grp.Made) ∧
      g.hints.groups.map (·.members) =
        ((List.range (last + 1)).map fun d => ascending (PerformancePass.level g known d)).filter
          (fun ms => 2 ≤ ms.length) := by
  unfold PerformancePass.levels at hlevels
  rw [hknown, Checked.ok_bind] at hlevels
  have hhints := Except.ok.inj (Except.ok.inj hlevels)
  refine ⟨(known.map (·.2)).max?.getD 0, fun id d hd => ?_, ?_, ?_⟩
  · have hmem : d ∈ known.map (·.2) := by
      obtain ⟨l, r, rfl, -⟩ := List.lookup_eq_some_iff.1 hd
      simp
    cases hmax : (known.map (·.2)).max? with
    | none =>
      rw [List.max?_eq_none_iff.1 hmax] at hmem
      cases hmem
    | some top => exact (List.max?_eq_some_iff.1 hmax).2 d hmem
  · rw [← hhints]
    exact Hints.addAll_made _ fun grp hgrp => by cases hgrp
  · rw [← hhints, Hints.addAll_members, List.map_map]
    rfl

/-- The groups of the levels are apart from each other, and each is of one depth. -/
lemma layered_of_levels (hc : g.Closed) (hlevels : PerformancePass.levels g = .ok (.ok g.hints))
    (hdepths : g.depths = .ok (.ok known)) (hknown : g.Known known g.ids) :
    g.Layered (fun id => (List.lookup id known).getD 0) := by
  obtain ⟨last, -, hmade, hmembers⟩ := levels_members hlevels hdepths
  have hlevel : ∀ grp ∈ g.hints.groups, ∃ d, grp.members = ascending (PerformancePass.level g known d) := by
    intro grp hgrp
    have hmem := List.mem_map_of_mem (f := (·.members)) hgrp
    rw [hmembers, List.mem_filter, List.mem_map] at hmem
    obtain ⟨⟨d, -, heq⟩, -⟩ := hmem
    exact ⟨d, heq.symm⟩
  refine ⟨hknown.ranked hc, fun grp hgrp => (hmade grp hgrp).solid, fun grp hgrp id hid => ?_,
    fun grp hgrp a ha b hb => ?_, ?_⟩
  · obtain ⟨d, heq⟩ := hlevel grp hgrp
    rw [heq, mem_ascending] at hid
    obtain ⟨n, hn, -, -, rfl⟩ := mem_level.1 hid
    exact id_mem_ids hn
  · obtain ⟨d, heq⟩ := hlevel grp hgrp
    rw [heq, mem_ascending] at ha hb
    obtain ⟨m, -, -, hm, rfl⟩ := mem_level.1 ha
    obtain ⟨n, -, -, hn, rfl⟩ := mem_level.1 hb
    simp only [hm, hn]
  · have hlists : (g.hints.groups.map (·.members)).Pairwise List.Disjoint := by
      rw [hmembers]
      refine List.Pairwise.filter _ (List.pairwise_map.2 (List.nodup_range.imp fun {d e} hne id hd he => hne ?_))
      obtain ⟨m, -, -, hm, rfl⟩ := mem_level.1 (mem_ascending.1 hd)
      obtain ⟨n, -, -, hn, hid⟩ := mem_level.1 (mem_ascending.1 he)
      rw [hid] at hn
      exact Option.some.inj (hm.symm.trans hn)
    exact List.pairwise_map.1 hlists

/-- Two operations of one depth are members of one group. -/
lemma exists_group_of_isDepth (hlevels : PerformancePass.levels g = .ok (.ok g.hints))
    (hdepths : g.depths = .ok (.ok known)) (hknown : g.Known known g.ids) (h : g.Ordered) {m n : Node} {d : Nat}
    (hm : m ∈ g.nodes) (hn : n ∈ g.nodes) (hne : m ≠ n) (hmop : m.isOperation = true)
    (hnop : n.isOperation = true) (hmd : g.IsDepth m.id d) (hnd : g.IsDepth n.id d) :
    ∃ grp ∈ g.hints.groups, m.id ∈ grp.members ∧ n.id ∈ grp.members := by
  obtain ⟨last, hlast, -, hmembers⟩ := levels_members hlevels hdepths
  have hmem : ∀ x ∈ g.nodes, x.isOperation = true → g.IsDepth x.id d →
      List.lookup x.id known = some d ∧ x.id ∈ ascending (PerformancePass.level g known d) := by
    intro x hx hop hdepth
    obtain ⟨e, he, hdepth'⟩ := hknown x.id (id_mem_ids hx)
    rw [← hdepth.eq hdepth'] at he
    exact ⟨he, mem_ascending.2 (mem_level.2 ⟨x, hx, hop, he, rfl⟩)⟩
  obtain ⟨hmlookup, hmin⟩ := hmem m hm hmop hmd
  obtain ⟨-, hnin⟩ := hmem n hn hnop hnd
  have htwo : 2 ≤ (ascending (PerformancePass.level g known d)).length := by
    have hids : [m.id, n.id].Nodup := by simpa using fun heq => hne (h.eq_of_id_eq hm hn heq)
    have hsub : [m.id, n.id] ⊆ ascending (PerformancePass.level g known d) := by simp [hmin, hnin]
    exact (List.subperm_of_subset hids hsub).length_le
  have hgroup : ascending (PerformancePass.level g known d) ∈ g.hints.groups.map (·.members) := by
    rw [hmembers, List.mem_filter, List.mem_map]
    refine ⟨⟨d, List.mem_range.2 ?_, rfl⟩, by simpa using htwo⟩
    exact Nat.lt_succ_of_le (hlast _ _ hmlookup)
  obtain ⟨grp, hgrp, heq⟩ := List.mem_map.1 hgroup
  exact ⟨grp, hgrp, heq ▸ hmin, heq ▸ hnin⟩

/-! ### The schedule -/

/-- A schedule under layered hints takes every group as one run. -/
lemma schedule_of_layered (h : g.Ordered) (hc : g.Closed) (ha : g.Acyclic) (hl : g.Layered rank) :
    ∃ s, g.schedule = .ok (.ok s) ∧ s.groups.Perm g.hints.groups ∧
      ∀ grp ∈ s.groups, g.Together s.steps grp := by
  obtain ⟨s, hs, hfits⟩ := schedule_of_acyclic h hl.solid hc ha
  refine ⟨s, hs, ?_, fun grp hgrp => (hfits.groups grp hgrp).2⟩
  unfold schedule at hs
  dsimp only at hs
  obtain ⟨p, hrun, hs⟩ := Checked.bind_eq_ok.1 hs
  obtain ⟨-, hkept⟩ := Greedy.kept_of_reaches h hc hl (Greedy.reaches_run hrun)
  split at hs
  · cases hs
  obtain rfl := Except.ok.inj (Except.ok.inj hs)
  -- every node has been taken, so no group is still to come
  have hnone : p.pending = [] := by
    rw [List.eq_nil_iff_forall_not_mem]
    intro grp hgrp
    have hhint := hkept.mem_groups hgrp
    obtain ⟨m, hm⟩ := List.exists_mem_of_ne_nil _ (hl.solid grp hhint).2
    exact hkept.waiting grp hgrp m hm (hfits.once.mem_iff.2 (hl.present grp hhint hm))
  have hgroups := hkept.groups
  rwa [hnone, List.nil_append] at hgroups

/-- **The levels of a graph are scheduled as they are**, whatever the budgets of its nodes.  No chain of edges joins
two members of a group, operations of one depth share a group, no group is dropped before the schedule is made or
given up while it is, and in the end each stands as one run. -/
theorem schedule_keeps_levels (h : g.Ordered) (hdangling : g.dangling = []) (ha : g.Acyclic)
    (hlevels : PerformancePass.levels g = .ok (.ok g.hints)) :
    (∀ grp ∈ g.hints.groups, ∀ a ∈ grp.members, ∀ b ∈ grp.members, ¬ TransGen g.Feeds a b) ∧
    (∀ m ∈ g.nodes, ∀ n ∈ g.nodes, m ≠ n → m.isOperation = true → n.isOperation = true →
      (∃ d, g.IsDepth m.id d ∧ g.IsDepth n.id d) →
        ∃ grp ∈ g.hints.groups, m.id ∈ grp.members ∧ n.id ∈ grp.members) ∧
    Greedy.admissible g [] g.hints.groups = g.hints.groups ∧
    (∀ p, ReflTransGen Greedy.Advances (Greedy.start g) p → (p.pending ++ p.emitted).Perm g.hints.groups) ∧
    ∃ s, g.schedule = .ok (.ok s) ∧ s.groups.Perm g.hints.groups ∧
      ∀ grp ∈ s.groups, g.Together s.steps grp := by
  have hc : g.Closed := (dangling_eq_nil_iff h).1 hdangling
  obtain ⟨known, hdepths, hknown⟩ := depths_of_acyclic h hc ha
  have hl := layered_of_levels hc hlevels hdepths hknown
  refine ⟨fun grp hgrp a ha b hb => hl.antichain hgrp ha hb, ?_, Greedy.admissible_of_layered h hl,
    fun p hp => (Greedy.kept_of_reaches h hc hl hp).2.groups, schedule_of_layered h hc ha hl⟩
  rintro m hm n hn hne hmop hnop ⟨d, hmd, hnd⟩
  exact exists_group_of_isDepth hlevels hdepths hknown h hm hn hne hmop hnop hmd hnd

/-- Two levels of two operations each; of both levels one node has a tight budget. -/
def lattice : Graph where
  name := "lattice"
  nodes := [Node.plain 0 .input [] .scalar, Node.plain 1 (.operation .split) [0] .scalar,
    { Node.plain 2 (.operation .split) [0] .scalar with attrs := { Attributes.plain with coherence := .bounded 1.0 } },
    { Node.plain 3 (.operation .merge) [0, 2] .scalar with
      attrs := { Attributes.plain with coherence := .bounded 0.0 } },
    Node.plain 4 (.operation .interfere) [1, 2] .scalar]
  inputs := [0]
  outputs := []
  hints := ⟨[⟨0, [1, 2]⟩, ⟨1, [3, 4]⟩]⟩
  nextId := 5

theorem schedule_keeps_levels_lattice :
    ∃ s, lattice.schedule = .ok (.ok s) ∧ s.groups.Perm [⟨0, [1, 2]⟩, ⟨1, [3, 4]⟩] := by
  have hranked : lattice.Ranked (fun id => id) := by
    unfold Ranked
    decide
  obtain ⟨-, -, -, -, s, hs, hgroups, -⟩ :=
    schedule_keeps_levels (ordered_iff.2 (by decide)) (by decide) hranked.acyclic (by rfl)
  exact ⟨s, hs, hgroups⟩

end Graph

end Waveflow
