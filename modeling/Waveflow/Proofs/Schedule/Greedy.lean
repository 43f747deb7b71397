import Waveflow.Proofs.Graph.Order
import Waveflow.Proofs.Schedule.Precedence

/-!
# The loop of the schedule

A schedule in the making is determined by the numbers that it has taken, like an order (`Slot.seen`).
`Invariant` says what holds of it at any time: the steps are a course, the groups that were kept stand
together, and every step carries the number of its group.  Each of the three ways to go on keeps this
(`emit_none`, `emitGroup_spec`), so it holds when nothing is ready any more (`run_spec`).

Nothing is assumed about the groups beyond that they are made of at least two different numbers: a group
with a missing node is never full, and a full group has no member that was taken before.
-/

namespace Waveflow

variable {g : Graph} {done : List NodeId} {id : NodeId} {n : Node} {grp : ParallelGroup}

/-! ### Groups in a schedule -/

/-- Of two nodes that run side by side the first goes before: its coherence budget is tighter, or they
are equal and its number is smaller. -/
def Graph.Before (g : Graph) (a b : NodeId) : Prop :=
  ∃ m n, g.node? a = some m ∧ g.node? b = some n ∧
    (m.attrs.coherence.compare n.attrs.coherence = .lt ∨
      m.attrs.coherence.compare n.attrs.coherence = .eq ∧ a < b)

/-- The members of a group follow each other in order of precedence, each marked with the group. -/
def Graph.Together (g : Graph) (steps : List Step) (grp : ParallelGroup) : Prop :=
  ∃ (before : List Step) (order : List NodeId) (after : List Step),
    steps = before ++ order.map (fun id => ⟨id, some grp.id⟩) ++ after ∧
    order.Perm grp.members ∧ order.Pairwise g.Before

lemma Graph.Together.append {steps : List Step} (h : g.Together steps grp) (more : List Step) :
    g.Together (steps ++ more) grp := by
  obtain ⟨before, order, after, rfl, hperm, hsorted⟩ := h
  exact ⟨before, order, after ++ more, by simp only [List.append_assoc], hperm, hsorted⟩

/-- The members of a group stand among the steps that it is kept in. -/
lemma Graph.Together.mem {steps : List Step} (h : g.Together steps grp) (hid : id ∈ grp.members) :
    id ∈ steps.map (·.node) := by
  obtain ⟨before, order, after, rfl, hperm, -⟩ := h
  have hmem : id ∈ order := hperm.mem_iff.2 hid
  simp [hmem]

namespace Greedy

/-! ### Slots after some numbers have been taken -/

/-- The slot of a node, after some numbers have been taken. -/
def Slot.seen (done : List NodeId) (n : Node) : Slot :=
  ⟨Waiting.seen (fun _ => true) done n, n.attrs.coherence⟩

lemma slots_eq (h : g.Ordered) : slots g = g.nodes.map (Slot.seen []) := by
  unfold slots
  rw [Graph.byNumber_eq h]
  refine List.map_congr_left fun n hn => ?_
  unfold Graph.waitingOf Slot.seen Waiting.seen
  rw [Graph.edgesInto_eq h hn]
  simp

lemma Slot.after_seen (hnew : id ∉ done) : (Slot.seen done n).after id = .ok (Slot.seen (done ++ [id]) n) := by
  unfold Slot.after Slot.seen
  rw [Waiting.after_seen hnew]
  rfl

lemma take_seen (hnew : id ∉ done) (ns : List Node) :
    take id (ns.map (Slot.seen done)) = .ok (ns.map (Slot.seen (done ++ [id]))) := by
  induction ns with
  | nil => rfl
  | cons n ns ih =>
    rw [List.map_cons, take, Slot.after_seen hnew, Checked.ok_bind, ih]
    rfl

/-- A node can be taken: it has not been, and all its inputs have. -/
def Ready (done : List NodeId) (n : Node) : Prop := n.id ∉ done ∧ ∀ i ∈ n.inputs, i ∈ done

lemma isReady_seen : (Slot.seen done n).isReady = true ↔ Ready done n := by
  unfold Slot.seen Ready
  rw [Waiting.isReady_seen]
  simp

lemma mem_ready {s : Slot} (hs : s ∈ (g.nodes.map (Slot.seen done)).filter (·.isReady)) :
    ∃ n ∈ g.nodes, n.id = s.id ∧ Ready done n := by
  obtain ⟨hmem, hready⟩ := List.mem_filter.1 hs
  obtain ⟨n, hn, rfl⟩ := List.mem_map.1 hmem
  exact ⟨n, hn, rfl, isReady_seen.1 hready⟩

lemma stuck_of_first? (h : first? ((g.nodes.map (Slot.seen done)).filter (·.isReady)) = none) :
    g.Stuck (fun _ => true) done := by
  have hnil := List.filter_eq_nil_iff.1 (first?_eq_none h)
  intro n hn hleft
  have hnot := hnil _ (List.mem_map_of_mem hn)
  rw [isReady_seen] at hnot
  unfold Ready at hnot
  push Not at hnot
  obtain ⟨i, hi, hwait⟩ := hnot hleft
  exact ⟨i, hi, rfl, hwait⟩

/-! ### Full groups -/

/-- If all members have slots, the look-up of a group misses none of them. -/
lemma ids_memberSlots {slots : List Slot} (h : ∀ m ∈ grp.members, m ∈ slots.map (·.id)) :
    (memberSlots slots grp).map (·.id) = grp.members := by
  have hfind : ∀ m ∈ grp.members, ∃ s : Slot, slots.find? (·.id == m) = some s ∧ s.id = m := by
    intro m hm
    obtain ⟨t, ht, rfl⟩ := List.mem_map.1 (h m hm)
    have hsome : (slots.find? (·.id == t.id)).isSome := List.find?_isSome.2 ⟨t, ht, beq_self_eq_true _⟩
    obtain ⟨s, hs⟩ := Option.isSome_iff_exists.1 hsome
    exact ⟨s, hs, by simpa using List.find?_some hs⟩
  unfold memberSlots
  rw [List.map_filterMap]
  conv_rhs => rw [← List.filterMap_some (l := grp.members)]
  refine List.filterMap_congr fun m hm => ?_
  obtain ⟨s, hs, hid⟩ := hfind m hm
  rw [hs, Option.map_some, hid]

lemma ready_of_isFull (hfull : isFull (g.nodes.map (Slot.seen done)) grp = true) (hid : id ∈ grp.members) :
    ∃ n ∈ g.nodes, n.id = id ∧ Ready done n := by
  unfold isFull at hfull
  have hany := List.all_eq_true.1 hfull id hid
  obtain ⟨s, hs, hboth⟩ := List.any_eq_true.1 hany
  obtain ⟨hid, hready⟩ := Bool.and_eq_true_iff.1 hboth
  obtain ⟨n, hn, hns, hr⟩ := mem_ready (List.mem_filter.2 ⟨hs, hready⟩)
  exact ⟨n, hn, hns.trans (by simpa using hid), hr⟩

/-- The slots of a full group are those of its members. -/
lemma memberSlots_of_isFull (hfull : isFull (g.nodes.map (Slot.seen done)) grp = true) :
    (memberSlots (g.nodes.map (Slot.seen done)) grp).map (·.id) = grp.members := by
  refine ids_memberSlots fun id hid => ?_
  obtain ⟨n, hn, rfl, -⟩ := ready_of_isFull hfull hid
  exact List.mem_map.2 ⟨Slot.seen done n, List.mem_map_of_mem hn, rfl⟩

lemma before_of_precedes (h : g.Ordered) {s t : Slot} (hs : s ∈ g.nodes.map (Slot.seen done))
    (ht : t ∈ g.nodes.map (Slot.seen done)) (hst : precedes s t = true) : g.Before s.id t.id := by
  obtain ⟨m, hm, rfl⟩ := List.mem_map.1 hs
  obtain ⟨n, hn, rfl⟩ := List.mem_map.1 ht
  refine ⟨m, n, h.node?_of_mem hm, h.node?_of_mem hn, ?_⟩
  unfold precedes at hst
  split at hst
  · next hlt => exact .inl hlt
  · next heq => exact .inr ⟨heq, by simpa using hst⟩
  · next hgt => cases hst

/-- The members of a full group in the order in which they are taken. -/
lemma members_order (h : g.Ordered) (hfull : isFull (g.nodes.map (Slot.seen done)) grp = true)
    (hnodup : grp.members.Nodup) :
    let order := ((memberSlots (g.nodes.map (Slot.seen done)) grp).foldr insertSlot []).map (·.id)
    order.Perm grp.members ∧ order.Pairwise g.Before := by
  intro order
  have hids := memberSlots_of_isFull hfull
  have hperm := foldr_insertSlot_perm (memberSlots (g.nodes.map (Slot.seen done)) grp)
  refine ⟨?_, ?_⟩
  · have hmap := hperm.map (fun s : Slot => s.id)
    rwa [hids] at hmap
  · rw [List.pairwise_map]
    have hsorted := foldr_insertSlot_pairwise (hids ▸ hnodup)
    refine hsorted.imp_of_mem fun {s t} hs ht hst => ?_
    have hslot : ∀ u ∈ (memberSlots (g.nodes.map (Slot.seen done)) grp).foldr insertSlot [],
        u ∈ g.nodes.map (Slot.seen done) := by
      intro u hu
      obtain ⟨m, -, hm⟩ := List.mem_filterMap.1 (hperm.mem_iff.1 hu)
      exact List.mem_of_find?_eq_some hm
    exact before_of_precedes h (hslot s hs) (hslot t ht) hst

/-! ### One step -/

/-- The numbers that have been taken. -/
def Progress.taken (p : Progress) : List NodeId := p.steps.map (·.node)

/-- The group has members, none of them twice. -/
def Solid (grp : ParallelGroup) : Prop := grp.members.Nodup ∧ grp.members ≠ []

/-- What holds of a schedule in the making. -/
structure Invariant (g : Graph) (p : Progress) : Prop where
  /-- The slots are what the numbers taken so far have left of them. -/
  slots : p.slots = g.nodes.map (Slot.seen p.taken)
  /-- Every number was taken after its inputs. -/
  course : g.Course (fun _ => true) p.taken
  pending : ∀ grp ∈ p.pending, grp ∈ g.hints.groups
  emitted : ∀ grp ∈ p.emitted, grp ∈ g.hints.groups ∧ g.Together p.steps grp
  /-- A step is marked with a group exactly if its node is a member. -/
  tags : ∀ s ∈ p.steps, ∀ k, s.group = some k ↔ ∃ grp ∈ p.emitted, grp.id = k ∧ s.node ∈ grp.members

variable {p : Progress}

lemma emit_eq (hslots : p.slots = g.nodes.map (Slot.seen p.taken)) (hnew : id ∉ p.taken) (k : Option GroupId) :
    emit id k p = .ok { p with slots := g.nodes.map (Slot.seen (p.taken ++ [id])),
                               steps := p.steps ++ [⟨id, k⟩] } := by
  unfold emit
  rw [hslots, take_seen hnew]
  rfl

lemma emitMembers_eq {k : GroupId} {ids : List NodeId} (hslots : p.slots = g.nodes.map (Slot.seen p.taken))
    (hnodup : (p.taken ++ ids).Nodup) :
    emitMembers k ids p = .ok { p with slots := g.nodes.map (Slot.seen (p.taken ++ ids)),
                                       steps := p.steps ++ ids.map (fun id => ⟨id, some k⟩) } := by
  induction ids generalizing p with
  | nil =>
    rw [emitMembers, List.map_nil, List.append_nil, List.append_nil, ← hslots]
  | cons id rest ih =>
    have hnew : id ∉ p.taken := by
      rw [List.nodup_append] at hnodup
      exact fun hmem => hnodup.2.2 id hmem id (List.mem_cons_self ..) rfl
    have hdone : (p.steps ++ [(⟨id, some k⟩ : Step)]).map (·.node) = p.taken ++ [id] := List.map_append
    rw [emitMembers, emit_eq hslots hnew, Checked.ok_bind, ih]
    · simp [Progress.taken]
    · unfold Progress.taken
      dsimp only
      rw [hdone]
      rfl
    · unfold Progress.taken
      dsimp only
      rw [hdone]
      simpa using hnodup

/-- A node that is ready is taken alone; groups may be given up. -/
theorem emit_none (inv : Invariant g p) (hn : n ∈ g.nodes) (hready : Ready p.taken n)
    {pending : List ParallelGroup} (hsub : pending ⊆ p.pending) :
    ∃ p', emit n.id none { p with pending := pending } = .ok p' ∧ Invariant g p' ∧
      p'.steps.length = p.steps.length + 1 := by
  have heq := emit_eq (p := { p with pending := pending }) inv.slots hready.1 none
  refine ⟨_, heq, ?_, by simp⟩
  have hdone : (p.steps ++ [(⟨n.id, none⟩ : Step)]).map (·.node) = p.taken ++ [n.id] := List.map_append
  refine ⟨?_, ?_, fun grp hgrp => inv.pending grp (hsub hgrp), ?_, ?_⟩
  · exact congrArg (fun l => g.nodes.map (Slot.seen l)) hdone.symm
  · exact hdone ▸ inv.course.take hn hready.1 fun i hi _ => hready.2 i hi
  · intro grp hgrp
    obtain ⟨hhint, htogether⟩ := inv.emitted grp hgrp
    exact ⟨hhint, htogether.append _⟩
  · intro s hs k
    rcases List.mem_append.1 hs with hs | hs
    · exact inv.tags s hs k
    · -- the members of the groups in the schedule have all been taken before
      rw [List.mem_singleton.1 hs]
      constructor
      · intro hk
        simp at hk
      · rintro ⟨grp, hgrp, -, hmem⟩
        exact absurd ((inv.emitted grp hgrp).2.mem hmem) hready.1

/-- The run of a new group is marked with it.  Its members are new, so no step before is one of them, and none of
them is in a group before. -/
lemma Invariant.tags_append {order : List NodeId} (inv : Invariant g p) (hperm : order.Perm grp.members)
    (hnew : ∀ id ∈ grp.members, id ∉ p.taken) :
    ∀ s ∈ p.steps ++ order.map (fun id => (⟨id, some grp.id⟩ : Step)), ∀ k,
      s.group = some k ↔ ∃ grp' ∈ p.emitted ++ [grp], grp'.id = k ∧ s.node ∈ grp'.members := by
  intro s hs k
  rcases List.mem_append.1 hs with hs | hs
  · rw [inv.tags s hs k]
    constructor
    · rintro ⟨grp', hgrp', hk, hmem⟩
      exact ⟨grp', List.mem_append_left _ hgrp', hk, hmem⟩
    · rintro ⟨grp', hgrp', hk, hmem⟩
      rcases List.mem_append.1 hgrp' with hgrp' | hgrp'
      · exact ⟨grp', hgrp', hk, hmem⟩
      · rw [List.mem_singleton.1 hgrp'] at hmem
        exact absurd (List.mem_map_of_mem hs) (hnew _ hmem)
  · obtain ⟨id, hid, rfl⟩ := List.mem_map.1 hs
    have hmem : id ∈ grp.members := hperm.mem_iff.1 hid
    constructor
    · intro hk
      exact ⟨grp, List.mem_append_right _ (List.mem_singleton.2 rfl), Option.some.inj hk, hmem⟩
    · rintro ⟨grp', hgrp', rfl, hmem'⟩
      rcases List.mem_append.1 hgrp' with hgrp' | hgrp'
      · exact absurd ((inv.emitted grp' hgrp').2.mem hmem') (hnew id hmem)
      · rw [List.mem_singleton.1 hgrp']

/-- What taking a full group does: its members are taken in order of precedence. -/
lemma emitGroup_eq (h : g.Ordered) (hslots : p.slots = g.nodes.map (Slot.seen p.taken))
    (hcourse : g.Course (fun _ => true) p.taken) (hnodup : grp.members.Nodup) (hfull : isFull p.slots grp = true) :
    ∃ order, order.Perm grp.members ∧ order.Pairwise g.Before ∧ g.Course (fun _ => true) (p.taken ++ order) ∧
      emitGroup grp p = .ok { slots := g.nodes.map (Slot.seen (p.taken ++ order)),
                              pending := p.pending.erase grp,
                              steps := p.steps ++ order.map (fun id => ⟨id, some grp.id⟩),
                              emitted := p.emitted ++ [grp] } := by
  rw [hslots] at hfull
  obtain ⟨hperm, hsorted⟩ := members_order h hfull hnodup
  let order := ((memberSlots (g.nodes.map (Slot.seen p.taken)) grp).foldr insertSlot []).map (·.id)
  have hready : ∀ id ∈ order, ∃ n ∈ g.nodes, n.id = id ∧ Ready p.taken n :=
    fun id hid => ready_of_isFull hfull (hperm.mem_iff.1 hid)
  have hall : g.Course (fun _ => true) (p.taken ++ order) := by
    refine hcourse.append (hperm.nodup_iff.2 hnodup) fun id hid => ?_
    obtain ⟨n, hn, hid, hleft, hin⟩ := hready id hid
    exact ⟨n, hn, hid, hleft, fun i hi _ => hin i hi⟩
  have hrun := emitMembers_eq (p := { p with pending := p.pending.erase grp }) (k := grp.id) hslots hall.nodup
  refine ⟨order, hperm, hsorted, hall, ?_⟩
  have hmembers : ((memberSlots p.slots grp).foldr insertSlot []).map (·.id) = order := by rw [hslots]
  unfold emitGroup
  dsimp only
  rw [hmembers, hrun]
  rfl

/-- A full group is taken as one run. -/
theorem emitGroup_spec (h : g.Ordered) (inv : Invariant g p) (hsolid : Solid grp) (hpending : grp ∈ p.pending)
    (hfull : isFull p.slots grp = true) :
    ∃ p', emitGroup grp p = .ok p' ∧ Invariant g p' ∧ p.steps.length < p'.steps.length := by
  obtain ⟨order, hperm, hsorted, hcourse, hrun⟩ := emitGroup_eq h inv.slots inv.course hsolid.1 hfull
  rw [inv.slots] at hfull
  have hdone : (p.steps ++ order.map (fun id => (⟨id, some grp.id⟩ : Step))).map (·.node) = p.taken ++ order := by
    simp [Progress.taken, Function.comp_def]
  refine ⟨_, hrun, ⟨?_, ?_, ?_, ?_, ?_⟩, ?_⟩
  · exact congrArg (fun l => g.nodes.map (Slot.seen l)) hdone.symm
  · exact hdone ▸ hcourse
  · exact fun grp' hgrp' => inv.pending grp' (List.mem_of_mem_erase hgrp')
  · intro grp' hgrp'
    rcases List.mem_append.1 hgrp' with hgrp' | hgrp'
    · obtain ⟨hhint, htogether⟩ := inv.emitted grp' hgrp'
      exact ⟨hhint, htogether.append _⟩
    · rw [List.mem_singleton.1 hgrp']
      exact ⟨inv.pending grp hpending, p.steps, order, [], by simp, hperm, hsorted⟩
  · refine inv.tags_append hperm fun id hid => ?_
    obtain ⟨n, -, rfl, hleft, -⟩ := ready_of_isFull hfull hid
    exact hleft
  · have hpos : 0 < order.length := by
      rw [hperm.length_eq]
      exact List.length_pos_of_ne_nil hsolid.2
    rw [List.length_append, List.length_map]
    omega

/-- One step takes at least one number, unless none is ready. -/
theorem advance_spec (h : g.Ordered) (hsolid : ∀ grp ∈ g.hints.groups, Solid grp) (inv : Invariant g p) :
    advance p = .ok none ∧ g.Stuck (fun _ => true) p.taken ∨
      ∃ p', advance p = .ok (some p') ∧ Invariant g p' ∧ p.steps.length < p'.steps.length := by
  unfold advance
  dsimp only
  split
  · next hnone =>
    rw [inv.slots] at hnone
    exact .inl ⟨rfl, stuck_of_first? hnone⟩
  · next best hbest =>
    right
    split
    · next grp hgrp =>
      obtain ⟨hpending, hfull⟩ := List.mem_filter.1 (firstGroup?_mem hgrp)
      obtain ⟨p', hrun, inv', hlen⟩ := emitGroup_spec h inv (hsolid grp (inv.pending grp hpending)) hpending hfull
      exact ⟨p', by rw [hrun, Checked.map_ok], inv', hlen⟩
    · split
      · next s hs =>
        have hmem := (List.mem_filter.1 (first?_mem hs)).1
        rw [inv.slots] at hmem
        obtain ⟨n, hn, hid, hready⟩ := mem_ready hmem
        obtain ⟨p', hrun, inv', hlen⟩ := emit_none inv hn hready (List.Subset.refl p.pending)
        refine ⟨p', ?_, inv', by omega⟩
        rw [← hid, hrun, Checked.map_ok]
      · have hmem := first?_mem hbest
        rw [inv.slots] at hmem
        obtain ⟨n, hn, hid, hready⟩ := mem_ready hmem
        have hsub : p.pending.filter (fun grp => !grp.members.contains best.id) ⊆ p.pending :=
          fun grp hgrp => (List.mem_filter.1 hgrp).1
        obtain ⟨p', hrun, inv', hlen⟩ := emit_none inv hn hready hsub
        refine ⟨p', ?_, inv', by omega⟩
        rw [← hid] at hrun ⊢
        rw [hrun, Checked.map_ok]

/-! ### The whole run -/

theorem run_spec (h : g.Ordered) (hsolid : ∀ grp ∈ g.hints.groups, Solid grp) (fuel : Nat)
    (inv : Invariant g p) (hfuel : g.nodes.length < p.steps.length + fuel) :
    ∃ p', run fuel p = .ok p' ∧ Invariant g p' ∧ g.Stuck (fun _ => true) p'.taken := by
  induction fuel generalizing p with
  | zero =>
    have hle := inv.course.length_le
    unfold Progress.taken at hle
    rw [List.length_map] at hle
    omega
  | succ fuel ih =>
    rw [run]
    rcases advance_spec h hsolid inv with ⟨hrun, hstuck⟩ | ⟨p', hrun, inv', hlen⟩
    · exact ⟨p, by rw [hrun, Checked.ok_bind]; rfl, inv, hstuck⟩
    · obtain ⟨p'', hrest, inv'', hstuck⟩ := ih inv' (by omega)
      exact ⟨p'', by rw [hrun, Checked.ok_bind]; exact hrest, inv'', hstuck⟩

lemma admissible_subset (claimed : List NodeId) (groups : List ParallelGroup) :
    admissible g claimed groups ⊆ groups := by
  induction groups generalizing claimed with
  | nil => simp [admissible]
  | cons grp rest ih =>
    rw [admissible]
    dsimp only
    split
    · exact List.cons_subset_cons grp (ih _)
    · exact List.subset_cons_of_subset grp (ih _)

lemma invariant_start (h : g.Ordered) : Invariant g (start g) where
  slots := slots_eq h
  course := .start
  pending := fun _ hgrp => admissible_subset [] _ hgrp
  emitted := fun _ hgrp => by cases hgrp
  tags := fun _ hs => by cases hs

/-- A schedule, or a refusal, comes from a course that ran until it was stuck. -/
theorem exists_run (h : g.Ordered) (hsolid : ∀ grp ∈ g.hints.groups, Solid grp) :
    ∃ p, Invariant g p ∧ g.Stuck (fun _ => true) p.taken ∧
      g.schedule = .ok (if p.steps.length < g.nodes.length
        then .error (.cyclicDependency (g.ids.filter (fun id => !p.taken.contains id)))
        else .ok ⟨p.steps, p.emitted⟩) := by
  obtain ⟨p, hrun, inv, hstuck⟩ := run_spec h hsolid (g.nodes.length + (start g).pending.length + 1)
    (invariant_start h) (by omega)
  refine ⟨p, inv, hstuck, ?_⟩
  unfold Graph.schedule
  dsimp only
  rw [hrun, Checked.ok_bind]
  split <;> rfl

end Greedy

end Waveflow
