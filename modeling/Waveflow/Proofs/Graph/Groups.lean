import Waveflow.Proofs.Graph.Hints
import Mathlib.Data.List.Nodup
import Mathlib.Data.List.Induction

/-!
# The numbers of groups

Groups of hints are added, dropped and cleared away in any order.  A group keeps the number under which it was added,
and that is the number of groups that were there at the time, in 32 bits; so a number says which group is meant as long
as no addition finds its own number in use.  It can only be in use where groups have been dropped, with others kept,
since the hints were last without any, or where there are more groups than 32 bits can count: otherwise the groups are
numbered one after the other (`intact_or_dropped`).  Where it is, two groups have one number, and the later one can no
longer be looked up (`groups_identified`).
-/

namespace Waveflow

namespace Hints

variable {h : Hints} {grp : ParallelGroup} {cs : List Change} {c : Change} {members : List NodeId} {id : GroupId}

/-! ### Changes -/

/-- A change of hints. -/
inductive Change where
  | add (members : List NodeId)
  | retain (keep : ParallelGroup → Bool)
  | clear

/-- Make a change. -/
def change (h : Hints) : Change → Hints
  | .add members => (h.add members).2
  | .retain keep => h.retain keep
  | .clear => empty

/-- The hints after some changes, from none. -/
def after (cs : List Change) : Hints := cs.foldl change empty

/-- The numbers of the groups in order. -/
def numbers (h : Hints) : List GroupId := h.groups.map (·.id)

/-- The change adds a group under a number that is in use. -/
def Change.reuses (h : Hints) : Change → Bool
  | .add members => (h.add members).1.any h.numbers.contains
  | .retain _ | .clear => false

/-- None of the changes, made one after the other, adds a group under a number that is in use. -/
def isFresh (h : Hints) : List Change → Bool
  | [] => true
  | c :: cs => !c.reuses h && (h.change c).isFresh cs

/-- One of the changes has added the group, and has answered with its number. -/
def Added (cs : List Change) (grp : ParallelGroup) : Prop := ∃ before members later,
  cs = before ++ .add members :: later ∧ ((after before).add members).1 = some grp.id ∧
  grp.members = ascending members

/-- One of the changes has dropped groups, and the hints have not been cleared since. -/
def Dropped (cs : List Change) : Prop := ∃ before keep later,
  cs = before ++ .retain keep :: later ∧ (after before).retain keep ≠ after before ∧ Change.clear ∉ later

lemma after_snoc (cs : List Change) (c : Change) : after (cs ++ [c]) = (after cs).change c := by
  unfold after
  rw [List.foldl_append]
  rfl

lemma Added.snoc (hadded : Added cs grp) (c : Change) : Added (cs ++ [c]) grp := by
  obtain ⟨before, members, later, rfl, hid, hmembers⟩ := hadded
  exact ⟨before, members, later ++ [c], by simp, hid, hmembers⟩

lemma Dropped.snoc (hdropped : Dropped cs) (hc : c ≠ .clear) : Dropped (cs ++ [c]) := by
  obtain ⟨before, keep, later, rfl, hdrops, hlater⟩ := hdropped
  refine ⟨before, keep, later ++ [c], by simp, hdrops, ?_⟩
  simp [hlater, hc.symm]

/-- The number that the next group would have. -/
def nextNumber (h : Hints) : GroupId := h.groups.length % wordLimit

/-- Fewer than two different members are not added; others make the last group, under the next number. -/
lemma add_cases (h : Hints) (members : List NodeId) :
    h.add members = (none, h) ∨ 2 ≤ (ascending members).length ∧
      h.add members = (some h.nextNumber, ⟨h.groups ++ [⟨h.nextNumber, ascending members⟩]⟩) := by
  unfold add group?
  dsimp only
  by_cases hlen : (ascending members).length < 2
  · rw [if_pos hlen]
    exact .inl rfl
  · rw [if_neg hlen]
    exact .inr ⟨Nat.not_lt.1 hlen, rfl⟩

lemma add_eq_some (hadd : (h.add members).1 = some id) : 2 ≤ (ascending members).length ∧ id = h.nextNumber ∧
    (h.add members).2 = ⟨h.groups ++ [⟨id, ascending members⟩]⟩ := by
  rcases add_cases h members with hnone | ⟨hlen, hsome⟩
  · rw [hnone] at hadd
    cases hadd
  · rw [hsome] at hadd ⊢
    obtain rfl := Option.some.inj hadd
    exact ⟨hlen, rfl, rfl⟩

/-- A group that is there after a change was there before, or the change has added it. -/
lemma mem_change (hgrp : grp ∈ (h.change c).groups) : grp ∈ h.groups ∨
    ∃ members, c = .add members ∧ (h.add members).1 = some grp.id ∧ grp.members = ascending members ∧
      2 ≤ grp.members.length := by
  cases c with
  | add members =>
    have hmem : grp ∈ (h.add members).2.groups := hgrp
    rcases add_cases h members with hnone | ⟨hlen, hsome⟩
    · rw [hnone] at hmem
      exact .inl hmem
    · rw [hsome] at hmem
      rcases List.mem_append.1 hmem with hmem | hmem
      · exact .inl hmem
      · obtain rfl := List.mem_singleton.1 hmem
        exact .inr ⟨members, rfl, by rw [hsome], rfl, hlen⟩
  | retain keep => exact .inl (List.mem_filter.1 hgrp).1
  | clear => cases hgrp

/-- Whatever the changes are, a group that is there was added under its number, with ascending members. -/
lemma added_of_mem (hgrp : grp ∈ (after cs).groups) :
    grp.members.Pairwise (· < ·) ∧ 2 ≤ grp.members.length ∧ Added cs grp := by
  induction cs using List.reverseRecOn with
  | nil => cases hgrp
  | append_singleton cs c ih =>
    rw [after_snoc] at hgrp
    rcases mem_change hgrp with hgrp | ⟨members, rfl, hid, hmembers, hlen⟩
    · obtain ⟨hascend, hlen, hadded⟩ := ih hgrp
      exact ⟨hascend, hlen, hadded.snoc c⟩
    · exact ⟨hmembers ▸ ascending_pairwise members, hlen, cs, members, [], rfl, hid, hmembers⟩

/-! ### Numbers in use -/

/-- A change that reuses no number leaves the numbers apart. -/
lemma nodup_change (hnodup : h.numbers.Nodup) (hc : c.reuses h = false) : (h.change c).numbers.Nodup := by
  cases c with
  | add members =>
    rw [change]
    cases hid : (h.add members).1 with
    | none =>
      rcases add_cases h members with hnone | ⟨-, hsome⟩
      · rwa [hnone]
      · rw [hsome] at hid
        cases hid
    | some id =>
      obtain ⟨-, -, hgroups⟩ := add_eq_some hid
      have hnew : id ∉ h.numbers := by simpa [Change.reuses, hid] using hc
      rw [hgroups]
      unfold numbers at hnodup hnew ⊢
      rw [List.map_append, List.map_singleton]
      exact hnodup.append (List.nodup_singleton id) (List.disjoint_singleton.2 hnew)
  | retain keep => exact hnodup.sublist (List.filter_sublist.map _)
  | clear => exact List.nodup_nil

/-- The numbers stay apart as long as none is reused. -/
lemma nodup_foldl_change (hnodup : h.numbers.Nodup) (hfresh : h.isFresh cs = true) :
    (cs.foldl change h).numbers.Nodup := by
  induction cs generalizing h with
  | nil => exact hnodup
  | cons c cs ih =>
    rw [isFresh, Bool.and_eq_true, Bool.not_eq_true'] at hfresh
    exact ih (nodup_change hnodup hfresh.1) hfresh.2

lemma find?_isSome (hused : id ∈ h.numbers) : (h.find? id).isSome := by
  obtain ⟨grp, hgrp, rfl⟩ := List.mem_map.1 hused
  unfold find?
  rw [List.find?_isSome]
  exact ⟨grp, hgrp, by simp⟩

/-- Where the numbers are apart, each stands for its group. -/
lemma find?_of_mem (hnodup : h.numbers.Nodup) (hgrp : grp ∈ h.groups) : h.find? grp.id = some grp := by
  obtain ⟨found, hfound⟩ := Option.isSome_iff_exists.1 (find?_isSome (List.mem_map_of_mem hgrp))
  have hid : found.id = grp.id := by simpa using List.find?_some hfound
  rw [hfound, List.inj_on_of_nodup_map hnodup (List.mem_of_find?_eq_some hfound) hgrp hid]

/-- Groups are numbered one after the other, unless some have been dropped since the hints were last cleared. -/
lemma intact_or_dropped (cs : List Change) :
    (after cs).numbers = (List.range (after cs).groups.length).map (· % wordLimit) ∨ Dropped cs := by
  induction cs using List.reverseRecOn with
  | nil => exact .inl rfl
  | append_singleton cs c ih =>
    rw [after_snoc]
    cases c with
    | add members =>
      refine ih.imp (fun hrange => ?_) (·.snoc nofun)
      rw [change]
      rcases add_cases (after cs) members with hnone | ⟨-, hsome⟩
      · rwa [hnone]
      · rw [hsome]
        unfold numbers at hrange ⊢
        rw [List.map_append, hrange, List.length_append, List.length_singleton, List.range_succ, List.map_append]
        rfl
    | retain keep =>
      by_cases hdrops : (after cs).retain keep = after cs
      · refine ih.imp (fun hrange => ?_) (·.snoc nofun)
        rwa [change, hdrops]
      · exact .inr ⟨cs, keep, [], rfl, hdrops, List.not_mem_nil⟩
    | clear => exact .inl rfl

/-- As long as 32 bits can count the groups, the next number is free unless some have been dropped. -/
lemma dropped_of_mem_numbers (hused : (after cs).nextNumber ∈ (after cs).numbers)
    (hcount : (after cs).groups.length < wordLimit) : Dropped cs := by
  refine (intact_or_dropped cs).resolve_left fun hrange => ?_
  rw [hrange, nextNumber, Nat.mod_eq_of_lt hcount] at hused
  obtain ⟨k, hk, heq⟩ := List.mem_map.1 hused
  have hlt := List.mem_range.1 hk
  rw [Nat.mod_eq_of_lt (Nat.lt_trans hlt hcount)] at heq
  exact Nat.ne_of_lt hlt heq

/-- An addition under a number in use hides the group that it adds behind an earlier one. -/
lemma find?_add_of_mem (hadd : (h.add members).1 = some id) (hused : id ∈ h.numbers) :
    ¬ (h.add members).2.numbers.Nodup ∧ (h.add members).2.find? id = h.find? id ∧ (h.find? id).isSome := by
  obtain ⟨-, -, hgroups⟩ := add_eq_some hadd
  have hsome := find?_isSome hused
  rw [hgroups]
  refine ⟨fun hnodup => ?_, ?_, hsome⟩
  · unfold numbers at hnodup hused
    rw [List.map_append, List.map_singleton, List.nodup_append] at hnodup
    exact hnodup.2.2 id hused id (List.mem_singleton_self id) rfl
  · unfold find? at hsome ⊢
    rw [List.find?_append, Option.or_of_isSome hsome]

/-- **A number stands for its group as long as no addition reuses it.**  After any changes the groups that are there
have two ascending members at least, and the numbers that their additions have answered.  The numbers are distinct, and
looking one up gives the group that was added under it, if no addition has found its number in use.  One that does gives
a second group the number of an earlier one, which alone is found by it from then on; and that takes changes that have
dropped groups since the hints were last cleared, or more groups than 32 bits can count. -/
theorem groups_identified (cs : List Change) :
    (∀ grp ∈ (after cs).groups, grp.members.Pairwise (· < ·) ∧ 2 ≤ grp.members.length ∧ Added cs grp) ∧
    (empty.isFresh cs = true →
      (after cs).numbers.Nodup ∧ ∀ grp ∈ (after cs).groups, (after cs).find? grp.id = some grp) ∧
    (∀ members id, ((after cs).add members).1 = some id → id ∈ (after cs).numbers →
      ¬ (after (cs ++ [.add members])).numbers.Nodup ∧
      (after (cs ++ [.add members])).find? id = (after cs).find? id ∧ ((after cs).find? id).isSome ∧
      (Dropped cs ∨ wordLimit ≤ (after cs).groups.length)) := by
  refine ⟨fun grp hgrp => added_of_mem hgrp, fun hfresh => ?_, fun members id hadd hused => ?_⟩
  · have hnodup : (after cs).numbers.Nodup := nodup_foldl_change List.nodup_nil hfresh
    exact ⟨hnodup, fun grp hgrp => find?_of_mem hnodup hgrp⟩
  · obtain ⟨hnodup, hfind, hsome⟩ := find?_add_of_mem hadd hused
    rw [after_snoc]
    obtain ⟨-, rfl, -⟩ := add_eq_some hadd
    exact ⟨hnodup, hfind, hsome, (Nat.lt_or_ge _ _).imp_left (dropped_of_mem_numbers hused)⟩

/-- The last groups are dropped before another is added. -/
def refilling : List Change := [.add [2, 1, 2], .add [3, 3], .add [3, 4], .retain (·.id == 0), .add [6, 5]]

/-- Dropping the last groups does no harm: their numbers are given out again, to other groups. -/
theorem groups_identified_refilled : empty.isFresh refilling = true ∧ (after refilling).numbers.Nodup :=
  have hfresh : empty.isFresh refilling = true := by decide
  ⟨hfresh, ((groups_identified refilling).2.1 hfresh).1⟩

/-- The first of two groups is dropped. -/
def dropping : List Change := [.add [1, 2], .add [3, 4], .retain (·.id != 0)]

/-- The next group is added under the number of the second one, and cannot be looked up. -/
theorem reused_number : ((after dropping).add [5, 6]).1 = some 1 ∧
    (after (dropping ++ [.add [5, 6]])).groups = [⟨1, [3, 4]⟩, ⟨1, [5, 6]⟩] ∧
    ¬ (after (dropping ++ [.add [5, 6]])).numbers.Nodup ∧
    (after (dropping ++ [.add [5, 6]])).find? 1 = some ⟨1, [3, 4]⟩ :=
  ⟨by decide, by decide, by decide, by decide⟩

end Hints

end Waveflow
