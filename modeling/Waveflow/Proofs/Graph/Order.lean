import Waveflow.Graph.Order
import Waveflow.Proofs.Checked
import Waveflow.Proofs.Graph.Course

/-!
# Orders are courses

What is still owed while numbers are taken depends only on which numbers have been taken:
`Waiting.seen` is that state, and taking one more number leads from one such state to the next without
ever counting below zero.  So `Graph.order` runs a course until it is stuck, and it gives an order
exactly when the graph has no cycle (`order_of_acyclic`, `acyclic_of_order`).
-/

namespace Waveflow

variable {g : Graph} {counts : NodeId → Bool} {done : List NodeId} {id : NodeId} {n : Node}

/-! ### What is owed -/

namespace Waiting

/-- A node that waits, after some numbers have been taken. -/
def seen (counts : NodeId → Bool) (done : List NodeId) (n : Node) : Waiting :=
  ⟨n.id, n.inputs.filter counts, ((n.inputs.filter counts).filter (fun i => !done.contains i)).length,
    done.contains n.id⟩

lemma length_filter_snoc (hnew : id ∉ done) (xs : List NodeId) :
    (xs.filter (fun i => !done.contains i)).length =
      xs.count id + (xs.filter (fun i => !(done ++ [id]).contains i)).length := by
  induction xs with
  | nil => simp
  | cons x xs ih =>
    by_cases hx : x = id
    · subst hx
      simp [hnew] at ih ⊢
      omega
    · by_cases hd : x ∈ done
      · simpa [hx, hd] using ih
      · simp [hx, hd] at ih ⊢
        omega

/-- Taking a number pays exactly for the edges from it. -/
theorem after_seen (hnew : id ∉ done) :
    (seen counts done n).after id = .ok (seen counts (done ++ [id]) n) := by
  have hlen := length_filter_snoc hnew (n.inputs.filter counts)
  have hpaid : subCount (seen counts done n).owed ((seen counts done n).inputs.count id) =
      .ok (seen counts (done ++ [id]) n).owed := by
    unfold seen
    dsimp only
    rw [hlen, subCount_eq_ok (Nat.le_add_right _ _), Nat.add_sub_cancel_left]
  have htaken : ((seen counts done n).taken || (seen counts done n).id == id) =
      (seen counts (done ++ [id]) n).taken := by
    unfold seen
    simp [List.contains_eq_mem, Bool.beq_eq_decide_eq]
  unfold after
  rw [hpaid, Checked.ok_bind, Checked.pure_eq, htaken]
  rfl

lemma take_seen (hnew : id ∉ done) (ns : List Node) :
    take id (ns.map (seen counts done)) = .ok (ns.map (seen counts (done ++ [id]))) := by
  induction ns with
  | nil => rfl
  | cons n ns ih =>
    rw [List.map_cons, take, after_seen hnew, Checked.ok_bind, ih]
    rfl

/-- A number is ready when everything it waits for has been taken and it has not. -/
lemma isReady_seen : (seen counts done n).isReady = true ↔
    n.id ∉ done ∧ ∀ i ∈ n.inputs, counts i = true → i ∈ done := by
  unfold isReady seen
  simp only [Bool.and_eq_true, beq_iff_eq, List.length_eq_zero_iff, List.filter_eq_nil_iff,
    Bool.not_eq_true', List.contains_eq_mem, decide_eq_false_iff_not, List.mem_filter]
  constructor
  · rintro ⟨howed, hleft⟩
    exact ⟨hleft, fun i hi hc => by simpa using howed i ⟨hi, hc⟩⟩
  · rintro ⟨hleft, hall⟩
    exact ⟨fun i hi => by simpa using hall i hi.1 hi.2, hleft⟩

lemma next?_eq_none (h : next? (g.nodes.map (seen counts done)) = none) : g.Stuck counts done := by
  unfold next? at h
  rw [List.min?_eq_none_iff, List.map_eq_nil_iff, List.filter_eq_nil_iff] at h
  intro n hn hleft
  have hnot := h _ (List.mem_map_of_mem hn)
  rw [isReady_seen] at hnot
  push Not at hnot
  exact hnot hleft

lemma next?_eq_some (h : next? (g.nodes.map (seen counts done)) = some id) :
    ∃ n ∈ g.nodes, n.id = id ∧ n.id ∉ done ∧ ∀ i ∈ n.inputs, counts i = true → i ∈ done := by
  unfold next? at h
  obtain ⟨w, hw, hid⟩ := List.mem_map.1 (List.min?_mem h)
  obtain ⟨hw, hready⟩ := List.mem_filter.1 hw
  obtain ⟨n, hn, rfl⟩ := List.mem_map.1 hw
  exact ⟨n, hn, hid, isReady_seen.1 hready⟩

/-- Numbers are taken along a course until it is stuck. -/
theorem run_seen (fuel : Nat) (hc : g.Course counts done) (hfuel : g.nodes.length ≤ done.length + fuel) :
    ∃ more, run fuel (g.nodes.map (seen counts done)) = .ok more ∧ g.Course counts (done ++ more) ∧
      g.Stuck counts (done ++ more) := by
  induction fuel generalizing done with
  | zero =>
    refine ⟨[], rfl, by simpa using hc, ?_⟩
    intro n hn hleft
    rw [List.append_nil] at hleft
    exact absurd ((hc.perm_of_length hfuel).mem_iff.2 (Graph.id_mem_ids hn)) hleft
  | succ fuel ih =>
    rw [run]
    split
    · next hnone =>
      exact ⟨[], rfl, by simpa using hc, by simpa using next?_eq_none hnone⟩
    · next id hsome =>
      obtain ⟨n, hn, rfl, hleft, hready⟩ := next?_eq_some hsome
      have hfuel' : g.nodes.length ≤ (done ++ [n.id]).length + fuel := by
        rw [List.length_append, List.length_singleton]
        omega
      obtain ⟨more, hrun, hcourse, hstuck⟩ := ih (hc.take hn hleft hready) hfuel'
      refine ⟨n.id :: more, ?_, by simpa using hcourse, by simpa using hstuck⟩
      rw [take_seen hleft, Checked.ok_bind, hrun]
      rfl

end Waiting

/-! ### Orders -/

namespace Graph

lemma waiting_eq (h : g.Ordered) : g.waiting counts = g.nodes.map (Waiting.seen counts []) := by
  unfold waiting
  rw [byNumber_eq h]
  refine List.map_congr_left fun n hn => ?_
  unfold waitingOf Waiting.seen
  rw [edgesInto_eq h hn]
  simp

/-- The order of a graph is a course that ran until it was stuck. -/
theorem order_eq (h : g.Ordered) : ∃ done, g.Course g.contains done ∧ g.Stuck g.contains done ∧
    g.order = .ok (if done.length = g.nodes.length then .ok done
      else .error (g.ids.filter (fun id => !done.contains id))) := by
  obtain ⟨done, hrun, hcourse, hstuck⟩ :=
    Waiting.run_seen g.nodes.length (Course.start : g.Course g.contains []) (by simp)
  refine ⟨done, hcourse, hstuck, ?_⟩
  unfold order
  rw [waiting_eq h, hrun]
  rfl

lemma transGen_awaits (h : g.Ordered) {a b : NodeId} (hab : Relation.TransGen g.Feeds a b) (ha : a ∈ g.ids) :
    Relation.TransGen (g.Awaits g.contains) a b := by
  induction hab with
  | single hab => exact .single ⟨hab, (contains_iff h).2 ha⟩
  | tail _ hbc ih => exact ih.tail ⟨hbc, (contains_iff h).2 (transGen_mem_ids ‹_›)⟩

theorem acyclic_of_order (h : g.Ordered) {order : List NodeId} (ho : g.order = .ok (.ok order)) : g.Acyclic := by
  obtain ⟨done, hcourse, -, hdone⟩ := order_eq h
  rw [hdone] at ho
  have hlen : done.length = g.nodes.length := by
    by_contra hne
    rw [if_neg hne] at ho
    cases ho
  intro id hcycle
  have hid : id ∈ g.ids := transGen_mem_ids hcycle
  have hmem : id ∈ done := (hcourse.perm_of_length hlen.ge).mem_iff.2 hid
  exact (hcourse.sound h hmem .refl).2 (transGen_awaits h hcycle hid)

/-- A graph without a cycle has an order, in which every number stands once. -/
theorem order_of_acyclic (h : g.Ordered) (ha : g.Acyclic) :
    ∃ order, g.order = .ok (.ok order) ∧ g.Course g.contains order ∧ order.Perm g.ids := by
  obtain ⟨done, hcourse, hstuck, hdone⟩ := order_eq h
  have hsub : g.ids ⊆ done := by
    intro id hid
    refine (hcourse.mem_iff h hstuck).2 fun u hu => ⟨?_, fun hcycle => ?_⟩
    · rcases Relation.ReflTransGen.cases_head hu with rfl | ⟨v, huv, -⟩
      · exact hid
      · exact (contains_iff h).1 huv.2
    · exact ha u (Awaits.transGen_feeds hcycle)
  have hlen : g.nodes.length ≤ done.length := by
    have hle := (List.subperm_of_subset h.ids_nodup hsub).length_le
    unfold ids at hle
    rwa [List.length_map] at hle
  rw [if_pos (le_antisymm hcourse.length_le hlen)] at hdone
  exact ⟨done, hdone, hcourse, hcourse.perm_of_length hlen⟩

/-- The places in an order are a measure that grows along every edge. -/
theorem exists_ranked (h : g.Ordered) (hc : g.Closed) (ha : g.Acyclic) : ∃ rank, g.Ranked rank := by
  obtain ⟨order, -, hcourse, hperm⟩ := order_of_acyclic h ha
  refine ⟨order.idxOf, fun n hn i hi => ?_⟩
  have hcount : g.contains i = true := (contains_iff h).2 (hc n hn i hi)
  exact (hcourse.idxOf_lt h hn (hperm.mem_iff.2 (id_mem_ids hn)) hi hcount).2

end Graph

end Waveflow
