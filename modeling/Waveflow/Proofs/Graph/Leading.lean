import Waveflow.Proofs.Graph.Order

/-!
# Courses that follow a precedence

A course leaves open which of the numbers that can be taken comes next.  A relation of precedence settles it: in a
`Leading` list there stands at every place the number that goes before all others that can be taken there.  Where no
two numbers go before each other, the list is determined by its length (`Leading.unique`).

`Graph.order` always takes the smallest number, so it is led by the order of numbers (`order_leading`).
-/

namespace Waveflow

variable {g : Graph} {counts : NodeId → Bool} {before before' : NodeId → NodeId → Prop}
  {done rest rest' order other : List NodeId} {id : NodeId} {n : Node}

/-- The node can be taken: it has not been, and what it waits for has. -/
def Node.Released (counts : NodeId → Bool) (done : List NodeId) (n : Node) : Prop :=
  n.id ∉ done ∧ ∀ i ∈ n.inputs, counts i = true → i ∈ done

namespace Graph

/-- The number can be taken, and it goes before all others that can be taken. -/
structure First (g : Graph) (counts : NodeId → Bool) (before : NodeId → NodeId → Prop) (done : List NodeId)
    (id : NodeId) : Prop where
  released : ∃ n ∈ g.nodes, n.id = id ∧ n.Released counts done
  least : ∀ n ∈ g.nodes, n.Released counts done → n.id ≠ id → before id n.id

/-- At every place stands the first of the numbers that can be taken there. -/
def Leading (g : Graph) (counts : NodeId → Bool) (before : NodeId → NodeId → Prop) (order : List NodeId) : Prop :=
  ∀ done id rest, order = done ++ id :: rest → g.First counts before done id

lemma leading_nil : g.Leading counts before [] := by
  intro done id rest heq
  simp at heq

lemma Leading.snoc (h : g.Leading counts before order) (hfirst : g.First counts before order id) :
    g.Leading counts before (order ++ [id]) := by
  intro done next rest heq
  rcases List.eq_nil_or_concat rest with rfl | ⟨rest, last, rfl⟩
  · obtain ⟨rfl, hid⟩ := List.append_inj' heq rfl
    obtain rfl := List.singleton_inj.1 hid
    exact hfirst
  · rw [List.concat_eq_append, ← List.cons_append, ← List.append_assoc] at heq
    exact h done next rest (List.append_inj' heq rfl).1

/-! ### One order at most -/

/-- Two lists that agree so far go on alike: of the two numbers that come next each would go before the other. -/
lemma eq_of_leading (hasymm : ∀ a b, before a b → ¬ before b a) (h : g.Leading counts before (done ++ rest))
    (h' : g.Leading counts before (done ++ rest')) (hlength : rest.length = rest'.length) : rest = rest' := by
  induction rest generalizing done rest' with
  | nil => exact (List.length_eq_zero_iff.1 hlength.symm).symm
  | cons a rest ih =>
    cases rest' with
    | nil => cases hlength
    | cons b rest' =>
      have hfirst := h done a rest rfl
      have hfirst' := h' done b rest' rfl
      obtain rfl : a = b := by
        by_contra hne
        obtain ⟨m, hm, rfl, hreleased⟩ := hfirst.released
        obtain ⟨n, hn, rfl, hreleased'⟩ := hfirst'.released
        exact hasymm _ _ (hfirst.least n hn hreleased' (Ne.symm hne)) (hfirst'.least m hm hreleased hne)
      rw [List.append_cons] at h h'
      rw [ih h h' (Nat.succ.inj hlength)]

/-- **There is at most one leading list of a length.** -/
theorem Leading.unique (h : g.Leading counts before order) (h' : g.Leading counts before other)
    (hasymm : ∀ a b, before a b → ¬ before b a) (hlength : order.length = other.length) : order = other := by
  rw [← List.nil_append order] at h
  rw [← List.nil_append other] at h'
  exact eq_of_leading hasymm h h' hlength

/-- Two precedences that agree on the nodes lead the same lists. -/
lemma Leading.congr (h : g.Leading counts before order)
    (hsame : ∀ a ∈ g.ids, ∀ b ∈ g.ids, before a b → before' a b) : g.Leading counts before' order := by
  intro done id rest heq
  obtain ⟨hreleased, hleast⟩ := h done id rest heq
  refine ⟨hreleased, fun n hn hfree hne => hsame _ ?_ _ (id_mem_ids hn) (hleast n hn hfree hne)⟩
  obtain ⟨m, hm, rfl, -⟩ := hreleased
  exact id_mem_ids hm

/-- Where all edges come from nodes, it does not matter whether edges from missing nodes count. -/
lemma released_iff (h : g.Ordered) (hc : g.Closed) (hn : n ∈ g.nodes) :
    n.Released g.contains done ↔ n.Released (fun _ => true) done := by
  refine and_congr_right fun _ => forall₂_congr fun i hi => ?_
  rw [(contains_iff h).2 (hc n hn i hi)]

lemma Leading.of_closed (h : g.Ordered) (hc : g.Closed) (hlead : g.Leading g.contains before order) :
    g.Leading (fun _ => true) before order := by
  intro done id rest heq
  obtain ⟨⟨n, hn, hid, hreleased⟩, hleast⟩ := hlead done id rest heq
  exact ⟨⟨n, hn, hid, (released_iff h hc hn).1 hreleased⟩,
    fun m hm hfree => hleast m hm ((released_iff h hc hm).2 hfree)⟩

end Graph

/-! ### The order of a graph -/

/-- The number that is taken next is the smallest of those that can be taken. -/
lemma Waiting.first_of_next? (h : next? (g.nodes.map (seen counts done)) = some id) :
    g.First counts (· < ·) done id := by
  refine ⟨next?_eq_some h, fun n hn hreleased hne => ?_⟩
  unfold next? at h
  obtain ⟨-, hle⟩ := List.min?_eq_some_iff.1 h
  have hready : seen counts done n ∈ (g.nodes.map (seen counts done)).filter isReady :=
    List.mem_filter.2 ⟨List.mem_map_of_mem hn, isReady_seen.2 hreleased⟩
  exact Nat.lt_of_le_of_ne (hle n.id (List.mem_map_of_mem (f := Waiting.id) hready)) hne.symm

lemma Waiting.run_leading {fuel : Nat} {more : List NodeId} (hlead : g.Leading counts (· < ·) done)
    (hrun : run fuel (g.nodes.map (seen counts done)) = .ok more) : g.Leading counts (· < ·) (done ++ more) := by
  induction fuel generalizing done more with
  | zero =>
    obtain rfl := Except.ok.inj hrun
    rwa [List.append_nil]
  | succ fuel ih =>
    rw [run] at hrun
    split at hrun
    · obtain rfl := Except.ok.inj hrun
      rwa [List.append_nil]
    · next id hnext =>
      have hfirst := first_of_next? hnext
      obtain ⟨n, -, rfl, hleft, -⟩ := hfirst.released
      rw [take_seen hleft, Checked.ok_bind] at hrun
      obtain ⟨rest, hrest, hrun⟩ := Checked.bind_eq_ok.1 hrun
      obtain rfl := Except.ok.inj hrun
      rw [List.append_cons]
      exact ih (hlead.snoc hfirst) hrest

/-- **The order of a graph takes the smallest number that can be taken.** -/
theorem Graph.order_leading (h : g.Ordered) (ho : g.order = .ok (.ok order)) :
    g.Leading g.contains (· < ·) order := by
  unfold Graph.order at ho
  rw [waiting_eq h] at ho
  obtain ⟨taken, hrun, ho⟩ := Checked.bind_eq_ok.1 ho
  have heq := Except.ok.inj ho
  split at heq
  · obtain rfl := Except.ok.inj heq
    exact Waiting.run_leading leading_nil hrun
  · cases heq

end Waveflow
