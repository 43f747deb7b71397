import Waveflow.Proofs.Graph.Order

/-!
# What a graph computes

An `Interpretation` says what operations and constants compute.  Under one, and with values for the
inputs, every node of a graph computes a value: `Graph.Computes` derives it from the inputs down.

The nodes of a graph are also a system of equations, one for each node, and `Graph.Solves` says that a
valuation satisfies it.  On a graph without cycles there is a solution, and it gives exactly the values
that are computed (`exists_solution`, `computes_iff`).  Rewrites of graphs are shown right on solutions:
a rewrite that reuses a number changes one equation and adds some.
-/

namespace Waveflow

variable {V : Type*}

/-- What constants and operations compute.  An operation sees its kind, its literals and the values of
its inputs in order. -/
structure Interpretation (V : Type*) where
  constant : UInt64 → V
  apply : OpKind → Params → List V → V

/-- The value of a node, given values for its inputs. -/
def Node.value (I : Interpretation V) (ρ val : NodeId → V) (n : Node) : V :=
  match n.kind with
  | .input => ρ n.id
  | .constant x => I.constant x.bits
  | .operation op => I.apply op n.params (n.inputs.map val)

lemma Node.value_congr {I : Interpretation V} {ρ val val' : NodeId → V} {n : Node}
    (h : ∀ i ∈ n.inputs, val i = val' i) : n.value I ρ val = n.value I ρ val' := by
  unfold Node.value
  rw [List.map_congr_left h]

namespace Graph

variable {I : Interpretation V} {ρ val : NodeId → V} {g : Graph} {id : NodeId} {v w : V}

/-- The node of that number computes the value. -/
inductive Computes (I : Interpretation V) (ρ : NodeId → V) (g : Graph) : NodeId → V → Prop
  | input {n : Node} : n ∈ g.nodes → n.kind = .input → Computes I ρ g n.id (ρ n.id)
  | constant {n : Node} {x : Double} : n ∈ g.nodes → n.kind = .constant x →
      Computes I ρ g n.id (I.constant x.bits)
  | operation {n : Node} {op : OpKind} {val : NodeId → V} : n ∈ g.nodes → n.kind = .operation op →
      (∀ i ∈ n.inputs, Computes I ρ g i (val i)) → Computes I ρ g n.id (I.apply op n.params (n.inputs.map val))

/-- The valuation satisfies the equations of all nodes. -/
def Solves (I : Interpretation V) (ρ : NodeId → V) (g : Graph) (val : NodeId → V) : Prop :=
  ∀ n ∈ g.nodes, val n.id = n.value I ρ val

/-- What is computed is the same in every solution. -/
lemma Computes.eq_of_solves (h : g.Computes I ρ id v) (hs : g.Solves I ρ val) : v = val id := by
  induction h with
  | input hn hkind =>
    rw [hs _ hn]
    simp only [Node.value, hkind]
  | constant hn hkind =>
    rw [hs _ hn]
    simp only [Node.value, hkind]
  | operation hn hkind _ ih =>
    rw [hs _ hn]
    simp only [Node.value, hkind]
    rw [List.map_congr_left ih]

/-- A solution is computed, as far as the chains of edges end. -/
lemma Solves.computes {rank : NodeId → Nat} (hs : g.Solves I ρ val) (hc : g.Closed) (hr : g.Ranked rank)
    (hid : id ∈ g.ids) : g.Computes I ρ id (val id) := by
  induction hk : rank id using Nat.strong_induction_on generalizing id with
  | _ k ih =>
    obtain ⟨n, hn, rfl⟩ := mem_ids.1 hid
    rw [hs n hn]
    unfold Node.value
    split
    · next hkind => exact .input hn hkind
    · next hkind => exact .constant hn hkind
    · next hkind =>
      refine .operation hn hkind fun i hi => ?_
      exact ih (rank i) (hk ▸ hr n hn i hi) (hc n hn i hi) rfl

/-- The equations of a graph without cycles have a solution. -/
theorem exists_solution (h : g.Ordered) (hc : g.Closed) (ha : g.Acyclic) (I : Interpretation V)
    (ρ : NodeId → V) : ∃ val, g.Solves I ρ val := by
  obtain ⟨order, -, hcourse, hperm⟩ := order_of_acyclic h ha
  have hvalue : ∀ n ∈ g.nodes, ∀ v w : NodeId → V, (∀ i ∈ n.inputs, g.contains i = true → v i = w i) →
      n.value I ρ v = n.value I ρ w :=
    fun n hn _ _ hsame => Node.value_congr fun i hi => hsame i hi ((contains_iff h).2 (hc n hn i hi))
  obtain ⟨val, hval⟩ := hcourse.exists_valuation h hvalue ρ
  exact ⟨val, fun n hn => hval n hn (hperm.mem_iff.2 (id_mem_ids hn))⟩

/-- **What is computed is what solves the equations.** -/
theorem computes_iff {rank : NodeId → Nat} (hc : g.Closed) (hr : g.Ranked rank) (hs : g.Solves I ρ val)
    (hid : id ∈ g.ids) : g.Computes I ρ id v ↔ v = val id := by
  constructor
  · exact fun h => h.eq_of_solves hs
  · rintro rfl
    exact hs.computes hc hr hid

end Graph

end Waveflow
