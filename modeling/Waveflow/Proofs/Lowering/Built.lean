import Waveflow.Lowering
import Waveflow.Proofs.Graph.Edit
import Waveflow.Proofs.Meaning.Basic

/-!
# Graphs in the making

Lowering only appends nodes, names them, declares inputs and designates outputs.  `Graph.Built` collects
what holds of a graph that is made so: its edges lead from smaller to larger numbers, its inputs are its
input nodes, its outputs are there.  `Graph.Grows` says that nodes stay as they are but for their names,
so that what they compute stays.
-/

namespace Waveflow.Graph

variable {V : Type*} {I : Interpretation V} {ρ : NodeId → V} {v : V}
variable {P : Float → Prop} {g g' g'' : Graph} {n : Node} {id : NodeId} {f : Node → Node} {name : String}

/-! ### Growing -/

/-- Every node is still there, with its kind, edges and literals. -/
def Grows (g g' : Graph) : Prop :=
  ∀ n ∈ g.nodes, ∃ n' ∈ g'.nodes, n'.id = n.id ∧ n'.kind = n.kind ∧
    n'.inputs = n.inputs ∧ n'.params = n.params

lemma Grows.refl (g : Graph) : g.Grows g := fun n hn => ⟨n, hn, rfl, rfl, rfl, rfl⟩

lemma Grows.trans (h : g.Grows g') (h' : g'.Grows g'') : g.Grows g'' := by
  intro n hn
  obtain ⟨m, hm, hid, hkind, hinputs, hparams⟩ := h n hn
  obtain ⟨k, hk, hid', hkind', hinputs', hparams'⟩ := h' m hm
  exact ⟨k, hk, hid'.trans hid, hkind'.trans hkind, hinputs'.trans hinputs, hparams'.trans hparams⟩

lemma Grows.mem_ids (h : g.Grows g') (hid : id ∈ g.ids) : id ∈ g'.ids := by
  obtain ⟨n, hn, rfl⟩ := Graph.mem_ids.1 hid
  obtain ⟨m, hm, hmid, -⟩ := h n hn
  exact hmid ▸ id_mem_ids hm

lemma grows_appended (g : Graph) (fresh : List Node) : g.Grows (g.appended fresh) :=
  fun n hn => ⟨n, List.mem_append_left _ hn, rfl, rfl, rfl, rfl⟩

/-- The change keeps number, kind, edges and literals. -/
def Renames (f : Node → Node) : Prop :=
  ∀ n, (f n).id = n.id ∧ (f n).kind = n.kind ∧ (f n).inputs = n.inputs ∧ (f n).params = n.params

lemma mem_modify (h : g.Ordered) (hf : Renames f) {m : Node} (hm : m ∈ (g.modify id f).nodes) :
    ∃ n ∈ g.nodes, m.id = n.id ∧ m.kind = n.kind ∧ m.inputs = n.inputs ∧ m.params = n.params := by
  rw [modify_eq h] at hm
  obtain ⟨n, hn, rfl⟩ := List.mem_map.1 hm
  split
  · exact ⟨n, hn, hf n⟩
  · exact ⟨n, hn, rfl, rfl, rfl, rfl⟩

lemma grows_modify (h : g.Ordered) (hf : Renames f) : g.Grows (g.modify id f) := by
  intro n hn
  rw [modify_eq h]
  refine ⟨_, List.mem_map_of_mem hn, ?_⟩
  split
  · exact hf n
  · exact ⟨rfl, rfl, rfl, rfl⟩

/-- What is computed stays computed. -/
theorem Computes.grows (h : g.Computes I ρ id v) (hgrows : g.Grows g') : g'.Computes I ρ id v := by
  induction h with
  | input hn hkind =>
    obtain ⟨m, hm, hid, hkind', -⟩ := hgrows _ hn
    rw [← hid]
    exact .input hm (hkind'.trans hkind)
  | constant hn hkind =>
    obtain ⟨m, hm, hid, hkind', -⟩ := hgrows _ hn
    rw [← hid]
    exact .constant hm (hkind'.trans hkind)
  | operation hn hkind _ ih =>
    obtain ⟨m, hm, hid, hkind', hinputs, hparams⟩ := hgrows _ hn
    rw [← hid, ← hparams, ← hinputs]
    exact .operation hm (hkind'.trans hkind) fun i hi => ih i (hinputs ▸ hi)

/-! ### Outputs -/

lemma output?_modifyNode {node : NodeId} {outputs : List Output} {i : Nat}
    (h : outputs.findIdx? (·.name == name) = some i) (other : String) :
    ((outputs.modify i (fun out => { out with node := node })).find? (·.name == other)).map (·.node) =
      if other = name then some node else (outputs.find? (·.name == other)).map (·.node) := by
  induction outputs generalizing i with
  | nil => cases h
  | cons out rest ih =>
    rw [List.findIdx?_cons] at h
    split at h
    · next hname =>
      obtain rfl := Option.some.inj h
      have hname : out.name = name := beq_iff_eq.1 hname
      by_cases hother : other = name
      · simp [hother, hname]
      · simp [hother, hname, Ne.symm hother]
    · next hname =>
      obtain ⟨j, hj, rfl⟩ := Option.map_eq_some_iff.1 h
      have hname : out.name ≠ name := fun e => hname (beq_iff_eq.2 e)
      have hrest := ih hj
      by_cases hout : out.name = other
      · have hother : other ≠ name := hout ▸ hname
        simp [hout, hother]
      · simpa [hout] using hrest

/-- A name that is designated stands for the node, and all others for what they stood for. -/
theorem output?_designate {node : NodeId} (h : g.designate name node = .ok g') (other : String) :
    g'.output? other = if other = name then some node else g.output? other := by
  unfold designate at h
  split at h
  · cases h
  · split at h
    · next i hi =>
      obtain rfl := Except.ok.inj h
      exact output?_modifyNode hi other
    · next hnone =>
      obtain rfl := Except.ok.inj h
      unfold output?
      rw [List.find?_append, Option.map_or]
      by_cases hother : other = name
      · have hfind : g.outputs.find? (·.name == name) = none := by
          rw [List.findIdx?_eq_none_iff] at hnone
          exact List.find?_eq_none.2 fun out hout => by simpa using hnone out hout
        simp [hother, hfind]
      · simp [hother, Ne.symm hother]

lemma designate_ok (h : g.Ordered) (hid : id ∈ g.ids) (name : String) : ∃ outputs,
    g.designate name id = .ok { g with outputs := outputs } ∧
      ∀ out ∈ outputs, out ∈ g.outputs ∨ out.node = id := by
  unfold designate
  rw [(contains_iff h).2 hid, Bool.not_true, if_neg Bool.false_ne_true]
  split
  · exact ⟨_, rfl, fun out hout => mem_outputs_modify hout⟩
  · refine ⟨_, rfl, fun out hout => ?_⟩
    rcases List.mem_append.1 hout with hout | hout
    · exact .inl hout
    · rw [List.mem_singleton.1 hout]
      exact .inr rfl

/-! ### What holds of a graph in the making -/

/-- Well-formed, with ascending edges, its inputs listed exactly, its outputs there, constants that satisfy
`P`, and no hints. -/
structure Built (P : Float → Prop) (g : Graph) : Prop where
  wellFormed : g.WellFormed
  ascending : g.Ranked (fun id => id)
  outputs : ∀ out ∈ g.outputs, out.node ∈ g.ids
  inputs : ∀ id, id ∈ g.inputs ↔ ∃ n ∈ g.nodes, n.id = id ∧ n.kind = .input
  numbers : ∀ n ∈ g.nodes, ∀ x, n.kind = .constant x → P x.value
  hints : g.hints = Hints.empty

lemma Built.acyclic (h : g.Built P) : g.Acyclic := h.ascending.acyclic

lemma Solves.map_eq {val : NodeId → V} (h : g.Solves I ρ val) {ids : List NodeId} {vs : List V}
    (hvs : List.Forall₂ (g.Computes I ρ) ids vs) : ids.map val = vs := by
  induction hvs with
  | nil => rfl
  | cons hcomp _ ih => rw [List.map_cons, ih, hcomp.eq_of_solves h]

/-- An operation computes from the values that its inputs compute. -/
lemma Built.computes_operation (h : g.Built P) (hn : n ∈ g.nodes) {op : OpKind} (hkind : n.kind = .operation op)
    {vs : List V} (hvs : List.Forall₂ (g.Computes I ρ) n.inputs vs) :
    g.Computes I ρ n.id (I.apply op n.params vs) := by
  obtain ⟨val, hval⟩ := exists_solution h.wellFormed.ordered h.wellFormed.closed h.acyclic I ρ
  rw [← hval.map_eq hvs]
  refine .operation hn hkind fun i hi => ?_
  exact hval.computes h.wellFormed.closed h.ascending (h.wellFormed.closed n hn i hi)

/-- Every node computes one value. -/
lemma Built.computes_iff (h : g.Built P) (hv : g.Computes I ρ id v) {w : V} : g.Computes I ρ id w ↔ w = v := by
  obtain ⟨val, hval⟩ := exists_solution h.wellFormed.ordered h.wellFormed.closed h.acyclic I ρ
  constructor
  · intro hw
    rw [hw.eq_of_solves hval, hv.eq_of_solves hval]
  · rintro rfl
    exact hv

lemma built_empty (name : String) : (Graph.empty name).Built P where
  wellFormed := ⟨List.Pairwise.nil, fun _ hn => absurd hn List.not_mem_nil, fun _ hn => absurd hn List.not_mem_nil⟩
  ascending := fun _ hn => absurd hn List.not_mem_nil
  outputs := fun _ hout => absurd hout List.not_mem_nil
  inputs := fun _ => ⟨fun h => absurd h List.not_mem_nil, fun ⟨_, hn, _⟩ => absurd hn List.not_mem_nil⟩
  numbers := fun _ hn => absurd hn List.not_mem_nil
  hints := rfl

lemma Ranked.appended (h : g.Ranked fun id => id) (hg : g.WellFormed) (hid : n.id = g.nextId)
    (hin : ∀ i ∈ n.inputs, i ∈ g.ids) : (g.appended [n]).Ranked fun id => id := by
  intro m hm i hi
  rcases List.mem_append.1 hm with hm | hm
  · exact h m hm i hi
  · rw [List.mem_singleton.1 hm] at hi ⊢
    rw [hid]
    exact hg.lt_nextId (hin i hi)

/-- Appending a node that is not an input. -/
lemma Built.appended (h : g.Built P) (hid : n.id = g.nextId) (hin : ∀ i ∈ n.inputs, i ∈ g.ids)
    (hkind : n.kind ≠ .input) (hnumber : ∀ x, n.kind = .constant x → P x.value) : (g.appended [n]).Built P where
  wellFormed := h.wellFormed.appended_one hid hin
  ascending := h.ascending.appended h.wellFormed hid hin
  outputs := by
    intro out hout
    rw [ids_appended]
    exact List.mem_append_left _ (h.outputs out hout)
  inputs := by
    intro id
    show id ∈ g.inputs ↔ _
    rw [h.inputs]
    constructor
    · rintro ⟨m, hm, hid, hinput⟩
      exact ⟨m, List.mem_append_left _ hm, hid, hinput⟩
    · rintro ⟨m, hm, hid, hinput⟩
      rcases List.mem_append.1 hm with hm | hm
      · exact ⟨m, hm, hid, hinput⟩
      · rw [List.mem_singleton.1 hm] at hinput
        exact absurd hinput hkind
  numbers := by
    intro m hm x hx
    rcases List.mem_append.1 hm with hm | hm
    · exact h.numbers m hm x hx
    · rw [List.mem_singleton.1 hm] at hx
      exact hnumber x hx
  hints := h.hints

/-- Appending a declared input. -/
lemma Built.appended_input (h : g.Built P) (hid : n.id = g.nextId) (hin : n.inputs = []) (hkind : n.kind = .input) :
    ({ g.appended [n] with inputs := g.inputs ++ [n.id] } : Graph).Built P := by
  have hnone : ∀ i ∈ n.inputs, i ∈ g.ids := fun i hi => absurd (hin ▸ hi) List.not_mem_nil
  have hwf := h.wellFormed.appended_one hid hnone
  refine ⟨⟨hwf.ordered, hwf.below, hwf.closed⟩, h.ascending.appended h.wellFormed hid hnone, ?_, ?_,
    ?_, h.hints⟩
  · intro out hout
    show out.node ∈ (g.appended [n]).ids
    rw [ids_appended]
    exact List.mem_append_left _ (h.outputs out hout)
  · intro id
    show id ∈ g.inputs ++ [n.id] ↔ ∃ m ∈ g.nodes ++ [n], m.id = id ∧ m.kind = .input
    rw [List.mem_append, h.inputs, List.mem_singleton]
    constructor
    · rintro (⟨m, hm, hmid, hinput⟩ | rfl)
      · exact ⟨m, List.mem_append_left _ hm, hmid, hinput⟩
      · exact ⟨n, List.mem_append_right _ (List.mem_singleton.2 rfl), rfl, hkind⟩
    · rintro ⟨m, hm, hmid, hinput⟩
      rcases List.mem_append.1 hm with hm | hm
      · exact .inl ⟨m, hm, hmid, hinput⟩
      · rw [List.mem_singleton.1 hm] at hmid
        exact .inr hmid.symm
  · intro m hm x hx
    rcases List.mem_append.1 hm with hm | hm
    · exact h.numbers m hm x hx
    · rw [List.mem_singleton.1 hm, hkind] at hx
      cases hx

lemma inputs_modify (h : g.Ordered) : (g.modify id f).inputs = g.inputs := by rw [modify_eq h]

lemma outputs_modify (h : g.Ordered) : (g.modify id f).outputs = g.outputs := by rw [modify_eq h]

lemma ids_modify (h : g.Ordered) (hf : Renames f) : (g.modify id f).ids = g.ids := by
  rw [modify_eq h]
  unfold ids
  rw [List.map_map]
  refine List.map_congr_left fun n _ => ?_
  dsimp only [Function.comp]
  split
  · exact (hf n).1
  · rfl

/-- Changing names keeps a graph built. -/
lemma Built.modify (h : g.Built P) (hf : Renames f) : (g.modify id f).Built P := by
  have hordered := h.wellFormed.ordered
  have hids : (g.modify id f).ids = g.ids := ids_modify hordered hf
  have hgrows : g.Grows (g.modify id f) := grows_modify hordered hf
  have hnext : (g.modify id f).nextId = g.nextId := by rw [modify_eq hordered]
  refine ⟨⟨?_, ?_, ?_⟩, ?_, ?_, ?_, ?_, ?_⟩
  · rw [ordered_iff, hids]
    exact hordered.ids_ascend
  · intro m hm
    obtain ⟨n, hn, hid, -⟩ := mem_modify hordered hf hm
    rw [hid, hnext]
    exact h.wellFormed.below n hn
  · intro m hm i hi
    obtain ⟨n, hn, -, -, hinputs, -⟩ := mem_modify hordered hf hm
    rw [hids]
    exact h.wellFormed.closed n hn i (hinputs ▸ hi)
  · intro m hm i hi
    obtain ⟨n, hn, hid, -, hinputs, -⟩ := mem_modify hordered hf hm
    rw [hid]
    exact h.ascending n hn i (hinputs ▸ hi)
  · intro out hout
    rw [hids]
    exact h.outputs out (outputs_modify hordered ▸ hout)
  · intro id'
    rw [inputs_modify hordered, h.inputs]
    constructor
    · rintro ⟨n, hn, hid, hinput⟩
      obtain ⟨m, hm, hmid, hkind, -⟩ := hgrows n hn
      exact ⟨m, hm, hmid.trans hid, hkind.trans hinput⟩
    · rintro ⟨m, hm, hmid, hinput⟩
      obtain ⟨n, hn, hid, hkind, -⟩ := mem_modify hordered hf hm
      exact ⟨n, hn, hid.symm.trans hmid, hkind.symm.trans hinput⟩
  · intro m hm x hx
    obtain ⟨n, hn, -, hkind, -⟩ := mem_modify hordered hf hm
    exact h.numbers n hn x (hkind.symm.trans hx)
  · rw [modify_eq hordered]
    exact h.hints

/-- Designating an output keeps a graph built. -/
lemma Built.withOutputs (h : g.Built P) {outputs : List Output} (hout : ∀ out ∈ outputs, out.node ∈ g.ids) :
    ({ g with outputs := outputs } : Graph).Built P :=
  ⟨⟨h.wellFormed.ordered, h.wellFormed.below, h.wellFormed.closed⟩, h.ascending, hout,
    h.inputs, h.numbers, h.hints⟩

end Waveflow.Graph
