import Waveflow.Proofs.Lowering.Interface
import Waveflow.Proofs.Requirements

/-!
# Annotation and passes keep the interface

Input nodes keep their name and type, and outputs their nodes and types, when a graph is annotated and when
passes rewrite it.  So what presents a program before presents it after.
-/

namespace Waveflow

variable {r : Registry} {p : PassId} {g g' g'' : Graph} {n : Node}

/-- The second graph has the inputs and outputs of the first, with the same input nodes and with nodes of the
same types. -/
structure Graph.SameInterface (g g' : Graph) : Prop where
  inputs : g'.inputs = g.inputs
  outputs : g'.outputs = g.outputs
  input : ∀ n ∈ g.nodes, n.kind = .input →
    ∃ n' ∈ g'.nodes, n'.id = n.id ∧ n'.kind = .input ∧ n'.name = n.name ∧ n'.ty = n.ty
  output : ∀ out ∈ g.outputs, ∀ n ∈ g.nodes, n.id = out.node → ∃ n' ∈ g'.nodes, n'.id = n.id ∧
      n'.ty = n.ty

namespace Graph.SameInterface

lemma refl (g : Graph) : g.SameInterface g where
  inputs := rfl
  outputs := rfl
  input := fun n hn hkind => ⟨n, hn, rfl, hkind, rfl, rfl⟩
  output := fun _ _ n hn _ => ⟨n, hn, rfl, rfl⟩

lemma trans (h : g.SameInterface g') (h' : g'.SameInterface g'') : g.SameInterface g'' where
  inputs := h'.inputs.trans h.inputs
  outputs := h'.outputs.trans h.outputs
  input := by
    intro n hn hkind
    obtain ⟨m, hm, hid, hkind', hname, hty⟩ := h.input n hn hkind
    obtain ⟨k, hk, hid', hkind'', hname', hty'⟩ := h'.input m hm hkind'
    exact ⟨k, hk, hid'.trans hid, hkind'', hname'.trans hname, hty'.trans hty⟩
  output := by
    intro out hout n hn hnode
    obtain ⟨m, hm, hid, hty⟩ := h.output out hout n hn hnode
    obtain ⟨k, hk, hid', hty'⟩ := h'.output out (h.outputs ▸ hout) m hm (hid.trans hnode)
    exact ⟨k, hk, hid'.trans hid, hty'.trans hty⟩

/-- **A graph with the same interface presents the same program.** -/
theorem presents (h : g.SameInterface g') {program : Program} (hg : g.Presents program) : g'.Presents program where
  inputs := by
    rw [h.inputs]
    refine hg.inputs.imp fun id d hin => ?_
    obtain ⟨n, hn, hid, hkind, hname, hty⟩ := hin
    obtain ⟨m, hm, hmid, hkind', hname', hty'⟩ := h.input n hn hkind
    exact ⟨m, hm, hmid.trans hid, hkind', hname'.trans hname, hty'.trans hty⟩
  names := h.outputs ▸ hg.names
  distinct := hg.distinct
  typed := by
    intro out hout
    rw [h.outputs] at hout
    obtain ⟨d, hd, hname, n, hn, hid, hty⟩ := hg.typed out hout
    obtain ⟨m, hm, hmid, hty'⟩ := h.output out hout n hn hid
    exact ⟨d, hd, hname, m, hm, hmid.trans hid, hty'.trans hty⟩

end Graph.SameInterface

/-! ### Annotation -/

lemma Graph.Reattributed.sameInterface (h : g.Reattributed g') : g.SameInterface g' := by
  refine ⟨?_, ?_, fun n hn hkind => ?_, fun out _ n hn _ => ?_⟩
  · obtain ⟨f, rfl⟩ := h
    rfl
  · obtain ⟨f, rfl⟩ := h
    rfl
  · obtain ⟨attrs, hmem⟩ := h.exists_node hn
    exact ⟨_, hmem, rfl, hkind, rfl, rfl⟩
  · obtain ⟨attrs, hmem⟩ := h.exists_node hn
    exact ⟨_, hmem, rfl, rfl⟩

/-! ### Rewrites -/

/-- A graft keeps an input node, if it keeps the one that it may be on. -/
lemma Graph.Graftable.exists_input {f : Node → Node} {fresh : List Node} (h : g.Graftable n f fresh) (hg : g.Ordered)
    (hf : n.kind = .input → (f n).kind = .input ∧ (f n).name = n.name ∧ (f n).ty = n.ty) {m : Node}
    (hm : m ∈ g.nodes) (hkind : m.kind = .input) :
    ∃ m' ∈ (g.graft n.id f fresh).nodes, m'.id = m.id ∧ m'.kind = .input ∧
      m'.name = m.name ∧ m'.ty = m.ty := by
  by_cases hid : m.id = n.id
  · obtain rfl := hg.eq_of_id_eq hm h.mem hid
    exact ⟨f m, (h.mem_iff hg).2 (.inr (.inl rfl)), h.id, hf hkind⟩
  · exact ⟨m, (h.mem_iff hg).2 (.inl ⟨hm, hid⟩), rfl, hkind, rfl, rfl⟩

/-- A rewrite keeps the input nodes with their names and types: where it changes a node it is an operation, or
it is marked. -/
lemma Rewrite.exists_input (h : Rewrite r p g g') (hg : g.WellFormed) {m : Node} (hm : m ∈ g.nodes)
    (hinput : m.kind = .input) :
    ∃ m' ∈ g'.nodes, m'.id = m.id ∧ m'.kind = .input ∧ m'.name = m.name ∧ m'.ty = m.ty := by
  cases h with
  | mark key value hn hkey =>
    exact (graftable_mark hg hn).exists_input hg.ordered (fun hkind => ⟨hkind, rfl, rfl⟩) hm hinput
  | @merge _ keep dup op hkeep hdup hne hkind hsame _ houtput =>
    have hne : m.id ≠ dup.id := by
      intro hid
      obtain rfl := hg.ordered.eq_of_id_eq hm hdup hid
      rw [hinput] at hkind
      cases hkind
    exact ⟨_, Graph.mem_merged.2 ⟨m, hm, hne, rfl⟩, rfl, hinput, rfl, rfl⟩
  | divide load hn hkind hparts =>
    refine (graftable_divide hg hn).exists_input hg.ordered (fun hin => ?_) hm hinput
    exact absurd (hkind.symm.trans hin) (by simp)
  | wrap code distance hn hkind =>
    refine (graftable_wrap hg hn).exists_input hg.ordered (fun hin => ?_) hm hinput
    exact absurd (hkind.symm.trans hin) (by simp)
  | regroup _ => exact ⟨m, hm, rfl, hinput, rfl, rfl⟩

lemma Rewrite.sameInterface (h : Rewrite r p g g') (hg : g.WellFormed) : g.SameInterface g' := by
  have hwithin := h.within hg
  refine ⟨hwithin.inputs, hwithin.outputs, fun n hn hkind => h.exists_input hg hn hkind, ?_⟩
  intro out hout n hn hnode
  have hid := hwithin.needed out hout (hnode ▸ Graph.id_mem_ids hn)
  obtain ⟨m, hm, hmid⟩ := Graph.mem_ids.1 hid
  have hsame : m.id = n.id := hmid.trans hnode.symm
  exact ⟨m, hm, hsame, (hwithin.kept n hn m hm hsame).1⟩

/-- **Passes keep the interface.** -/
theorem Rewrites.sameInterface {ids : List PassId} (h : Rewrites r ids g g') (hg : g.WellFormed) :
    g.SameInterface g' := by
  induction h with
  | refl => exact .refl g
  | tail hchain hstep ih =>
    obtain ⟨q, -, hstep⟩ := hstep
    exact ih.trans (hstep.sameInterface (Rewrites.wellFormed hchain hg))

end Waveflow
