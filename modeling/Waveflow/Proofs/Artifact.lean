import Waveflow.Artifact
import Waveflow.Proofs.Schedule.Correct

/-!
# Artifacts of scheduled graphs

A graph with a schedule that fits it becomes an artifact whose steps are the nodes in the order of the schedule:
each once, and each after the steps that it takes its inputs from.
-/

namespace Waveflow

variable {g : Graph} {s : Schedule}

/-- The step says of its node what the graph says. -/
structure ArtifactStep.IsOf (step : ArtifactStep) (n : Node) : Prop where
  node : step.node = n.id
  op : step.op = n.kind.label
  inputs : step.inputs = n.inputs
  ty : step.ty = n.ty
  attrs : step.attrs = n.attrs

/-- The artifact executes the graph: its steps are the nodes, each once and after its inputs, and its outputs are
those of the graph, each on a step. -/
structure Artifact.Executes (a : Artifact) (g : Graph) : Prop where
  nodes : ∀ step ∈ a.steps, ∃ n ∈ g.nodes, step.IsOf n
  once : (a.steps.map (·.node)).Perm g.ids
  nodup : (a.steps.map (·.node)).Nodup
  ready : ∀ before step after, a.steps = before ++ step :: after →
    ∀ i ∈ step.inputs, ∃ earlier ∈ before, earlier.node = i
  outputs : a.outputs = g.outputs
  computed : ∀ out ∈ a.outputs, ∃ step ∈ a.steps, step.node = out.node

namespace ArtifactStep

lemma isOf_ofStep (hg : g.Ordered) {step : Step} {made : ArtifactStep} (h : ofStep g step = .ok made) :
    made.node = step.node ∧ ∃ n ∈ g.nodes, made.IsOf n := by
  unfold ofStep at h
  split at h
  · next n hn =>
    obtain ⟨hmem, hid⟩ := (Graph.node?_eq_some_iff hg).1 hn
    obtain rfl := Except.ok.inj h
    exact ⟨hid, n, hmem, rfl, rfl, rfl, rfl, rfl⟩
  · cases h

lemma exists_ofStep (hg : g.Ordered) {step : Step} (hstep : step.node ∈ g.ids) :
    ∃ made, ofStep g step = .ok made := by
  obtain ⟨n, hn⟩ := hg.exists_node? hstep
  unfold ofStep
  rw [hn]
  exact ⟨_, rfl⟩

/-- The steps are those of the schedule, in its order. -/
lemma nodes_eq (hg : g.Ordered) {steps : List Step} {made : List ArtifactStep}
    (h : List.Forall₂ (fun step m => ofStep g step = .ok m) steps made) :
    made.map (·.node) = steps.map (·.node) := by
  induction h with
  | nil => rfl
  | cons hstep _ ih => rw [List.map_cons, List.map_cons, (isOf_ofStep hg hstep).1, ih]

lemma mem_isOf (hg : g.Ordered) {steps : List Step} {made : List ArtifactStep}
    (h : List.Forall₂ (fun step m => ofStep g step = .ok m) steps made) :
    ∀ m ∈ made, ∃ n ∈ g.nodes, m.IsOf n := by
  induction h with
  | nil => exact fun m hm => absurd hm List.not_mem_nil
  | cons hstep _ ih =>
    intro m hm
    rcases List.mem_cons.1 hm with rfl | hm
    · exact (isOf_ofStep hg hstep).2
    · exact ih m hm

end ArtifactStep

/-- In a list without repeats, what stands before the place of an element is in the part before it. -/
lemma mem_of_idxOf_lt {before after : List NodeId} {x y : NodeId} (hnodup : (before ++ y :: after).Nodup)
    (hlt : (before ++ y :: after).idxOf x < (before ++ y :: after).idxOf y) : x ∈ before := by
  have hy : y ∉ before := by
    intro hmem
    exact (List.nodup_append.1 hnodup).2.2 y hmem y (List.mem_cons_self ..) rfl
  by_contra hx
  rw [List.idxOf_append_of_notMem hx, List.idxOf_append_of_notMem hy, List.idxOf_cons_self] at hlt
  omega

namespace Artifact

/-- **A graph with a fitting schedule becomes an artifact that executes it.** -/
theorem ofResult_executes (hg : g.Ordered) (houtputs : ∀ out ∈ g.outputs, out.node ∈ g.ids) (hfits : s.Fits g)
    (ds : Diagnostics) (program : String) :
    ∃ a, ofResult program (.succeeded ds g s) = .ok a ∧ a.Executes g ∧ a.warnings = ds.warnings := by
  have hsteps : ∀ step ∈ s.steps, ∃ made, ArtifactStep.ofStep g step = .ok made := by
    intro step hstep
    exact ArtifactStep.exists_ofStep hg (hfits.once.mem_iff.1 (List.mem_map_of_mem hstep))
  obtain ⟨steps, hmade⟩ := Checked.exists_mapM hsteps
  have hall := Checked.mapM_eq_ok.1 hmade
  have horder : steps.map (·.node) = s.order := ArtifactStep.nodes_eq hg hall
  have hnodes := ArtifactStep.mem_isOf hg hall
  have hnodup : (steps.map (·.node)).Nodup := horder ▸ hfits.once.nodup_iff.2 hg.ids_nodup
  refine ⟨⟨program, steps, g.outputs, s.groups, ds.warnings⟩, ?_, ⟨hnodes, ?_, hnodup, ?_, rfl, ?_⟩, rfl⟩
  · unfold ofResult CompileResult.succeeded
    dsimp only
    rw [hmade]
    rfl
  · rw [horder]
    exact hfits.once
  · intro before step after heq i hi
    have heq : steps = before ++ step :: after := heq
    obtain ⟨n, hn, hof⟩ := hnodes step (heq ▸ List.mem_append_right _ (List.mem_cons_self ..))
    have hlt := (hfits.after_inputs n hn i (hof.inputs ▸ hi)).2
    rw [← horder, ← hof.node, heq, List.map_append, List.map_cons] at hlt
    rw [heq, List.map_append, List.map_cons] at hnodup
    exact List.mem_map.1 (mem_of_idxOf_lt hnodup hlt)
  · intro out hout
    have hmem : out.node ∈ steps.map (·.node) := horder ▸ hfits.once.mem_iff.2 (houtputs out hout)
    exact List.mem_map.1 hmem

end Artifact

end Waveflow
