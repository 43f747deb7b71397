import Waveflow.Proofs.Checked
import Waveflow.Proofs.Graph.Store

/-!
# What guarded edits keep

`Graph.Consistent` says what holds of every graph that guarded edits make from the empty one: numbers ascend
below the next one, every edge and every output is on a node that is there, no two outputs share a name, and
the list of inputs is that of the input nodes, which have no edges.

An accepted edit keeps this, and it gives out a number exactly when it moves the next one
(`Edit.apply_step`).  So along a run the numbers given out are `0, 1, 2, …`, whatever is removed in between.
-/

namespace Waveflow

namespace Graph

variable {g g' : Graph} {id node : NodeId} {ids inputs : List NodeId} {m n : Node} {f : Node → Node}

/-- Numbers, edges, outputs and inputs all fit together. -/
structure Consistent (g : Graph) : Prop extends g.WellFormed where
  outputs_mem : ∀ out ∈ g.outputs, out.node ∈ g.ids
  outputs_nodup : (g.outputs.map (·.name)).Nodup
  inputs_eq : g.inputs = (g.nodes.filter Node.isInput).map (·.id)
  inputs_bare : ∀ n ∈ g.nodes, n.isInput → n.inputs = []

lemma Consistent.empty (name : String) : (Graph.empty name).Consistent where
  ordered := List.Pairwise.nil
  below := by simp [Graph.empty]
  closed := by simp [Graph.empty, Closed]
  outputs_mem := by simp [Graph.empty]
  outputs_nodup := by simp [Graph.empty]
  inputs_eq := rfl
  inputs_bare := by simp [Graph.empty]

lemma mem_ids_of_requirePresent (h : g.Ordered) (hok : g.requirePresent ids = .ok ()) : ∀ i ∈ ids, i ∈ g.ids := by
  unfold requirePresent at hok
  split at hok
  · cases hok
  · next hnone =>
    intro i hi
    have hi' := List.find?_eq_none.1 hnone i hi
    rw [← contains_iff h]
    simpa using hi'

/-! ### Appending -/

lemma append_ok {node : NodeId → Node} {r : NodeId × Graph} (h : g.append node = .ok r) :
    r = (g.nextId, g.appended [node g.nextId]) :=
  (append_yields g node).of_ok h

lemma Consistent.appended_one (h : g.Consistent) (hid : n.id = g.nextId) (hkind : n.isInput = false)
    (hin : ∀ i ∈ n.inputs, i ∈ g.ids) : (g.appended [n]).Consistent where
  toWellFormed := h.toWellFormed.appended_one hid hin
  outputs_mem := by
    intro out hout
    rw [ids_appended]
    exact List.mem_append_left _ (h.outputs_mem out hout)
  outputs_nodup := h.outputs_nodup
  inputs_eq := by
    show g.inputs = ((g.nodes ++ [n]).filter Node.isInput).map (·.id)
    rw [List.filter_append, h.inputs_eq]
    simp [hkind]
  inputs_bare := by
    intro m hm hinput
    rcases List.mem_append.1 hm with hm | hm
    · exact h.inputs_bare m hm hinput
    · rw [List.mem_singleton.1 hm, hkind] at hinput
      cases hinput

lemma Consistent.appended_input (h : g.Consistent) (hid : n.id = g.nextId) (hkind : n.isInput = true)
    (hbare : n.inputs = []) : ({ g.appended [n] with inputs := g.inputs ++ [g.nextId] } : Graph).Consistent where
  toWellFormed := by
    have hwf := h.toWellFormed.appended_one hid (by simp [hbare])
    exact ⟨hwf.ordered, hwf.below, hwf.closed⟩
  outputs_mem := by
    intro out hout
    show out.node ∈ (g.appended [n]).ids
    rw [ids_appended]
    exact List.mem_append_left _ (h.outputs_mem out hout)
  outputs_nodup := h.outputs_nodup
  inputs_eq := by
    show g.inputs ++ [g.nextId] = ((g.nodes ++ [n]).filter Node.isInput).map (·.id)
    rw [List.filter_append, h.inputs_eq]
    simp [hkind, hid]
  inputs_bare := by
    intro m hm hinput
    rcases List.mem_append.1 hm with hm | hm
    · exact h.inputs_bare m hm hinput
    · rwa [List.mem_singleton.1 hm]

lemma addInput_ok {name : String} {ty : ValueType} {r : NodeId × Graph} (h : g.addInput name ty = .ok r) :
    r = (g.nextId, { g.appended [{ Node.plain g.nextId .input [] ty with name := some name }] with
      inputs := g.inputs ++ [g.nextId] }) := by
  unfold addInput at h
  obtain ⟨s, hs, hr⟩ := Checked.bind_eq_ok.1 h
  rw [append_ok hs] at hr
  exact (Except.ok.inj hr).symm

lemma append_eq (h : g.nextId + 1 < wordLimit) (node : NodeId → Node) :
    g.append node = .ok (g.nextId, g.appended [node g.nextId]) := by
  unfold append allocate
  rw [addWord_eq_ok h]
  rfl

/-- A node with edges is appended only once the edges have been looked at. -/
lemma require_append_ok {node : NodeId → Node} {r : NodeId × Graph} (h : g.Ordered)
    (hok : (match g.requirePresent inputs with
      | .error e => .ok (.error e)
      | .ok _ => Except.ok <$> g.append node : Checked (Except Refusal (NodeId × Graph))) = .ok (.ok r)) :
    (∀ i ∈ inputs, i ∈ g.ids) ∧ r = (g.nextId, g.appended [node g.nextId]) := by
  split at hok
  · cases hok
  next hpresent =>
  refine ⟨mem_ids_of_requirePresent h hpresent, ?_⟩
  cases ha : g.append node with
  | error f => rw [ha] at hok; cases hok
  | ok s =>
    rw [ha] at hok
    cases hok
    exact append_ok ha

/-! ### Outputs -/

/-- A name that is designated stands for one output. -/
lemma nodup_designate {name : String} (hok : g.designate name node = .ok g') (h : (g.outputs.map (·.name)).Nodup) :
    (g'.outputs.map (·.name)).Nodup := by
  unfold Graph.designate at hok
  split at hok
  · cases hok
  split at hok
  · obtain rfl := Except.ok.inj hok
    show ((g.outputs.modify _ _).map _).Nodup
    rwa [names_outputs_modify]
  · next hnone =>
    obtain rfl := Except.ok.inj hok
    show ((g.outputs ++ [Output.mk name node]).map (·.name)).Nodup
    have hnew : name ∉ g.outputs.map (·.name) := by
      intro hmem
      obtain ⟨p, hp, hname⟩ := List.mem_map.1 hmem
      have hp' := List.findIdx?_eq_none_iff.1 hnone p hp
      simp [hname] at hp'
    rw [List.map_append, List.nodup_append]
    refine ⟨h, List.nodup_singleton _, ?_⟩
    intro a ha b hb
    rw [List.mem_singleton.1 hb]
    rintro rfl
    exact hnew ha

lemma Consistent.designate {name : String} (h : g.Consistent) (hok : g.designate name node = .ok g') :
    g'.Consistent ∧ g'.nextId = g.nextId := by
  have hnodup := nodup_designate hok h.outputs_nodup
  unfold Graph.designate at hok
  split at hok
  · cases hok
  next hpresent =>
  have hnode : node ∈ g.ids := (contains_iff h.ordered).1 (by simpa using hpresent)
  split at hok
  · next i hi =>
    obtain rfl := Except.ok.inj hok
    refine ⟨⟨⟨h.ordered, h.below, h.closed⟩, ?_, hnodup, h.inputs_eq, h.inputs_bare⟩, rfl⟩
    intro out hout
    rcases mem_outputs_modify hout with hout | hout
    · exact h.outputs_mem out hout
    · rw [hout]
      exact hnode
  · obtain rfl := Except.ok.inj hok
    refine ⟨⟨⟨h.ordered, h.below, h.closed⟩, ?_, hnodup, h.inputs_eq, h.inputs_bare⟩, rfl⟩
    intro out hout
    rcases List.mem_append.1 hout with hout | hout
    · exact h.outputs_mem out hout
    · rw [List.mem_singleton.1 hout]
      exact hnode

/-! ### Edges -/

/-- Giving nodes other edges, from nodes that are there and none into an input. -/
lemma Consistent.rewired (h : g.Consistent) (hid : ∀ n ∈ g.nodes, (f n).id = n.id)
    (hkind : ∀ n ∈ g.nodes, (f n).isInput = n.isInput)
    (hin : ∀ n ∈ g.nodes, ∀ i ∈ (f n).inputs, i ∈ g.ids)
    (hbare : ∀ n ∈ g.nodes, n.isInput → (f n).inputs = []) :
      ({ g with nodes := g.nodes.map f } : Graph).Consistent := by
  have hids : ({ g with nodes := g.nodes.map f } : Graph).ids = g.ids := by
    unfold ids
    rw [List.map_map]
    exact List.map_congr_left hid
  refine ⟨⟨?_, ?_, ?_⟩, ?_, h.outputs_nodup, ?_, ?_⟩
  · rw [ordered_iff, hids]
    exact h.ordered.ids_ascend
  · intro m hm
    obtain ⟨n, hn, rfl⟩ := List.mem_map.1 hm
    rw [hid n hn]
    exact h.below n hn
  · intro m hm i hi
    obtain ⟨n, hn, rfl⟩ := List.mem_map.1 hm
    rw [hids]
    exact hin n hn i hi
  · intro out hout
    rw [hids]
    exact h.outputs_mem out hout
  · show g.inputs = ((g.nodes.map f).filter Node.isInput).map (·.id)
    rw [List.filter_map, List.map_map, h.inputs_eq, List.filter_congr (q := Node.isInput ∘ f)]
    · refine List.map_congr_left fun n hn => ?_
      exact (hid n (List.mem_filter.1 hn).1).symm
    · intro n hn
      exact (hkind n hn).symm
  · intro m hm hinput
    obtain ⟨n, hn, rfl⟩ := List.mem_map.1 hm
    rw [hkind n hn] at hinput
    exact hbare n hn hinput

lemma Consistent.setInputs (h : g.Consistent) (hok : g.setInputs id inputs = .ok g') :
    g'.Consistent ∧ g'.nextId = g.nextId := by
  unfold Graph.setInputs at hok
  split at hok
  · cases hok
  next hpresent =>
  have hin := mem_ids_of_requirePresent h.ordered hpresent
  split at hok
  · cases hok
  next n hn =>
  obtain ⟨hmem, rfl⟩ := (node?_eq_some_iff h.ordered).1 hn
  split at hok
  · cases hok
  next hguard =>
  obtain rfl := Except.ok.inj hok
  rw [modify_eq h.ordered]
  refine ⟨h.rewired ?_ ?_ ?_ ?_, rfl⟩
  · intro m _
    split <;> rfl
  · intro m _
    split <;> rfl
  · intro m hm i hi
    split at hi
    · exact hin i hi
    · exact h.closed m hm i hi
  · intro m hm hinput
    split
    · next hid =>
      -- the guard lets an input node have no edge but none
      obtain rfl := h.ordered.eq_of_id_eq hm hmem hid
      rw [hinput] at hguard
      simpa using hguard
    · exact h.inputs_bare m hm hinput

lemma Consistent.replaceUses {old new : NodeId} {keeps : Option NodeId} {r : Nat × Graph} (h : g.Consistent)
    (hok : g.replaceUses old new keeps = .ok r) : r.2.Consistent ∧ r.2.nextId = g.nextId := by
  unfold Graph.replaceUses at hok
  split at hok
  · cases hok
  next hpresent =>
  have hnew : new ∈ g.ids := mem_ids_of_requirePresent h.ordered hpresent new (by simp)
  obtain rfl := Except.ok.inj hok
  refine ⟨h.rewired ?_ ?_ ?_ ?_, rfl⟩
  · intro n _
    split <;> rfl
  · intro n _
    split <;> rfl
  · intro n hn i hi
    split at hi
    · obtain ⟨j, hj, rfl⟩ := List.mem_map.1 hi
      split
      · exact hnew
      · exact h.closed n hn j hj
    · exact h.closed n hn i hi
  · intro n hn hinput
    have hbare := h.inputs_bare n hn hinput
    split
    · simp [hbare]
    · exact hbare

/-! ### Removing -/

lemma mem_ids_filter : id ∈ ({ g with nodes := g.nodes.filter (·.id != node) } : Graph).ids ↔
    id ∈ g.ids ∧ id ≠ node := by
  rw [mem_ids, mem_ids]
  simp only [List.mem_filter, bne_iff_ne]
  constructor
  · rintro ⟨n, ⟨hn, hne⟩, rfl⟩
    exact ⟨⟨n, hn, rfl⟩, hne⟩
  · rintro ⟨⟨n, hn, rfl⟩, hne⟩
    exact ⟨n, ⟨hn, hne⟩, rfl⟩

/-- A node that is neither listed as input, nor used by an output or an edge, can go. -/
lemma Consistent.filtered (h : g.Consistent) (hinput : id ∉ g.inputs)
    (houtput : ∀ out ∈ g.outputs, out.node ≠ id) (hunused : ∀ n ∈ g.nodes, id ∉ n.inputs) :
    ({ g with nodes := g.nodes.filter (·.id != id) } : Graph).Consistent := by
  refine ⟨⟨?_, ?_, ?_⟩, ?_, h.outputs_nodup, ?_, ?_⟩
  · exact h.ordered.sublist List.filter_sublist
  · intro n hn
    exact h.below n (List.mem_filter.1 hn).1
  · intro n hn i hi
    have hn' := (List.mem_filter.1 hn).1
    refine mem_ids_filter.2 ⟨h.closed n hn' i hi, ?_⟩
    rintro rfl
    exact hunused n hn' hi
  · intro out hout
    exact mem_ids_filter.2 ⟨h.outputs_mem out hout, houtput out hout⟩
  · show g.inputs = ((g.nodes.filter (·.id != id)).filter Node.isInput).map (·.id)
    rw [h.inputs_eq, List.filter_filter]
    congr 1
    refine List.filter_congr fun n hn => ?_
    have hne : n.isInput = true → n.id ≠ id := by
      rintro hkind rfl
      apply hinput
      rw [h.inputs_eq]
      exact List.mem_map_of_mem (List.mem_filter.2 ⟨hn, hkind⟩)
    cases hkind : n.isInput with
    | false => rfl
    | true => simp [hne hkind]
  · intro n hn hkind
    exact h.inputs_bare n (List.mem_filter.1 hn).1 hkind

lemma Consistent.remove {r : Node × Graph} (h : g.Consistent) (hok : g.remove id = .ok r) :
    r.2.Consistent ∧ r.2.nextId = g.nextId := by
  obtain ⟨hinput, houtput⟩ := remove_ok hok
  unfold Graph.remove at hok
  split at hok
  · next i n hi hn =>
    split at hok
    · cases hok
    split at hok
    · cases hok
    split at hok
    · cases hok
    next hconsumers =>
    obtain rfl := Except.ok.inj hok
    rw [List.head?_eq_none_iff] at hconsumers
    unfold consumers at hconsumers
    rw [List.map_eq_nil_iff, List.filter_eq_nil_iff] at hconsumers
    refine ⟨?_, rfl⟩
    dsimp only
    rw [eraseIdx_eq_filter h.ordered hi]
    refine h.filtered hinput ?_ ?_
    · intro out hout hnode
      have hany : g.isOutput id = true := List.any_eq_true.2 ⟨out, hout, by simp [hnode]⟩
      rw [houtput] at hany
      cases hany
    · intro n hn huse
      exact hconsumers n hn (by simpa using huse)
  · cases hok

end Graph

/-! ### Edits -/

namespace EditAnswer

/-- The number that an answer gives out. -/
def number? : EditAnswer → Option NodeId
  | id i => some i
  | _ => none

end EditAnswer

namespace Edit

variable {e : Edit} {g g' : Graph} {answer : EditAnswer} {edits : List Edit}
    {answers : List (Except Refusal EditAnswer)}

/-- What is kept from one graph to the next: the second is consistent, and the numbers below its next one are
those of the first and the one that was given out, if any. -/
structure Step (g : Graph) (given : List NodeId) (g' : Graph) : Prop where
  consistent : g'.Consistent
  numbers : List.range g'.nextId = List.range g.nextId ++ given

lemma Step.of_same (h : g'.Consistent) (hnext : g'.nextId = g.nextId) : Step g [] g' :=
  ⟨h, by rw [hnext, List.append_nil]⟩

lemma Step.of_appended (h : g'.Consistent) (hnext : g'.nextId = g.nextId + 1) : Step g [g.nextId] g' :=
  ⟨h, by rw [hnext, List.range_succ]⟩

lemma Step.trans {given more : List NodeId} {g'' : Graph} (h : Step g given g') (h' : Step g' more g'') :
    Step g (given ++ more) g'' :=
  ⟨h'.consistent, by rw [h'.numbers, h.numbers, List.append_assoc]⟩

/-- **An accepted edit keeps a graph consistent**, and gives out the next number or none. -/
theorem apply_step (h : g.Consistent) (hok : e.apply g = .ok (.ok (answer, g'))) :
    Step g answer.number?.toList g' := by
  cases e with
  | addInput name ty =>
    obtain ⟨r, hr, hout⟩ := Checked.map_eq_ok.1 hok
    cases Except.ok.inj hout
    rw [Graph.addInput_ok hr]
    exact .of_appended (h.appended_input rfl rfl rfl) rfl
  | addConstant value ty =>
    obtain ⟨r, hr, hout⟩ := Checked.map_eq_ok.1 hok
    cases Except.ok.inj hout
    rw [Graph.append_ok hr]
    exact .of_appended (h.appended_one rfl rfl (by simp [Node.plain])) rfl
  | addOperation op inputs ty =>
    obtain ⟨made, hmade, hout⟩ := Checked.map_eq_ok.1 hok
    obtain ⟨r, rfl, hr⟩ := Checked.map_eq_ok.1 hout
    obtain ⟨hin, rfl⟩ := Graph.require_append_ok h.ordered hmade
    cases hr
    exact .of_appended (h.appended_one rfl rfl hin) rfl
  | insertLike template inputs =>
    obtain ⟨made, hmade, hout⟩ := Checked.map_eq_ok.1 hok
    obtain ⟨r, rfl, hr⟩ := Checked.map_eq_ok.1 hout
    unfold Graph.insertLike at hmade
    split at hmade
    · cases hmade
    next hkind =>
    have hcopied : template.isInput = false := by simpa using hkind
    obtain ⟨hin, rfl⟩ := Graph.require_append_ok h.ordered hmade
    cases hr
    exact .of_appended (h.appended_one rfl hcopied hin) rfl
  | designate name node =>
    obtain ⟨r, hr, hout⟩ := Checked.map_eq_ok.1 (Except.ok.inj hok)
    cases hout
    obtain ⟨hc, hnext⟩ := h.designate hr
    exact .of_same hc hnext
  | setInputs node inputs =>
    obtain ⟨r, hr, hout⟩ := Checked.map_eq_ok.1 (Except.ok.inj hok)
    cases hout
    obtain ⟨hc, hnext⟩ := h.setInputs hr
    exact .of_same hc hnext
  | replaceUses old new keeps =>
    obtain ⟨r, hr, hout⟩ := Checked.map_eq_ok.1 (Except.ok.inj hok)
    cases hout
    obtain ⟨hc, hnext⟩ := h.replaceUses hr
    exact .of_same hc hnext
  | remove node =>
    obtain ⟨r, hr, hout⟩ := Checked.map_eq_ok.1 (Except.ok.inj hok)
    cases hout
    obtain ⟨hc, hnext⟩ := h.remove hr
    exact .of_same hc hnext
  | setHints hints =>
    cases hok
    exact .of_same ⟨⟨h.ordered, h.below, h.closed⟩, h.outputs_mem, h.outputs_nodup,
      h.inputs_eq, h.inputs_bare⟩ rfl

/-! ### Runs of edits -/

/-- The numbers given out along a run. -/
def handedOut (answers : List (Except Refusal EditAnswer)) : List NodeId :=
  answers.flatMap fun
    | .ok answer => answer.number?.toList
    | .error _ => []

lemma exec_refused {refusal : Refusal} (hok : e.exec g = .ok (.error refusal, g')) : g' = g := by
  rw [exec_eq] at hok
  obtain ⟨out, hout, hsettle⟩ := Checked.map_eq_ok.1 hok
  cases out with
  | error r =>
    cases hsettle
    rfl
  | ok r => cases hsettle

lemma exec_step {out : Except Refusal EditAnswer} (h : g.Consistent) (hok : e.exec g = .ok (out, g')) :
    Step g (handedOut [out]) g' := by
  have hexec := hok
  rw [exec_eq] at hexec
  obtain ⟨r, hr, hsettle⟩ := Checked.map_eq_ok.1 hexec
  cases r with
  | error refusal =>
    cases hsettle
    exact .of_same h rfl
  | ok r =>
    cases hsettle
    simpa [handedOut] using apply_step h hr

theorem execAll_step (h : g.Consistent) (hok : execAll edits g = .ok (answers, g')) :
    Step g (handedOut answers) g' := by
  induction edits generalizing g answers with
  | nil =>
    cases hok
    exact .of_same h rfl
  | cons e rest ih =>
    obtain ⟨⟨out, g₁⟩, hexec, hok⟩ := Checked.bind_eq_ok.1 hok
    obtain ⟨⟨more, g₂⟩, hrest, hok⟩ := Checked.bind_eq_ok.1 hok
    cases hok
    have hstep := exec_step h hexec
    have hrun := ih hstep.consistent hrest
    simpa [handedOut] using hstep.trans hrun

/-- While numbers are left, every edit is made or refused. -/
lemma exists_exec (h : g.nextId + 1 < wordLimit) (e : Edit) : ∃ out, e.exec g = .ok out := by
  have happly : ∃ r, e.apply g = .ok r := by
    cases e with
    | addInput name ty =>
      dsimp only [apply, Graph.addInput]
      rw [Graph.append_eq h]
      exact ⟨_, rfl⟩
    | addConstant value ty =>
      dsimp only [apply, Graph.addConstant]
      rw [Graph.append_eq h]
      exact ⟨_, rfl⟩
    | addOperation op inputs ty =>
      dsimp only [apply, Graph.addOperation]
      rw [Graph.append_eq h]
      cases g.requirePresent inputs with
      | error e => exact ⟨_, rfl⟩
      | ok _ => exact ⟨_, rfl⟩
    | insertLike template inputs =>
      dsimp only [apply, Graph.insertLike]
      rw [Graph.append_eq h]
      cases template.isInput with
      | true => exact ⟨_, rfl⟩
      | false =>
        cases g.requirePresent inputs with
        | error e => exact ⟨_, rfl⟩
        | ok _ => exact ⟨_, rfl⟩
    | designate _ _ | setInputs _ _ | replaceUses _ _ _ | remove _ | setHints _ => exact ⟨_, rfl⟩
  obtain ⟨r, hr⟩ := happly
  rw [exec_eq, hr]
  exact ⟨_, rfl⟩

/-- **The store after any edits.**  Whatever edits have been asked of the empty graph, accepted or refused, the
graph is consistent, so that the halving search finds exactly the nodes that are there.  The numbers given out
are the first ones in order, each once, and the next edit is made or refused while there are numbers left.  A
refused edit leaves the whole graph as it was. -/
theorem execAll_consistent {name : String} (hrun : execAll edits (Graph.empty name) = .ok (answers, g)) :
    g.Consistent ∧
    (∀ id, g.contains id = true ↔ id ∈ g.ids) ∧
    (∀ id n, g.node? id = some n ↔ n ∈ g.nodes ∧ n.id = id) ∧
    handedOut answers = List.range g.nextId ∧ (handedOut answers).Nodup ∧
    ((handedOut answers).length + 1 < wordLimit → ∀ e : Edit, ∃ out, e.exec g = .ok out) ∧
    ∀ (e : Edit) (refusal : Refusal) (g' : Graph), e.exec g = .ok (.error refusal, g') → g' = g := by
  have hstep := execAll_step (Graph.Consistent.empty name) hrun
  have hgiven : handedOut answers = List.range g.nextId := by simpa [Graph.empty] using hstep.numbers.symm
  have hordered := hstep.consistent.ordered
  refine ⟨hstep.consistent, fun id => Graph.contains_iff hordered, fun id n => Graph.node?_eq_some_iff hordered,
    hgiven, ?_, ?_, fun e refusal g' => exec_refused⟩
  · rw [hgiven]
    exact List.nodup_range
  · intro hleft e
    rw [hgiven, List.length_range] at hleft
    exact exists_exec hleft e

/-- A node is removed and another one made; edges from and outputs on missing nodes are refused, and so is
the removal of an output. -/
def churn : List Edit :=
  [.addInput "a" .scalar, .addOperation .interfere [0, 0] .scalar, .addOperation .merge [0, 0] .scalar,
    .designate "y" 1, .setInputs 1 [0, 9], .remove 2, .designate "z" 2, .remove 1,
    .addOperation .merge [1, 1] .scalar]

theorem execAll_consistent_churn : ∃ answers g, execAll churn (Graph.empty "churn") = .ok (answers, g) ∧
    g.Consistent ∧ g.ids = [0, 1, 3] ∧ handedOut answers = [0, 1, 2, 3] ∧
    (Edit.remove 0).exec g = .ok (.error (.declaredInput 0), g) := by
  obtain ⟨answers, g, hrun, hids, hnext, hremove⟩ : ∃ answers g,
      execAll churn (Graph.empty "churn") = .ok (answers, g) ∧ g.ids = [0, 1, 3] ∧ g.nextId = 4 ∧
        (Edit.remove 0).exec g = .ok (.error (.declaredInput 0), g) :=
    ⟨_, _, rfl, rfl, rfl, rfl⟩
  obtain ⟨hconsistent, -, -, hgiven, -⟩ := execAll_consistent hrun
  exact ⟨answers, g, hrun, hconsistent, hids, by rw [hgiven, hnext]; rfl, hremove⟩

end Edit

end Waveflow
