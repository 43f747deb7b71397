import Waveflow.Proofs.Lowering.Interface
import Waveflow.Proofs.Source.Types

/-!
# Lowering goes along with the types

As long as a program has types, no error is recorded and the node behind a name has the type of the name; where it has
none, an error is recorded (`statements_judged`).  So lowering ends without an error exactly if the program is well
typed (`lower_clean_iff`).
-/

namespace Waveflow

variable {r : Registry} {outputs : List Declaration} {env : Environment ValueType} {name : String} {ty : ValueType}

/-! ### Types of nodes -/

namespace Graph

variable {g g' : Graph} {n : Node} {id : NodeId}

/-- The type of a node. -/
def type? (g : Graph) (id : NodeId) : Option ValueType := (g.node? id).map (·.ty)

lemma type?_of_mem (h : g.Ordered) (hn : n ∈ g.nodes) : g.type? n.id = some n.ty := by
  unfold type?
  rw [h.node?_of_mem hn]
  rfl

lemma mem_ids_of_type? (h : g.Ordered) (hty : g.type? id = some ty) : id ∈ g.ids := by
  obtain ⟨n, hn, -⟩ := Option.map_eq_some_iff.1 hty
  obtain ⟨hmem, rfl⟩ := (node?_eq_some_iff h).1 hn
  exact id_mem_ids hmem

/-- Nodes that stay keep their types. -/
lemma type?_eq_of_subset (h : g.Ordered) (h' : g'.Ordered) (hsub : ∀ n ∈ g.nodes, n ∈ g'.nodes)
    (hid : id ∈ g.ids) :
    g'.type? id = g.type? id := by
  obtain ⟨n, hn, rfl⟩ := mem_ids.1 hid
  rw [type?_of_mem h hn, type?_of_mem h' (hsub n hn)]

lemma type?_modify (h : g.Ordered) {f : Node → Node} (hf : Renames f) (hty : ∀ n, (f n).ty = n.ty) (i : NodeId) :
    (g.modify id f).type? i = g.type? i := by
  have hids : (g.modify id f).ids = g.ids := ids_modify h hf
  have h' : (g.modify id f).Ordered := by
    rw [ordered_iff, hids]
    exact h.ids_ascend
  by_cases hi : i ∈ g.ids
  · obtain ⟨n, hn, rfl⟩ := mem_ids.1 hi
    have hmem : (if n.id = id then f n else n) ∈ (g.modify id f).nodes := by
      rw [modify_eq h]
      exact List.mem_map_of_mem hn
    have hkeeps : (if n.id = id then f n else n).id = n.id ∧ (if n.id = id then f n else n).ty = n.ty := by
      split
      · exact ⟨(hf n).1, hty n⟩
      · exact ⟨rfl, rfl⟩
    rw [type?_of_mem h hn, ← hkeeps.1, type?_of_mem h' hmem, hkeeps.2]
  · unfold type?
    rw [(node?_eq_none_iff h).2 hi, (node?_eq_none_iff h').2 (hids ▸ hi)]

lemma mem_ids_of_types (h : g.Ordered) {ids : List NodeId} {tys : List ValueType}
    (hids : List.Forall₂ (fun id ty => g.type? id = some ty) ids tys) : ∀ i ∈ ids, i ∈ g.ids := by
  induction hids with
  | nil => exact fun i hi => absurd hi List.not_mem_nil
  | cons hty _ ih =>
    intro i hi
    rcases List.mem_cons.1 hi with rfl | hi
    · exact mem_ids_of_type? h hty
    · exact ih i hi

/-- The types of nodes that are there, read off one by one. -/
lemma map_ty_eq {ids : List NodeId} {tys : List ValueType}
    (h : List.Forall₂ (fun id ty => g.type? id = some ty) ids tys) : (ids.filterMap g.node?).map (·.ty) = tys := by
  induction h with
  | nil => rfl
  | cons hty _ ih =>
    obtain ⟨n, hn, rfl⟩ := Option.map_eq_some_iff.1 hty
    rw [List.filterMap_cons_some hn, List.map_cons, ih]

end Graph

namespace Lowering

open State

variable {st st' st'' : State} {id : NodeId} {around : Params}

lemma Extends.subset {g g' : Graph} (h : Extends outputs g g') : ∀ n ∈ g.nodes, n ∈ g'.nodes := by
  cases h with
  | append => exact fun n hn => List.mem_append_left _ hn
  | designate _ _ hok =>
    obtain ⟨ports, rfl⟩ := Graph.eq_of_designate hok
    exact fun n hn => hn

lemma Extended.subset {g g' : Graph} (h : Extended outputs g g') : ∀ n ∈ g.nodes, n ∈ g'.nodes := by
  induction h with
  | refl => exact fun n hn => hn
  | tail _ hstep ih => exact fun n hn => hstep.subset n (ih n hn)

/-! ### States of typed programs -/

/-- An interpretation that says nothing: here it does not matter what a graph computes. -/
def silent : Interpretation Unit := ⟨fun _ => (), fun _ _ _ => ()⟩

/-- What holds of the state of every walk, whatever its constants. -/
abbrev State.Sound (outputs : List Declaration) (st : State) : Prop := st.Fine (fun _ => True) outputs

/-- No error is recorded, the node behind a name has the type of the name, shared constants are scalars, and a declared
output that has a type stands for a node. -/
structure State.Typed (outputs : List Declaration) (st : State) (env : Environment ValueType) : Prop where
  clean : st.errors = []
  bound : ∀ name, env name = (st.bindings.lookup name).bind st.graph.type?
  constants : ∀ bits id, st.constants.lookup bits = some id → st.graph.type? id = some .scalar
  designated : ∀ d ∈ outputs, (env d.name).isSome → (st.graph.output? d.name).isSome

/-- What has only grown is typed as before. -/
lemma State.Typed.grew (h : st.Typed outputs env) (hfine : st.Sound outputs) (hfine' : st'.Sound outputs)
    (hgrew : st.Grew st') (hextended : Extended outputs st.graph st'.graph)
    (hconstants : ∀ bits id, st'.constants.lookup bits = some id → st'.graph.type? id = some .scalar) :
    st'.Typed outputs env where
  clean := hgrew.errors.trans h.clean
  bound := by
    intro name
    rw [h.bound, hgrew.bindings]
    cases hid : st.bindings.lookup name with
    | none => rfl
    | some id =>
      exact (Graph.type?_eq_of_subset hfine.graph.wellFormed.ordered hfine'.graph.wellFormed.ordered hextended.subset
        (hfine.bound name id hid)).symm
  constants := hconstants
  designated := fun d hd hbound => by
    rw [hgrew.output?]
    exact h.designated d hd hbound

/-- Constants keep their types. -/
lemma State.Typed.constants_extended (h : st.Typed outputs env) (hfine : st.Sound outputs) (hfine' : st'.Sound outputs)
    (hextended : Extended outputs st.graph st'.graph) (bits : UInt64) (id : NodeId)
    (hid : st.constants.lookup bits = some id) : st'.graph.type? id = some .scalar := by
  have hty := h.constants bits id hid
  rw [Graph.type?_eq_of_subset hfine.graph.wellFormed.ordered hfine'.graph.wellFormed.ordered hextended.subset
    (Graph.mem_ids_of_type? hfine.graph.wellFormed.ordered hty), hty]

/-! ### Operands and calls -/

/-- The phrase has been lowered to a node of its type, or it has failed and there is no type. -/
def Lowered.Agrees {α β : Type} (rel : α → β → Prop) (expected : Option β) : Lowered α → Prop
  | .value a => ∃ b, expected = some b ∧ rel a b
  | .poisoned => False
  | .failed _ => expected = none

lemma constant_sound (h : st.Sound outputs) {x : Double} (hok : constant x st = .ok (id, st')) :
    st'.Sound outputs ∧ st.Grew st' := by
  obtain ⟨hfine, hgrew, -⟩ := (constant_yields (I := silent) (ρ := fun _ => ()) h trivial).of_ok hok
  exact ⟨hfine, hgrew⟩

lemma constant_typed (h : st.Typed outputs env) (hfine : st.Sound outputs) {x : Double}
    (hok : constant x st = .ok (id, st')) : st'.Typed outputs env ∧ st'.graph.type? id = some .scalar := by
  have hextended := constant_extended outputs hok
  obtain ⟨hfine', hgrew⟩ := constant_sound hfine hok
  unfold constant at hok
  split at hok
  · next hid =>
    cases hok
    exact ⟨h, h.constants _ _ hid⟩
  · obtain ⟨out, hout, hok⟩ := Checked.bind_eq_ok.1 hok
    cases Graph.append_ok hout
    cases hok
    have hnew := Graph.type?_of_mem hfine'.graph.wellFormed.ordered
      (List.mem_append_right _ (List.mem_singleton.2 rfl))
    refine ⟨h.grew hfine hfine' hgrew hextended fun bits i hi => ?_, hnew⟩
    change List.lookup bits ((x.bits, st.graph.nextId) :: st.constants) = some i at hi
    rw [List.lookup_cons] at hi
    split at hi
    · obtain rfl := Option.some.inj hi
      exact hnew
    · exact h.constants_extended hfine hfine' hextended bits i hi

lemma operand_sound (h : st.Sound outputs) {a : Argument} {lowered : Lowered NodeId}
    (hok : operand a st = .ok (lowered, st')) : st'.Sound outputs ∧ st.Grew st' := by
  obtain ⟨hfine, hgrew, -⟩ :=
    (operand_yields (I := silent) (ρ := fun _ => ()) h (a := a) fun _ _ => trivial).of_ok hok
  exact ⟨hfine, hgrew⟩

lemma operand_typed (h : st.Typed outputs env) (hfine : st.Sound outputs) {a : Argument} {lowered : Lowered NodeId}
    (hok : operand a st = .ok (lowered, st')) :
    st'.Typed outputs env ∧ lowered.Agrees (fun id ty => st'.graph.type? id = some ty) (a.type? env) := by
  unfold operand at hok
  unfold Argument.type?
  cases hvalue : a.value with
  | identifier name =>
    rw [hvalue] at hok
    dsimp only at hok ⊢
    rw [h.bound]
    split at hok
    · next id hid =>
      cases hok
      obtain ⟨n, hn, hnid⟩ := Graph.mem_ids.1 (hfine.bound name id hid)
      have hty := Graph.type?_of_mem hfine.graph.wellFormed.ordered hn
      rw [hnid] at hty
      exact ⟨h, n.ty, by rw [hid, Option.bind_some, hty], hty⟩
    · next hnone =>
      rw [hnone, Option.bind_none]
      rw [hfine.clean h.clean] at hok
      cases hok
      exact ⟨h, rfl⟩
  | literal value =>
    rw [hvalue] at hok
    cases value with
    | number x =>
      obtain ⟨⟨id, st₁⟩, hconstant, hok⟩ := Checked.bind_eq_ok.1 hok
      cases hok
      obtain ⟨htyped, hty⟩ := constant_typed h hfine hconstant
      exact ⟨htyped, _, rfl, hty⟩
    | text s =>
      cases hok
      exact ⟨h, rfl⟩

lemma operands_typed (h : st.Typed outputs env) (hfine : st.Sound outputs) {arguments : List Argument}
    {lowered : Lowered (List NodeId)} (hok : operands arguments st = .ok (lowered, st')) :
    st'.Sound outputs ∧ st.Grew st' ∧ st'.Typed outputs env ∧
      lowered.Agrees (List.Forall₂ fun id ty => st'.graph.type? id = some ty)
        (arguments.mapM (Argument.type? env)) := by
  induction arguments generalizing st st' lowered with
  | nil =>
    cases hok
    exact ⟨hfine, Grew.refl _, h, [], List.mapM_nil, .nil⟩
  | cons a rest ih =>
    unfold operands at hok
    rw [List.mapM_cons]
    obtain ⟨⟨first, st₁⟩, hfirst, hok⟩ := Checked.bind_eq_ok.1 hok
    obtain ⟨hfine₁, hgrew₁⟩ := operand_sound hfine hfirst
    obtain ⟨htyped₁, hagrees₁⟩ := operand_typed h hfine hfirst
    cases first with
    | failed e =>
      cases hok
      have hnone : a.type? env = none := hagrees₁
      exact ⟨hfine₁, hgrew₁, htyped₁, by rw [hnone]; rfl⟩
    | poisoned => exact hagrees₁.elim
    | value id =>
      obtain ⟨ty, hty, hid⟩ := hagrees₁
      obtain ⟨⟨more, st₂⟩, hmore, hok⟩ := Checked.bind_eq_ok.1 hok
      obtain ⟨hfine₂, hgrew₂, htyped₂, hagrees₂⟩ := ih htyped₁ hfine₁ hmore
      rw [hty]
      cases more with
      | failed e =>
        cases hok
        have hnone : rest.mapM (Argument.type? env) = none := hagrees₂
        exact ⟨hfine₂, hgrew₁.trans hgrew₂, htyped₂, by rw [hnone]; rfl⟩
      | poisoned => exact hagrees₂.elim
      | value ids =>
        cases hok
        obtain ⟨tys, htys, hids⟩ := hagrees₂
        refine ⟨hfine₂, hgrew₁.trans hgrew₂, htyped₂, ty :: tys, by rw [htys]; rfl, .cons ?_ hids⟩
        have hextended := operands_extended outputs hmore
        rw [Graph.type?_eq_of_subset hfine₁.graph.wellFormed.ordered hfine₂.graph.wellFormed.ordered
          hextended.subset (Graph.mem_ids_of_type? hfine₁.graph.wellFormed.ordered hid), hid]

/-- The node that a call adds has the type of the result. -/
lemma addCall_typed (h : st.Typed outputs env) (hfine : st.Sound outputs) {spec : OpSpec} {c : Call}
    {ids : List NodeId} {tys : List ValueType}
    (hids : List.Forall₂ (fun id ty => st.graph.type? id = some ty) ids tys)
    {lowered : Lowered NodeId} (hok : addCall spec around c ids st = .ok (lowered, st')) :
    st'.Sound outputs ∧ st.Grew st' ∧ st'.Typed outputs env ∧
      lowered.Agrees (fun id ty => st'.graph.type? id = some ty) (spec.resultType tys).toOption := by
  have hnumbered := hfine.graph.wellFormed.numbered
  have hpresent := Graph.mem_ids_of_types hnumbered.ordered hids
  obtain ⟨hfine', hgrew, -⟩ :=
    (addCall_yields (I := silent) (ρ := fun _ => ()) hfine spec around c hpresent).of_ok hok
  have hextended := addCall_extended outputs hnumbered hok
  unfold addCall callType at hok
  rw [Graph.map_ty_eq hids] at hok
  cases hresult : spec.resultType tys with
  | error message =>
    rw [hresult] at hok
    cases hok
    exact ⟨hfine, Grew.refl _, h, rfl⟩
  | ok ty =>
    rw [hresult] at hok
    dsimp only at hok
    obtain ⟨added, hadded, hok⟩ := Checked.bind_eq_ok.1 hok
    have hadd := (Graph.addOperation_yields hnumbered.ordered spec.kind ty hpresent).of_ok hadded
    rw [hadd] at hok
    cases hok
    have hlast := Last.extended hextended
    refine ⟨hfine', hgrew, h.grew hfine hfine' hgrew hlast (h.constants_extended hfine hfine' hlast), ty, rfl, ?_⟩
    dsimp only
    rw [Graph.modify_appended_one hnumbered rfl] at hfine' ⊢
    exact Graph.type?_of_mem hfine'.graph.wellFormed.ordered (List.mem_append_right _ (List.mem_singleton.2 rfl))

/-- **A call is lowered to a node of its type**, or fails and has no type. -/
theorem call_typed (h : st.Typed outputs env) (hfine : st.Sound outputs) {c : Call} {lowered : Lowered NodeId}
    (hok : call r around c st = .ok (lowered, st')) :
    st'.Sound outputs ∧ st.Grew st' ∧ st'.Typed outputs env ∧
      lowered.Agrees (fun id ty => st'.graph.type? id = some ty) (c.type? r env) := by
  unfold call at hok
  unfold Call.type?
  split at hok
  · next hnone =>
    rw [hnone]
    cases hok
    exact ⟨hfine, Grew.refl _, h, rfl⟩
  · next spec hspec =>
    rw [hspec, Option.bind_some]
    obtain ⟨⟨ids, st₁⟩, hids, hok⟩ := Checked.bind_eq_ok.1 hok
    obtain ⟨hfine₁, hgrew₁, htyped₁, hagrees⟩ := operands_typed h hfine hids
    cases ids with
    | failed e =>
      cases hok
      have hnone : (c.operands spec).mapM (Argument.type? env) = none := hagrees
      exact ⟨hfine₁, hgrew₁, htyped₁, by rw [hnone]; rfl⟩
    | poisoned => exact hagrees.elim
    | value ids =>
      obtain ⟨tys, htys, hids⟩ := hagrees
      have htys : (c.operands spec).mapM (Argument.type? env) = some tys := htys
      rw [htys, Option.bind_some]
      obtain ⟨hfine₂, hgrew₂, htyped₂, hagrees⟩ := addCall_typed htyped₁ hfine₁ hids hok
      exact ⟨hfine₂, hgrew₁.trans hgrew₂, htyped₂, hagrees⟩

/-! ### Names -/

/-- Lowering has gone along with the types, or has recorded an error where there are none. -/
def State.Judged (outputs : List Declaration) (st : State) : Option (Environment ValueType) → Prop
  | some env => st.Typed outputs env
  | none => st.errors ≠ []

/-- The name of a declared output, and its declaration. -/
lemma outputNamed?_name {d : Declaration} (h : outputNamed? outputs name = some d) : d.name = name := by
  have hbeq := List.find?_some (p := fun d : Declaration => d.name == name) h
  exact beq_iff_eq.1 hbeq

lemma ne_of_outputNamed?_eq_none (h : outputNamed? outputs name = none) {d : Declaration} (hd : d ∈ outputs) :
    d.name ≠ name := by
  have hnot := List.find?_eq_none.1 h d hd
  simpa using hnot

lemma bindType?_of_none (h : outputNamed? outputs name = none) :
    env.bindType? outputs name ty = some (env.bind name ty) :=
  if_pos fun _ hd hname => absurd hname (ne_of_outputNamed?_eq_none h hd)

/-- Declared outputs have distinct names, so that one declaration decides. -/
lemma fits_iff (hdistinct : (outputs.map (·.name)).Nodup) {d : Declaration} (h : outputNamed? outputs name = some d) :
    Fits outputs name ty ↔ d.ty = ty := by
  constructor
  · intro hfits
    exact hfits d (outputNamed?_mem h) (outputNamed?_name h)
  · intro hty e he hname
    have hsame := List.inj_on_of_nodup_map hdistinct he (outputNamed?_mem h) (hname.trans (outputNamed?_name h).symm)
    rw [hsame, hty]

lemma State.Typed.bound_bind (h : st.Typed outputs env) (hty : st.graph.type? id = some ty) (name other : String) :
    env.bind name ty other = ((st.bind name id).bindings.lookup other).bind (st.bind name id).graph.type? := by
  rw [lookup_bind]
  unfold Environment.bind
  by_cases hother : other = name
  · rw [if_pos hother, hother, Function.update_self]
    exact hty.symm
  · rw [if_neg hother, Function.update_of_ne hother]
    exact h.bound other

/-- A name that is no declared output is bound. -/
lemma judged_bind (h : st.Typed outputs env) (hty : st.graph.type? id = some ty)
    (hnone : outputNamed? outputs name = none) : (st.bind name id).Judged outputs (env.bindType? outputs name ty) := by
  rw [bindType?_of_none hnone]
  refine ⟨h.clean, h.bound_bind hty name, h.constants, fun d hd hbound => ?_⟩
  rcases Environment.isSome_bind.1 hbound with hname | hbound
  · exact absurd hname (ne_of_outputNamed?_eq_none hnone hd)
  · exact h.designated d hd hbound

/-- A declared output is bound, and stands for the node if that has its type. -/
lemma judged_designate (h : st.Typed outputs env) (hfine : st.Sound outputs)
    (hdistinct : (outputs.map (·.name)).Nodup) (hty : st.graph.type? id = some ty) {d : Declaration}
    (hout : outputNamed? outputs name = some d) :
    (designate d id (st.bind name id)).Judged outputs (env.bindType? outputs name ty) := by
  obtain ⟨n, hn, rfl⟩ := Option.map_eq_some_iff.1 hty
  have hid := Graph.mem_ids_of_type? hfine.graph.wellFormed.ordered hty
  obtain ⟨moved, hmoved, -⟩ := Graph.designate_ok hfine.graph.wellFormed.ordered hid d.name
  unfold designate Environment.bindType?
  rw [show (st.bind name id).graph = st.graph from rfl, hn, hmoved]
  dsimp only
  by_cases hfit : n.ty = d.ty
  · rw [if_neg (not_not.2 hfit), if_pos ((fits_iff hdistinct hout).2 hfit.symm)]
    refine ⟨h.clean, h.bound_bind hty name, h.constants, fun e he hbound => ?_⟩
    rw [Graph.output?_designate hmoved]
    split
    · rfl
    · next hne =>
      rcases Environment.isSome_bind.1 hbound with hname | hbound
      · exact absurd (hname.trans (outputNamed?_name hout).symm) hne
      · exact h.designated e he hbound
  · rw [if_pos hfit, if_neg fun hfits => hfit ((fits_iff hdistinct hout).1 hfits).symm]
    exact fail_errors _ _

/-! ### Statements -/

lemma judged_assignment (h : st.Typed outputs env) (hfine : st.Sound outputs)
    (hdistinct : (outputs.map (·.name)).Nodup) {target : String} {c : Call} {span : Span}
    (hok : assignment r outputs around target c st = .ok st') :
    st'.Judged outputs ((Statement.assignment target c span).types? r outputs env) := by
  unfold assignment at hok
  unfold Statement.types?
  obtain ⟨⟨lowered, st₁⟩, hcall, hok⟩ := Checked.bind_eq_ok.1 hok
  obtain ⟨hfine₁, -, htyped₁, hagrees⟩ := call_typed h hfine hcall
  cases lowered with
  | failed e =>
    cases hok
    have hnone : c.type? r env = none := hagrees
    rw [hnone]
    exact fail_errors _ _
  | poisoned => exact hagrees.elim
  | value id =>
    obtain ⟨ty, hcty, hty⟩ := hagrees
    have hordered := hfine₁.graph.wellFormed.ordered
    have hnamed : Graph.Renames (fun n => { n with name := some target }) := fun _ => ⟨rfl, rfl, rfl, rfl⟩
    have htype : ∀ i, (st₁.graph.modify id fun n => { n with name := some target }).type? i = st₁.graph.type? i :=
      Graph.type?_modify hordered hnamed fun _ => rfl
    -- the node gets the name of the target, which changes no type
    let st₂ : State := { st₁ with graph := st₁.graph.modify id (fun n => { n with name := some target }) }
    have htyped₂ : st₂.Typed outputs env := by
      refine ⟨htyped₁.clean, fun name => ?_, fun bits i hi => (htype i).trans (htyped₁.constants bits i hi), ?_⟩
      · rw [htyped₁.bound name, show st₂.graph.type? = st₁.graph.type? from funext htype]
      · intro d hd hbound
        have houtputs : st₂.graph.output? d.name = st₁.graph.output? d.name := by
          unfold Graph.output?
          rw [Graph.outputs_modify hordered]
        rw [houtputs]
        exact htyped₁.designated d hd hbound
    have hgrew₂ : st₁.Grew st₂ :=
      ⟨Graph.grows_modify hordered hnamed, Graph.inputs_modify hordered, Graph.outputs_modify hordered,
        rfl, rfl, rfl⟩
    have hfine₂ : st₂.Sound outputs :=
      hfine₁.grew hgrew₂ (hfine₁.graph.modify hnamed) (hfine₁.shared_grows hgrew₂.grows)
    have hty₂ : st₂.graph.type? id = some ty := (htype id).trans hty
    dsimp only at hok hcty
    rw [hcty, Option.bind_some]
    cases hout : outputNamed? outputs target with
    | none =>
      rw [hout] at hok
      cases hok
      exact judged_bind htyped₂ hty₂ hout
    | some d =>
      rw [hout] at hok
      cases hok
      exact judged_designate htyped₂ hfine₂ hdistinct hty₂ hout

lemma judged_rebind (h : st.Typed outputs env) (hfine : st.Sound outputs) (hdistinct : (outputs.map (·.name)).Nodup)
    (hty : st.graph.type? id = some ty) (hbound : (env name).isSome) :
    (rebind outputs name id st).Judged outputs (env.bindType? outputs name ty) := by
  unfold rebind
  dsimp only
  cases hout : outputNamed? outputs name with
  | none => exact judged_bind h hty hout
  | some d =>
    have hname := outputNamed?_name hout
    have hdesignated : ((st.bind name id).graph.output? name).isSome := by
      have houtput := h.designated d (outputNamed?_mem hout) (hname.symm ▸ hbound)
      rwa [hname] at houtput
    dsimp only
    rw [if_pos hdesignated]
    exact judged_designate h hfine hdistinct hty hout

lemma judged_bareCall (h : st.Typed outputs env) (hfine : st.Sound outputs) (hdistinct : (outputs.map (·.name)).Nodup)
    {c : Call} (hok : bareCall r outputs around c st = .ok st') :
    st'.Judged outputs ((Statement.call c).types? r outputs env) := by
  unfold bareCall at hok
  unfold Statement.types?
  obtain ⟨⟨lowered, st₁⟩, hcall, hok⟩ := Checked.bind_eq_ok.1 hok
  obtain ⟨hfine₁, -, htyped₁, hagrees⟩ := call_typed h hfine hcall
  have htarget : c.target? = rebound? c := rfl
  rw [htarget]
  cases lowered with
  | failed e =>
    have hnone : c.type? r env = none := hagrees
    rw [hnone]
    cases hname : rebound? c <;> rw [hname] at hok <;> cases hok <;> exact fail_errors _ _
  | poisoned => exact hagrees.elim
  | value id =>
    obtain ⟨ty, hcty, hty⟩ := hagrees
    have hcty : c.type? r env = some ty := hcty
    rw [hcty, Option.bind_some]
    cases hname : rebound? c with
    | none =>
      rw [hname] at hok
      cases hok
      exact htyped₁
    | some name =>
      rw [hname] at hok
      cases hok
      exact judged_rebind htyped₁ hfine₁ hdistinct hty (Call.isSome_of_target? hcty hname)

/-- What holds of the state of every walk between statements, whatever its constants. -/
abbrev State.Calm (outputs : List Declaration) (st : State) : Prop := st.Settled (fun _ => True) outputs

/-- A statement leaves a calm state, and takes no error back. -/
lemma calm_statement (h : st.Calm outputs) {s : Statement} (hok : statement r outputs around s st = .ok st') :
    st'.Calm outputs ∧ (st'.errors = [] → st.errors = []) := by
  obtain ⟨hcalm, hfollows⟩ :=
    (statement_yields (I := silent) (ρ := fun _ => ()) h r around s fun _ _ _ _ _ _ => trivial).of_ok hok
  exact ⟨hcalm, hfollows.errors⟩

lemma calm_statements (h : st.Calm outputs) {body : List Statement}
    (hok : statements r outputs around body st = .ok st') : st'.Calm outputs ∧
    (st'.errors = [] → st.errors = []) := by
  obtain ⟨hcalm, hfollows⟩ :=
    (statements_yields (I := silent) (ρ := fun _ => ()) h r around body fun _ _ _ _ _ _ => trivial).of_ok hok
  exact ⟨hcalm, hfollows.errors⟩

mutual

/-- Lowering a statement goes along with its types. -/
theorem statement_judged {st st' : State} {env : Environment ValueType} (hdistinct : (outputs.map (·.name)).Nodup)
    (h : st.Typed outputs env) (hcalm : st.Calm outputs) (around : Params) :
    (s : Statement) → statement r outputs around s st = .ok st' → st'.Judged outputs (s.types? r outputs env)
  | .assignment target c span, hok => by
    unfold statement at hok
    exact judged_assignment h hcalm.toFine hdistinct hok
  | .call c, hok => by
    unfold statement at hok
    exact judged_bareCall h hcalm.toFine hdistinct hok
  | .block label parameters body span, hok => by
    unfold statement at hok
    unfold Statement.types?
    exact statements_judged hdistinct h hcalm _ body hok

/-- **Lowering goes along with the types**, statement by statement. -/
theorem statements_judged {st st' : State} {env : Environment ValueType} (hdistinct : (outputs.map (·.name)).Nodup)
    (h : st.Typed outputs env) (hcalm : st.Calm outputs) (around : Params) :
    (body : List Statement) → statements r outputs around body st = .ok st' →
      st'.Judged outputs (Statement.typesAll? r outputs body env)
  | [], hok => by
    unfold statements at hok
    unfold Statement.typesAll?
    cases hok
    exact h
  | s :: rest, hok => by
    unfold statements at hok
    unfold Statement.typesAll?
    obtain ⟨st₁, hfirst, hok⟩ := Checked.bind_eq_ok.1 hok
    obtain ⟨hcalm₁, -⟩ := calm_statement hcalm hfirst
    have hjudged := statement_judged hdistinct h hcalm around s hfirst
    cases htypes : s.types? r outputs env with
    | none =>
      rw [htypes] at hjudged
      exact fun hnil => hjudged ((calm_statements hcalm₁ hok).2 hnil)
    | some env₁ =>
      rw [htypes] at hjudged
      exact statements_judged hdistinct hjudged hcalm₁ around rest hok

end

/-! ### Programs -/

/-- A further input has its declared type. -/
lemma typed_withInput (h : st.Typed outputs env) (hcalm : st.Calm outputs) {d : Declaration}
    (hcalm' : (st.withInput d).Calm outputs) (hapart : ∀ o ∈ outputs, o.name ≠ d.name) :
    (st.withInput d).Typed outputs (env.bind d.name d.ty) := by
  have hordered := hcalm.graph.wellFormed.ordered
  have hordered' := hcalm'.graph.wellFormed.ordered
  have hkeeps : ∀ i ∈ st.graph.ids, (st.withInput d).graph.type? i = st.graph.type? i :=
    fun i hi => Graph.type?_eq_of_subset hordered hordered' (fun m hm => List.mem_append_left _ hm) hi
  have hnew : (st.withInput d).graph.type? st.graph.nextId = some d.ty :=
    Graph.type?_of_mem hordered' (List.mem_append_right _ (List.mem_singleton.2 rfl))
  refine ⟨h.clean, fun name => ?_, fun bits i hi => ?_, fun o ho hbound => ?_⟩
  · have hlookup : (st.withInput d).bindings.lookup name =
        if name = d.name then some st.graph.nextId else st.bindings.lookup name := lookup_bind st d.name _ name
    rw [hlookup]
    unfold Environment.bind
    by_cases hname : name = d.name
    · rw [if_pos hname, hname, Function.update_self]
      exact hnew.symm
    · rw [if_neg hname, Function.update_of_ne hname, h.bound]
      cases hid : st.bindings.lookup name with
      | none => rfl
      | some i => exact (hkeeps i (hcalm.bound name i hid)).symm
  · have hty := h.constants bits i hi
    exact (hkeeps i (Graph.mem_ids_of_type? hordered hty)).trans hty
  · rcases Environment.isSome_bind.1 hbound with hname | hbound
    · exact absurd hname (hapart o ho)
    · exact h.designated o ho hbound

/-- The inputs have their declared types. -/
lemma inputs_typed {ds : List Declaration} (h : st.Typed outputs env) (hcalm : st.Calm outputs)
    (hnone : st.graph.outputs = []) (hapart : ∀ o ∈ outputs, ∀ d ∈ ds, o.name ≠ d.name)
    (hok : inputs ds st = .ok st') :
    st'.Calm outputs ∧ st'.Typed outputs (ds.foldl (fun env d => env.bind d.name d.ty) env) := by
  induction ds generalizing st env with
  | nil =>
    unfold inputs at hok
    cases hok
    exact ⟨hcalm, h⟩
  | cons d rest ih =>
    unfold inputs at hok
    obtain ⟨⟨id, g⟩, hadd, hok⟩ := Checked.bind_eq_ok.1 hok
    cases Graph.addInput_ok hadd
    obtain ⟨hcalm', -⟩ := settled_withInput (I := silent) (ρ := fun _ => ()) hcalm hnone d
    have htyped := typed_withInput h hcalm hcalm' fun o ho => hapart o ho d (List.mem_cons_self ..)
    exact ih htyped hcalm' hnone (fun o ho e he => hapart o ho e (List.mem_cons_of_mem _ he)) hok

lemma typed_start (outputs : List Declaration) (name : String) : (State.start name).Typed outputs fun _ => none where
  clean := rfl
  bound := fun _ => rfl
  constants := fun _ _ h => by cases h
  designated := fun _ _ h => by cases h

/-- In a typed state an output dangles exactly if it has no type. -/
lemma danglingOutputs_eq_nil_iff (h : st.Typed outputs env) (hcalm : st.Calm outputs) :
    danglingOutputs outputs st = [] ↔ ∀ d ∈ outputs, (env d.name).isSome := by
  have hpoisoned := hcalm.clean h.clean
  constructor
  · intro hnil d hd
    obtain ⟨id, hid⟩ := exists_output hnil hpoisoned hd
    have hbound := hcalm.designated h.clean d.name id hid
    obtain ⟨n, hn, hnid⟩ := Graph.mem_ids.1 (hcalm.bound d.name id hbound)
    have hty := Graph.type?_of_mem hcalm.graph.wellFormed.ordered hn
    rw [h.bound, hbound, Option.bind_some, ← hnid, hty]
    rfl
  · intro hall
    unfold danglingOutputs
    rw [List.map_eq_nil_iff, List.filter_eq_nil_iff]
    intro d hd
    obtain ⟨id, hid⟩ := Option.isSome_iff_exists.1 (h.designated d hd (hall d hd))
    simp [hid]

/-- An output is not declared as an input too. -/
lemma outputs_apart {p : Program} (hdistinct : (p.declarations.map (·.name)).Nodup) :
    ∀ o ∈ p.outputs, ∀ d ∈ p.inputs, o.name ≠ d.name := by
  intro o ho d hd hname
  obtain ⟨ho, hout⟩ := List.mem_filter.1 ho
  obtain ⟨hd, hin⟩ := List.mem_filter.1 hd
  obtain rfl := List.inj_on_of_nodup_map hdistinct ho hd hname
  rw [beq_iff_eq] at hout hin
  cases hout.symm.trans hin

/-- **A program is lowered without an error exactly if it is well typed.** -/
theorem lower_clean_iff {p : Program} {name : String} (hdistinct : (p.declarations.map (·.name)).Nodup)
    (hok : lower r name p = .ok st) : st.errors = [] ↔ p.WellTyped r := by
  have houtputs : (p.outputs.map (·.name)).Nodup := hdistinct.sublist (List.filter_sublist.map _)
  have hapart := outputs_apart hdistinct
  unfold lower at hok
  obtain ⟨st₁, hinputs, hok⟩ := Checked.bind_eq_ok.1 hok
  obtain ⟨st₂, hstatements, hok⟩ := Checked.bind_eq_ok.1 hok
  obtain rfl := Except.ok.inj hok
  obtain ⟨hcalm₁, htyped₁⟩ := inputs_typed (typed_start p.outputs name) (settled_start _ _ _) rfl hapart hinputs
  obtain ⟨hcalm₂, -⟩ := calm_statements hcalm₁ hstatements
  have hjudged : st₂.Judged p.outputs (p.types? r) :=
    statements_judged houtputs htyped₁ hcalm₁ Dict.empty p.statements hstatements
  rw [List.append_eq_nil_iff]
  cases htypes : p.types? r with
  | none =>
    rw [htypes] at hjudged
    refine ⟨fun h => absurd h.1 hjudged, fun h => ?_⟩
    have htyped := h.typed
    rw [htypes] at htyped
    cases htyped
  | some env =>
    rw [htypes] at hjudged
    have hassigned : (∀ d ∈ p.outputs, (env d.name).isSome) ↔
        ∀ d ∈ p.outputs, d.name ∈ (Statement.assignmentsAll p.statements).map (·.1) := by
      refine forall₂_congr fun d hd => ?_
      rw [Statement.isSome_typesAll? d.name p.statements htypes, Program.inputTypes_eq_none (hapart d hd)]
      simp
    rw [danglingOutputs_eq_nil_iff hjudged hcalm₂, hassigned]
    refine ⟨fun h => ⟨?_, h.2⟩, fun h => ⟨hjudged.clean, h.assigned⟩⟩
    rw [htypes]
    rfl

end Lowering

end Waveflow
