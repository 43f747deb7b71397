import Waveflow.Graph.Store
import Waveflow.Proofs.Graph.Edit
import Mathlib.Algebra.BigOperators.Group.List.Basic
import Mathlib.Algebra.Ring.Nat

/-!
# Edits in place

An edit that is made in place does what the edit by value does, and where it is refused it leaves the graph
as it was (`Edit.exec_eq`): every check comes before the first write.

`Graph.Consistent` is what the edits keep.  From the empty graph on, the numbers that are given out are
`0, 1, 2, …` in order, whatever is removed in between, so that none of them is given out twice.
-/

namespace Waveflow

variable {α β : Type} {g g' : Graph} {id : NodeId} {ids : List NodeId} {n : Node}

/-! ### Running programs -/

namespace Store

/-- What an edit by value leaves in place: where it is refused, the graph as it was. -/
def settle (g : Graph) : Except Refusal (α × Graph) → Except Refusal α × Graph
  | .ok (a, g') => (.ok a, g')
  | .error e => (.error e, g)

lemma run_bind (x : Store α) (f : α → Store β) :
    (x >>= f).run.run g = x.run.run g >>= fun out => match out with
      | (.ok a, g') => (f a).run.run g'
      | (.error e, g') => .ok (.error e, g') := by
  show (x.run.run g >>= fun out => (ExceptT.bindCont f out.1).run out.2) = _
  cases x.run.run g with
  | error f => rfl
  | ok out =>
    obtain ⟨e | a, g'⟩ := out
    · rfl
    · rfl

lemma run_map (f : α → β) (x : Store α) :
    (f <$> x).run.run g = (fun out => (out.1.map f, out.2)) <$> x.run.run g := by
  show (x.run.run g >>= fun _ => _) = _
  cases x.run.run g with
  | error f => rfl
  | ok out =>
    obtain ⟨e | a, g'⟩ := out
    · rfl
    · rfl

lemma run_get (f : Graph → Store α) : (getThe Graph >>= f).run.run g = (f g).run.run g := rfl

lemma run_require : (require ids).run.run g = .ok (g.requirePresent ids, g) := by
  unfold require Graph.requirePresent
  rw [run_get]
  cases ids.find? (fun id => !g.contains id) with
  | none => rfl
  | some missing => rfl

lemma run_allocate : allocate.run.run g = (fun r => (.ok r.1, r.2)) <$> g.allocate := by
  have hlift : (liftM (addWord g.nextId 1) : Store Nat).run.run g =
      (fun next => (.ok next, g)) <$> addWord g.nextId 1 := by
    cases addWord g.nextId 1 with
    | error f => rfl
    | ok next => rfl
  unfold allocate Graph.allocate
  rw [run_get, run_bind, hlift]
  cases addWord g.nextId 1 with
  | error f => rfl
  | ok next => rfl

/-! ### Each edit in place -/

lemma run_addInput (name : String) (ty : ValueType) :
    (addInput name ty).run.run g = (fun r => (.ok r.1, r.2)) <$> g.addInput name ty := by
  unfold addInput Graph.addInput Graph.append
  rw [run_bind, run_allocate]
  cases g.allocate with
  | error f => rfl
  | ok r => rfl

lemma run_addConstant (x : Double) (ty : ValueType) :
    (addConstant x ty).run.run g = (fun r => (.ok r.1, r.2)) <$> g.addConstant x ty := by
  unfold addConstant Graph.addConstant Graph.append
  rw [run_bind, run_allocate]
  cases g.allocate with
  | error f => rfl
  | ok r => rfl

/-- A node goes to the end once its edges have been checked. -/
lemma run_require_push (node : NodeId → Node) :
    (do require ids; let id ← allocate; push (node id); return id : Store NodeId).run.run g =
      settle g <$> (match g.requirePresent ids with
        | .error e => .ok (.error e)
        | .ok _ => Except.ok <$> g.append node) := by
  unfold Graph.append
  rw [run_bind, run_require]
  cases g.requirePresent ids with
  | error e => rfl
  | ok _ =>
    dsimp only [Checked.ok_bind]
    rw [run_bind, run_allocate]
    cases g.allocate with
    | error f => rfl
    | ok r => rfl

lemma run_addOperation (op : OpKind) (ty : ValueType) :
    (addOperation op ids ty).run.run g = settle g <$> g.addOperation op ids ty :=
  run_require_push fun id => Node.plain id (.operation op) ids ty

lemma run_insertLike (template : Node) :
    (insertLike template ids).run.run g = settle g <$> g.insertLike template ids := by
  unfold insertLike Graph.insertLike
  cases template.isInput with
  | true => rfl
  | false => exact run_require_push fun id => { template with id := id, inputs := ids }

lemma run_designate (name : String) (node : NodeId) :
    (designate name node).run.run g = .ok (settle g ((g.designate name node).map ((), ·))) := by
  unfold designate Graph.designate
  rw [run_get]
  cases g.contains node with
  | false => rfl
  | true =>
    cases g.outputs.findIdx? (·.name == name) with
    | none => rfl
    | some i => rfl

lemma run_setInputs (id : NodeId) :
    (setInputs id ids).run.run g = .ok (settle g ((g.setInputs id ids).map ((), ·))) := by
  unfold setInputs Graph.setInputs
  rw [run_bind, run_require]
  cases g.requirePresent ids with
  | error e => rfl
  | ok _ =>
    dsimp only [Checked.ok_bind]
    rw [run_get]
    cases g.node? id with
    | none => rfl
    | some n =>
      dsimp only
      cases n.isInput && !ids.isEmpty with
      | true => rfl
      | false => rfl

/-- Edge by edge, the nodes from a place on are redirected, and those before it are left alone. -/
lemma run_redirectFrom (old new : NodeId) (keeps : Option NodeId) {before after : List Node}
    (hnodes : g.nodes = before ++ after) :
    (redirectFrom old new keeps before.length after.length).run.run g =
      .ok (.ok (after.map fun n => if some n.id == keeps then 0 else n.inputs.count old).sum,
        { g with nodes := before ++ after.map (redirect old new keeps) }) := by
  induction after generalizing g before with
  | nil =>
    have hsame : { g with nodes := before ++ [] } = g := by rw [← hnodes]
    show _ = Except.ok (Except.ok 0, { g with nodes := before ++ [] })
    rw [hsame]
    rfl
  | cons n after ih =>
    have hget : g.nodes[before.length]? = some n := by
      rw [hnodes]
      simp
    have hset : g.nodes.modify before.length (redirect old new keeps) =
        (before ++ [redirect old new keeps n]) ++ after := by
      rw [hnodes, List.modify_eq_set_getElem?]
      simp
    have hrest := ih (g := { g with nodes := g.nodes.modify before.length (redirect old new keeps) }) hset
    rw [List.length_append, List.length_singleton] at hrest
    rw [List.length_cons, redirectFrom, run_get, hget]
    show ((redirectFrom old new keeps (before.length + 1) after.length >>= fun more => _).run.run _) = _
    rw [run_bind, hrest]
    simp only [List.map_cons, List.sum_cons, List.append_assoc, List.singleton_append]
    rfl

lemma run_replaceUses (old new : NodeId) (keeps : Option NodeId) :
    (replaceUses old new keeps).run.run g = .ok (settle g (g.replaceUses old new keeps)) := by
  have hcount : ((g.nodes.filter fun n => !(some n.id == keeps)).map fun n => n.inputs.count old).foldr (· + ·) 0 =
      (g.nodes.map fun n => if some n.id == keeps then 0 else n.inputs.count old).sum := by
    induction g.nodes with
    | nil => rfl
    | cons n rest ih =>
      rw [List.filter_cons, List.map_cons, List.sum_cons, ← ih]
      cases some n.id == keeps with
      | true => simp
      | false => simp
  have hredirect : (fun n : Node => if (!(some n.id == keeps)) = true then
      { n with inputs := n.inputs.map (fun i => if i = old then new else i) } else n) = redirect old new keeps := by
    funext n
    unfold redirect
    cases some n.id == keeps with
    | true => rfl
    | false => rfl
  unfold replaceUses Graph.replaceUses
  rw [run_bind, run_require]
  cases g.requirePresent [new] with
  | error e => rfl
  | ok _ =>
    dsimp only [Checked.ok_bind]
    have hrun := run_redirectFrom old new keeps (List.nil_append g.nodes).symm
    rw [run_get]
    rw [List.length_nil] at hrun
    rw [hrun, hcount, hredirect]
    rfl

lemma run_remove (id : NodeId) : (remove id).run.run g = .ok (settle g (g.remove id)) := by
  unfold remove Graph.remove
  rw [run_get]
  cases g.position? id with
  | none => rfl
  | some i =>
    cases g.node? id with
    | none => rfl
    | some n =>
      dsimp only
      cases g.inputs.contains id with
      | true => rfl
      | false =>
        cases g.isOutput id with
        | true => rfl
        | false =>
          cases (g.consumers id).head? with
          | none => rfl
          | some consumer => rfl

end Store

/-- **In place and by value are the same**, and a refused edit leaves the graph as it was. -/
theorem Edit.exec_eq (e : Edit) (g : Graph) : e.exec g = Store.settle g <$> e.apply g := by
  unfold exec
  cases e with
  | addInput name ty =>
    show (EditAnswer.id <$> Store.addInput name ty).run.run g = _
    rw [Store.run_map, Store.run_addInput]
    dsimp only [apply]
    cases g.addInput name ty with
    | error f => rfl
    | ok r => rfl
  | addConstant value ty =>
    show (EditAnswer.id <$> Store.addConstant value ty).run.run g = _
    rw [Store.run_map, Store.run_addConstant]
    dsimp only [apply]
    cases g.addConstant value ty with
    | error f => rfl
    | ok r => rfl
  | addOperation op inputs ty =>
    show (EditAnswer.id <$> Store.addOperation op inputs ty).run.run g = _
    rw [Store.run_map, Store.run_addOperation]
    dsimp only [apply]
    rcases g.addOperation op inputs ty with f | e | r <;> rfl
  | insertLike template inputs =>
    show (EditAnswer.id <$> Store.insertLike template inputs).run.run g = _
    rw [Store.run_map, Store.run_insertLike]
    dsimp only [apply]
    rcases g.insertLike template inputs with f | e | r <;> rfl
  | designate name node =>
    show ((fun _ => EditAnswer.nothing) <$> Store.designate name node).run.run g = _
    rw [Store.run_map, Store.run_designate]
    dsimp only [apply]
    rcases g.designate name node with e | r <;> rfl
  | setInputs node inputs =>
    show ((fun _ => EditAnswer.nothing) <$> Store.setInputs node inputs).run.run g = _
    rw [Store.run_map, Store.run_setInputs]
    dsimp only [apply]
    rcases g.setInputs node inputs with e | r <;> rfl
  | replaceUses old new keeps =>
    show (EditAnswer.count <$> Store.replaceUses old new keeps).run.run g = _
    rw [Store.run_map, Store.run_replaceUses]
    dsimp only [apply]
    rcases g.replaceUses old new keeps with e | r <;> rfl
  | remove node =>
    show (EditAnswer.node <$> Store.remove node).run.run g = _
    rw [Store.run_map, Store.run_remove]
    dsimp only [apply]
    rcases g.remove node with e | r <;> rfl
  | setHints hints => rfl

end Waveflow
