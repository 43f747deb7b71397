import Waveflow.Proofs.Meaning.Program

/-!
# Types of programs

A program is typed by a walk in the order of the text, through the blocks in depth, with the types of the names so
far; it starts with the declared inputs.  Every operand needs a type, every call a result type, and a declared output
takes its own type only.

Like the run of a program, its types are defined on the program alone.
-/

namespace Waveflow

variable {r : Registry} {outputs : List Declaration} {env : Environment ValueType} {name : String} {ty : ValueType}

/-! ### Phrases -/

/-- The type of an operand; text has none. -/
def Argument.type? (env : Environment ValueType) (a : Argument) : Option ValueType :=
  match a.value with
  | .identifier name => env name
  | .literal (.number _) => some .scalar
  | .literal (.text _) => none

/-- The type of a call, if its operands have types that the operation accepts. -/
def Call.type? (r : Registry) (env : Environment ValueType) (c : Call) : Option ValueType :=
  (r.callable? c.operation).bind fun spec =>
    ((c.operands spec).mapM (Argument.type? env)).bind fun tys => (spec.resultType tys).toOption

/-- A declared output of the name has the type. -/
def Fits (outputs : List Declaration) (name : String) (ty : ValueType) : Prop :=
    ∀ d ∈ outputs, d.name = name → d.ty = ty

instance : Decidable (Fits outputs name ty) := inferInstanceAs
    (Decidable (∀ d ∈ outputs, d.name = name → d.ty = ty))

/-- Give a name a type that fits. -/
def Environment.bindType? (outputs : List Declaration) (env : Environment ValueType) (name : String) (ty : ValueType) :
    Option (Environment ValueType) :=
  if Fits outputs name ty then some (env.bind name ty) else none

/-! ### Statements and programs -/

namespace Statement

mutual

/-- The types of names after a statement. -/
def types? (r : Registry) (outputs : List Declaration) :
    Statement → Environment ValueType → Option (Environment ValueType)
  | .assignment target c _, env => (c.type? r env).bind (env.bindType? outputs target)
  | .call c, env => (c.type? r env).bind fun ty => match c.target? with
    | some name => env.bindType? outputs name ty
    | none => some env
  | .block _ _ body _, env => typesAll? r outputs body env

/-- The types of names after several statements. -/
def typesAll? (r : Registry) (outputs : List Declaration) :
    List Statement → Environment ValueType → Option (Environment ValueType)
  | [], env => some env
  | s :: rest, env => (types? r outputs s env).bind (typesAll? r outputs rest)

end

end Statement

namespace Program

/-- The types of the declared inputs. -/
def inputTypes (p : Program) : Environment ValueType :=
  p.inputs.foldl (fun env d => env.bind d.name d.ty) fun _ => none

/-- The types of names after a program. -/
def types? (r : Registry) (p : Program) : Option (Environment ValueType) :=
  Statement.typesAll? r p.outputs p.statements p.inputTypes

/-- Every statement has types, and every declared output is assigned. -/
structure WellTyped (r : Registry) (p : Program) : Prop where
  typed : (p.types? r).isSome
  assigned : ∀ d ∈ p.outputs, d.name ∈ (Statement.assignmentsAll p.statements).map (·.1)

end Program

/-! ### Names with a type -/

namespace Environment

lemma isSome_bind {other : String} : (env.bind name ty other).isSome ↔ other = name ∨ (env other).isSome := by
  unfold Environment.bind
  by_cases h : other = name
  · rw [h, Function.update_self]
    simp
  · rw [Function.update_of_ne h]
    simp [h]

/-- A name that gets a type gets it by an assignment. -/
lemma isSome_of_bindType? {env' : Environment ValueType} (h : env.bindType? outputs name ty = some env')
    (other : String) :
    (env' other).isSome ↔ (env other).isSome ∨ other = name := by
  unfold Environment.bindType? at h
  split at h
  · obtain rfl := Option.some.inj h
    rw [isSome_bind, or_comm]
  · cases h

end Environment

/-- A bare call takes over a name that has a type. -/
lemma Call.isSome_of_target? {c : Call} (hty : c.type? r env = some ty) (hname : c.target? = some name) :
    (env name).isSome := by
  unfold Call.type? at hty
  unfold Call.target? at hname
  obtain ⟨spec, -, hty⟩ := Option.bind_eq_some_iff.1 hty
  obtain ⟨tys, htys, -⟩ := Option.bind_eq_some_iff.1 hty
  unfold Call.operands at htys
  cases hpositional : c.positional with
  | nil =>
    rw [hpositional] at hname
    cases hname
  | cons a rest =>
    rw [hpositional] at hname htys
    have hvalue : a.identifier? = some name := hname
    rw [List.cons_append, List.mapM_cons] at htys
    obtain ⟨first, hfirst, -⟩ := Option.bind_eq_some_iff.1 htys
    unfold Argument.identifier? at hvalue
    unfold Argument.type? at hfirst
    cases ha : a.value with
    | literal l =>
      rw [ha] at hvalue
      cases hvalue
    | identifier other =>
      rw [ha] at hvalue hfirst
      cases hvalue
      exact Option.isSome_of_eq_some hfirst

namespace Statement

open Environment

mutual

/-- The names with a type after a statement: those before it, and those that it assigns. -/
theorem isSome_types? {env env' : Environment ValueType} (other : String) :
    (s : Statement) → s.types? r outputs env = some env' →
      ((env' other).isSome ↔ (env other).isSome ∨ other ∈ s.assignments.map (·.1))
  | .assignment target c span, h => by
    unfold types? at h
    unfold assignments
    obtain ⟨ty, -, h⟩ := Option.bind_eq_some_iff.1 h
    rw [isSome_of_bindType? h, List.map_singleton, List.mem_singleton]
  | .call c, h => by
    unfold types? at h
    unfold assignments
    obtain ⟨ty, hty, h⟩ := Option.bind_eq_some_iff.1 h
    rw [List.map_nil]
    cases hname : c.target? with
    | none =>
      rw [hname] at h
      obtain rfl := Option.some.inj h
      simp
    | some name =>
      -- the name has a type already
      rw [hname] at h
      have hbound := Call.isSome_of_target? hty hname
      rw [isSome_of_bindType? h]
      constructor
      · rintro (hother | rfl)
        · exact .inl hother
        · exact .inl hbound
      · rintro (hother | hmem)
        · exact .inl hother
        · exact absurd hmem List.not_mem_nil
  | .block label parameters body span, h => by
    unfold types? at h
    unfold assignments
    exact isSome_typesAll? other body h

/-- The names with a type after several statements. -/
theorem isSome_typesAll? {env env' : Environment ValueType} (other : String) :
    (body : List Statement) → typesAll? r outputs body env = some env' →
      ((env' other).isSome ↔ (env other).isSome ∨ other ∈ (assignmentsAll body).map (·.1))
  | [], h => by
    unfold typesAll? at h
    unfold assignmentsAll
    obtain rfl := Option.some.inj h
    simp
  | s :: rest, h => by
    unfold typesAll? at h
    unfold assignmentsAll
    obtain ⟨env₁, hfirst, hrest⟩ := Option.bind_eq_some_iff.1 h
    rw [isSome_typesAll? other rest hrest, isSome_types? other s hfirst, List.map_append, List.mem_append, or_assoc]

end

end Statement

/-- An output that is not declared as an input too has no type in the beginning. -/
lemma Program.inputTypes_eq_none {p : Program} {d : Declaration} (h : ∀ i ∈ p.inputs, d.name ≠ i.name) :
    p.inputTypes d.name = none := by
  unfold Program.inputTypes
  have hfold : ∀ (ds : List Declaration) (env : Environment ValueType), (∀ i ∈ ds, d.name ≠ i.name) →
      ds.foldl (fun env d => env.bind d.name d.ty) env d.name = env d.name := by
    intro ds
    induction ds with
    | nil => exact fun _ _ => rfl
    | cons i rest ih =>
      intro env hne
      rw [List.foldl_cons, ih _ fun j hj => hne j (List.mem_cons_of_mem _ hj)]
      exact Function.update_of_ne (hne i (List.mem_cons_self ..)) _ _
  exact hfold p.inputs _ h

end Waveflow
