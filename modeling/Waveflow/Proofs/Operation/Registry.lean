import Waveflow.Operation.Registry
import Waveflow.Proofs.Checked
import Waveflow.Proofs.Dict

/-!
# Registries that extend the usual one

A registered name keeps its operation whatever is registered after it, so the operations that passes
make are known and internal in every registry that extends the usual one.
-/

namespace Waveflow.Registry

variable {r r' : Registry} {name : String} {spec : OpSpec}

/-- Operations have been added to the usual ones. -/
def Extends (r : Registry) : Prop := ∃ specs, builtin.registerAll specs = .ok r

lemma get?_register {added : OpSpec} (h : r.register added = .ok r') (hget : r.get? name = some spec) :
    r'.get? name = some spec := by
  unfold register at h
  split at h
  · cases h
  · next hnew =>
    obtain rfl := Except.ok.inj h
    unfold get? at hget ⊢
    have hne : name ≠ added.name := by
      rintro rfl
      rw [Dict.contains_eq_isSome, hget] at hnew
      exact hnew rfl
    rw [Dict.get?_insert, if_neg hne, hget]

/-- A registered operation stays. -/
theorem get?_registerAll {specs : List OpSpec} (h : r.registerAll specs = .ok r') (hget : r.get? name = some spec) :
    r'.get? name = some spec := by
  unfold registerAll at h
  induction specs generalizing r with
  | nil =>
    obtain rfl := Except.ok.inj h
    exact hget
  | cons added rest ih =>
    rw [List.foldlM_cons] at h
    obtain ⟨mid, hmid, hrest⟩ := Checked.bind_eq_ok.1 h
    exact ih hrest (get?_register hmid hget)

lemma get?_builtin (h : spec ∈ builtinSpecs) : builtin.get? spec.name = some spec := by
  have hkeys : ((builtinSpecs.map (fun spec => (spec.name, spec))).map (·.1)).Nodup := by
    decide
  exact Dict.get?_ofList hkeys (List.mem_map_of_mem h)

/-- Every operation stands under its own name, as it does when it has been registered. -/
def Keyed (r : Registry) : Prop := ∀ name spec, r.get? name = some spec → spec.name = name

lemma Keyed.registerAll {specs : List OpSpec} (hr : r.Keyed) (h : r.registerAll specs = .ok r') : r'.Keyed := by
  unfold Registry.registerAll at h
  induction specs generalizing r with
  | nil =>
    obtain rfl := Except.ok.inj h
    exact hr
  | cons added rest ih =>
    rw [List.foldlM_cons] at h
    obtain ⟨mid, hmid, hrest⟩ := Checked.bind_eq_ok.1 h
    refine ih (fun name spec hget => ?_) hrest
    unfold register at hmid
    split at hmid
    · cases hmid
    · obtain rfl := Except.ok.inj hmid
      unfold get? at hget
      rw [Dict.get?_insert] at hget
      split at hget
      · next hname =>
        obtain rfl := Option.some.inj hget
        exact hname.symm
      · exact hr name spec hget

lemma keyed_builtin : builtin.Keyed := by
  intro name spec hget
  have hall : ∀ e ∈ builtin.specs.entries, e.2.name = e.1 := by decide +kernel
  exact hall _ (Dict.mem_entries_iff.2 hget)

lemma Extends.keyed (h : r.Extends) : r.Keyed := by
  obtain ⟨specs, hspecs⟩ := h
  exact keyed_builtin.registerAll hspecs

/-- A callable operation is the entry of its kind. -/
lemma Keyed.specOf?_of_callable? (hr : r.Keyed) (h : r.callable? name = some spec) :
    r.specOf? spec.kind = some spec := by
  obtain ⟨hget, -⟩ := Option.filter_eq_some_iff.1 h
  have hname : spec.kind.name = name := hr name spec hget
  unfold specOf?
  rw [hname]
  exact hget

/-- Joins are internal. -/
theorem Extends.specOf?_join (h : r.Extends) : ∃ spec, r.specOf? .join = some spec ∧ spec.internal = true := by
  obtain ⟨specs, hspecs⟩ := h
  have hmem := List.getLast_mem (l := builtinSpecs) (List.cons_ne_nil _ _)
  exact ⟨_, get?_registerAll hspecs (get?_builtin hmem), rfl⟩

end Waveflow.Registry
