import Waveflow.Graph.Node
import Waveflow.Proofs.Dict
import Waveflow.Proofs.Json.Text

/-!
# Stored values are decoded

A value is `Stored` if its JSON has a text that can be read and is decoded as the value.  This passes from items to
arrays and dictionaries and from fields to records, where a field that is left out is decoded as what it was left
out for.
-/

namespace Waveflow.Json

variable {α β : Type} {write : α → Json} {read : Json → Option α} {a : α} {n : Nat} {j : Json}

/-- What is written for the value can be read from its text, and is decoded as the value. -/
structure Stored (write : α → Json) (read : Json → Option α) (a : α) : Prop where
  legible : Legible (write a)
  decoded : read (write a) = some a

/-- What is stored is decoded from its text. -/
lemma Stored.parse (h : Stored write read a) (pretty : Bool) :
    (parse? (render pretty (write a))).bind read = some a := by
  rw [parse?_render h.legible]
  exact h.decoded

/-! ### Single values -/

lemma stored_below {limit : Nat} (hlimit : limit ≤ longLimit) (h : n < limit) : Stored nat (below? limit) n where
  legible := .nat (Nat.lt_of_lt_of_le h hlimit)
  decoded := by simp [below?, nat, h]

lemma stored_word (h : n < wordLimit) : Stored nat word? n := stored_below (by decide) h

lemma stored_long (h : n < longLimit) : Stored nat long? n := stored_below (Nat.le_refl _) h

lemma stored_str (s : String) : Stored str str? s := ⟨.str s, rfl⟩

lemma stored_bool (b : Bool) : Stored bool bool? b := ⟨.bool b, rfl⟩

/-! ### Arrays and dictionaries -/

lemma stored_list {as : List α} (h : ∀ a ∈ as, Stored write read a) : Stored (list write) (list? read) as where
  legible := .arr fun j hj => by
    obtain ⟨a, ha, rfl⟩ := List.mem_map.1 hj
    exact (h a ha).legible
  decoded := mapM_map_eq_some fun a ha => (h a ha).decoded

lemma stored_dict {d : Dict α} (h : ∀ e ∈ d.entries, Stored write read e.2) :
    Stored (Attributes.dictToJson write) (Attributes.dictOfJson? read) d where
  legible := .obj fun f hf => by
    obtain ⟨e, he, rfl⟩ := List.mem_map.1 hf
    exact (h e he).legible
  decoded := by
    have hentries : (d.entries.map fun e => (e.1, write e.2)).mapM (fun e => (read e.2).map fun a => (e.1, a)) =
        some d.entries := mapM_map_eq_some fun e he => by rw [(h e he).decoded]; rfl
    rw [Attributes.dictToJson, Attributes.dictOfJson?, hentries, Option.map_some, Dict.ofList_entries]

/-! ### Fields -/

/-- The field, if it is given, can be read from its text, and it is decoded as the value. -/
structure Given (read : Option Json → Option α) (field : Option Json) (a : α) : Prop where
  legible : ∀ j ∈ field, Legible j
  decoded : read field = some a

lemma Stored.need (h : Stored write read a) : Given (need read) (some (write a)) a where
  legible := by rintro _ ⟨⟩; exact h.legible
  decoded := h.decoded

lemma Stored.orElse (h : Stored write read a) (default : α) : Given (orElse default read) (some (write a)) a where
  legible := by rintro _ ⟨⟩; exact h.legible
  decoded := h.decoded

lemma opt?_of_ne {j : Json} (h : j ≠ null) : opt? read j = (read j).map some := by
  cases j with
  | null => exact absurd rfl h
  | _ => rfl

/-- A field that is left out for none. -/
lemma given_opt {o : Option α} (h : ∀ a ∈ o, Stored write read a) (hne : ∀ a, write a ≠ null) :
    Given (Json.orElse none (opt? read)) (o.map write) o := by
  cases o with
  | none => exact ⟨nofun, rfl⟩
  | some a =>
    have ha := h a rfl
    refine ⟨by rintro _ ⟨⟩; exact ha.legible, ?_⟩
    show opt? read (write a) = _
    rw [opt?_of_ne (hne a), ha.decoded]
    rfl

/-- A field that is left out for an empty dictionary. -/
lemma given_dict {d : Dict α} (h : ∀ e ∈ d.entries, Stored write read e.2) :
    Given (Json.orElse Dict.empty (Attributes.dictOfJson? read))
      (if d.isEmpty then none else some (Attributes.dictToJson write d)) d := by
  split
  · next hempty => exact ⟨nofun, congrArg some (Dict.eq_of_entries (List.isEmpty_iff.1 hempty).symm)⟩
  · exact (stored_dict h).orElse Dict.empty

/-! ### Records -/

/-- The fields of a record, without those that are not given. -/
def written (names : List String) (fields : List (Option Json)) : List (String × Json) :=
  (names.zip fields).filterMap fun p => p.2.map fun j => (p.1, j)

variable {names : List String} {fields : List (Option Json)}

lemma written_cons (name : String) (field : Option Json) : written (name :: names) (field :: fields) =
    (field.map fun j => (name, j)).toList ++ written names fields := by
  cases field <;> rfl

lemma mem_written {f : String × Json} (h : f ∈ written names fields) : f.1 ∈ names ∧ some f.2 ∈ fields := by
  obtain ⟨⟨name, field⟩, hp, hsome⟩ := List.mem_filterMap.1 h
  obtain ⟨j, rfl, rfl⟩ := Option.map_eq_some_iff.1 hsome
  exact List.of_mem_zip hp

lemma legible_written (h : fields.Forall fun field => ∀ j ∈ field, Legible j) :
    Legible (obj (written names fields)) :=
  .obj fun f hf => List.forall_iff_forall_mem.1 h _ (mem_written hf).2 f.2 rfl

/-- Under the name of a field there is that field. -/
lemma filter_written (hnames : names.Nodup) {name : String} {field : Option Json}
    (h : (name, field) ∈ names.zip fields) :
    (written names fields).filter (fun f => f.1 == name) = (field.map fun j => (name, j)).toList := by
  induction names generalizing fields with
  | nil => cases h
  | cons first names ih =>
    cases fields with
    | nil => cases h
    | cons firstField fields =>
      obtain ⟨hfirst, hnames⟩ := List.nodup_cons.1 hnames
      rw [written_cons, List.filter_append]
      rcases List.mem_cons.1 h with heq | h
      · obtain ⟨rfl, rfl⟩ := Prod.mk.inj heq
        have hnone : (written names fields).filter (fun f => f.1 == name) = [] := by
          rw [List.filter_eq_nil_iff]
          intro f hf hname
          exact hfirst (beq_iff_eq.1 hname ▸ (mem_written hf).1)
        rw [hnone, List.append_nil]
        cases field <;> simp
      · have hne : first ≠ name := by
          rintro rfl
          exact hfirst (List.of_mem_zip h).1
        rw [ih hnames h]
        cases firstField <;> simp [hne]

/-- The fields of a record are found under their names. -/
lemma record?_written (hnames : names.Nodup) (hlen : names.length = fields.length) :
    record? names (obj (written names fields)) = some fields := by
  have hfst : (names.zip fields).map (·.1) = names := List.map_fst_zip hlen.le
  have honce : ∀ name ∈ names, ((written names fields).filter (fun f => f.1 == name)).length ≤ 1 := by
    intro name hname
    obtain ⟨⟨_, field⟩, hp, rfl⟩ := List.mem_map.1 (hfst ▸ hname)
    rw [filter_written hnames hp]
    cases field <;> simp
  have hfound : ∀ p ∈ names.zip fields, (obj (written names fields)).get? p.1 = p.2 := by
    rintro ⟨name, field⟩ hp
    rw [get?, ← List.head?_filter, filter_written hnames hp]
    cases field <;> rfl
  have hmap : ∀ find : String → Option Json, (∀ p ∈ names.zip fields, find p.1 = p.2) →
      names.map find = fields := by
    intro find hfind
    calc names.map find = ((names.zip fields).map (·.1)).map find := by rw [hfst]
      _ = (names.zip fields).map (·.2) := by
        rw [List.map_map]
        exact List.map_congr_left hfind
      _ = fields := List.map_snd_zip hlen.ge
  rw [record?, if_pos (by simpa using honce)]
  exact congrArg some (hmap _ hfound)

/-- A record is stored if its fields are. -/
lemma stored_record (names : List String) (fields : List (Option Json)) (hwrite : write a = obj (written names fields))
    (hnames : names.Nodup) (hlen : names.length = fields.length)
    (hlegible : fields.Forall fun field => ∀ j ∈ field, Legible j)
    (hread : record? names (write a) = some fields → read (write a) = some a) : Stored write read a where
  legible := hwrite ▸ legible_written hlegible
  decoded := hread (hwrite ▸ record?_written hnames hlen)

end Waveflow.Json
