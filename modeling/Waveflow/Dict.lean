/-!
# Dictionaries with text keys

A `Dict` holds its entries in ascending order of their keys, which is the order in which they are
written out.  The order is part of the type, so two dictionaries with the same entries are equal.
-/

namespace Waveflow

/-- Entries under distinct keys, in ascending order of the keys. -/
structure Dict (α : Type) where
  entries : List (String × α)
  ascending : entries.Pairwise (fun a b => a.1 < b.1)

namespace Dict

variable {α : Type}

/-- The entries with `key` set to `value`. -/
def insertEntry (key : String) (value : α) : List (String × α) → List (String × α)
  | [] => [(key, value)]
  | entry :: rest =>
    if key < entry.1 then (key, value) :: entry :: rest
    else if key = entry.1 then (key, value) :: rest
    else entry :: insertEntry key value rest

theorem mem_insertEntry {key : String} {value : α} {entries : List (String × α)} {e : String × α}
    (h : e ∈ insertEntry key value entries) : e = (key, value) ∨ e ∈ entries := by
  induction entries with
  | nil => simpa [insertEntry] using h
  | cons entry rest ih =>
    rw [insertEntry] at h
    split at h
    · simpa using h
    · split at h
      · rcases List.mem_cons.1 h with h | h
        · exact .inl h
        · exact .inr (List.mem_cons_of_mem _ h)
      · rcases List.mem_cons.1 h with h | h
        · exact .inr (by simp [h])
        · rcases ih h with h | h
          · exact .inl h
          · exact .inr (List.mem_cons_of_mem _ h)

/-- Of two different keys the one that is not the smaller is the larger. -/
theorem lt_of_not_lt_of_ne {a b : String} (h : ¬ a < b) (hne : a ≠ b) : b < a := by
  rcases String.le_total a b with hab | hba
  · exact absurd (String.le_antisymm hab (Classical.byContradiction fun hba => h (String.not_le.1 hba))) hne
  · exact Classical.byContradiction fun hlt =>
      hne (String.le_antisymm (Classical.byContradiction fun hab => hlt (String.not_le.1 hab)) hba)

theorem insertEntry_ascending {key : String} {value : α} {entries : List (String × α)}
    (h : entries.Pairwise (fun a b => a.1 < b.1)) :
    (insertEntry key value entries).Pairwise (fun a b => a.1 < b.1) := by
  induction entries with
  | nil => simp [insertEntry]
  | cons entry rest ih =>
    have ⟨hhead, htail⟩ := List.pairwise_cons.1 h
    rw [insertEntry]
    split
    · next hlt =>
      refine List.pairwise_cons.2 ⟨?_, h⟩
      intro e he
      rcases List.mem_cons.1 he with rfl | he
      · exact hlt
      · exact String.lt_trans hlt (hhead e he)
    · split
      · next heq =>
        refine List.pairwise_cons.2 ⟨?_, htail⟩
        intro e he
        exact heq ▸ hhead e he
      · next hnlt hne =>
        refine List.pairwise_cons.2 ⟨?_, ih htail⟩
        intro e he
        rcases mem_insertEntry he with rfl | he
        · exact lt_of_not_lt_of_ne hnlt hne
        · exact hhead e he

/-- The dictionary without entries. -/
def empty : Dict α := ⟨[], .nil⟩

instance : Inhabited (Dict α) := ⟨empty⟩

instance [BEq α] : BEq (Dict α) := ⟨fun a b => a.entries == b.entries⟩

/-- Two dictionaries with the same entries are equal. -/
theorem eq_of_entries {a b : Dict α} (h : a.entries = b.entries) : a = b := by
  cases a; cases b; cases h; rfl

/-- Set the entry of a key. -/
def insert (d : Dict α) (key : String) (value : α) : Dict α :=
  ⟨insertEntry key value d.entries, insertEntry_ascending d.ascending⟩

/-- The entry of a key. -/
def get? (d : Dict α) (key : String) : Option α :=
  (d.entries.find? (fun e => e.1 == key)).map (·.2)

/-- The key has an entry. -/
def contains (d : Dict α) (key : String) : Bool :=
  d.entries.any (fun e => e.1 == key)

/-- The keys in ascending order. -/
def keys (d : Dict α) : List String := d.entries.map (·.1)

/-- The number of entries. -/
def size (d : Dict α) : Nat := d.entries.length

/-- There is no entry. -/
def isEmpty (d : Dict α) : Bool := d.entries.isEmpty

/-- All entries of both; where a key has two, that of `later` holds. -/
def merge (d later : Dict α) : Dict α :=
  later.entries.foldl (fun acc e => acc.insert e.1 e.2) d

/-- The dictionary of a list of entries; of two under one key the later holds. -/
def ofList (entries : List (String × α)) : Dict α :=
  entries.foldl (fun acc e => acc.insert e.1 e.2) empty

end Dict

end Waveflow
