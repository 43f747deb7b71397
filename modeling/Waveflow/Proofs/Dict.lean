import Waveflow.Dict
import Mathlib.Data.List.Nodup

/-!
# Entries of dictionaries

What is found under a key after an entry has been set, or after a list of entries has been set in order.
A dictionary is determined by what is found in it (`ext_get?`).
-/

namespace Waveflow.Dict

variable {α : Type} {d : Dict α} {key k : String} {value : α} {entries : List (String × α)}

lemma find?_insertEntry : ((insertEntry key value entries).find? (fun e => e.1 == k)).map (·.2) =
    if k = key then some value else (entries.find? (fun e => e.1 == k)).map (·.2) := by
  induction entries with
  | nil =>
    rw [insertEntry]
    by_cases hk : k = key
    · simp [hk]
    · simp [hk, Ne.symm hk]
  | cons entry rest ih =>
    rw [insertEntry]
    by_cases hk : k = key
    · subst hk
      rw [if_pos rfl] at ih ⊢
      split
      · simp
      · split
        · simp
        · next hne => simpa [Ne.symm hne] using ih
    · rw [if_neg hk] at ih ⊢
      split
      · simp [Ne.symm hk]
      · split
        · next heq => simp [← heq, Ne.symm hk]
        · by_cases hentry : entry.1 = k
          · simp [hentry]
          · simpa [hentry] using ih

/-- Setting an entry changes what is found under its key, and nothing else. -/
theorem get?_insert (d : Dict α) (key k : String) (value : α) :
    (d.insert key value).get? k = if k = key then some value else d.get? k :=
  find?_insertEntry

/-! ### Lists of entries -/

/-- After a list of entries has been set, the last one under a key is found. -/
theorem get?_foldl : (entries.foldl (fun acc e => acc.insert e.1 e.2) d).get? k =
    ((entries.reverse.find? (fun e => e.1 == k)).map (·.2)).or (d.get? k) := by
  induction entries generalizing d with
  | nil => rfl
  | cons entry rest ih =>
    rw [List.foldl_cons, ih, get?_insert, List.reverse_cons, List.find?_append, Option.map_or, Option.or_assoc]
    congr 1
    by_cases hk : k = entry.1
    · simp [hk]
    · simp [hk, Ne.symm hk]

lemma get?_empty : (empty : Dict α).get? k = none := rfl

/-- An entry whose key is not repeated is found. -/
theorem get?_ofList (hkeys : (entries.map (·.1)).Nodup) (hmem : (key, value) ∈ entries) :
    (ofList entries).get? key = some value := by
  have hsome : (entries.reverse.find? (fun e => e.1 == key)).isSome := by
    rw [List.find?_isSome]
    exact ⟨_, List.mem_reverse.2 hmem, by simp⟩
  obtain ⟨e, he⟩ := Option.isSome_iff_exists.1 hsome
  have hkey : e.1 = key := by simpa using List.find?_some he
  have heq : e = (key, value) :=
    List.inj_on_of_nodup_map hkeys (List.mem_reverse.1 (List.mem_of_find?_eq_some he)) hmem hkey
  unfold ofList
  rw [get?_foldl, he, heq]
  rfl

/-! ### Equality -/

lemma keys_nodup (d : Dict α) : (d.entries.map (·.1)).Nodup := by
  have hlt : (d.entries.map (·.1)).Pairwise (· < ·) := by
    rw [List.pairwise_map]
    exact d.ascending
  refine hlt.imp fun {a b} hab => ?_
  rintro rfl
  exact String.lt_irrefl _ hab

theorem mem_entries_iff : (key, value) ∈ d.entries ↔ d.get? key = some value := by
  unfold get?
  constructor
  · intro hmem
    have hsome : (d.entries.find? (fun e => e.1 == key)).isSome := by
      rw [List.find?_isSome]
      exact ⟨_, hmem, by simp⟩
    obtain ⟨e, he⟩ := Option.isSome_iff_exists.1 hsome
    have hkey : e.1 = key := by simpa using List.find?_some he
    have heq : e = (key, value) := List.inj_on_of_nodup_map d.keys_nodup (List.mem_of_find?_eq_some he) hmem hkey
    rw [he, heq]
    rfl
  · intro hget
    obtain ⟨e, he, rfl⟩ := Option.map_eq_some_iff.1 hget
    have hkey : e.1 = key := by simpa using List.find?_some he
    exact hkey ▸ List.mem_of_find?_eq_some he

/-- Dictionaries are equal if the same is found in them under every key. -/
theorem ext_get? {a b : Dict α} (h : ∀ k, a.get? k = b.get? k) : a = b := by
  have hperm : a.entries.Perm b.entries := by
    refine (List.perm_ext_iff_of_nodup a.keys_nodup.of_map b.keys_nodup.of_map).2 fun e => ?_
    rw [show e = (e.1, e.2) from rfl, mem_entries_iff, mem_entries_iff, h]
  refine eq_of_entries (hperm.eq_of_pairwise ?_ a.ascending b.ascending)
  intro x y _ _ hxy hyx
  exact absurd (String.lt_trans hxy hyx) (String.lt_irrefl _)

lemma get?_merge (d later : Dict α) (k : String) : (d.merge later).get? k = (later.get? k).or (d.get? k) := by
  have hlast : (later.entries.reverse.find? (fun e => e.1 == k)).map (·.2) = later.get? k := by
    have hofList : (ofList later.entries).get? k = later.get? k := by
      cases hget : later.get? k with
      | some v => exact get?_ofList later.keys_nodup (mem_entries_iff.2 hget)
      | none =>
        unfold ofList
        rw [get?_foldl, get?_empty, Option.or_none, Option.map_eq_none_iff, List.find?_eq_none]
        intro e he hkey
        have hsome := mem_entries_iff.1 (List.mem_reverse.1 he)
        rw [beq_iff_eq.1 hkey, hget] at hsome
        cases hsome
    unfold ofList at hofList
    rwa [get?_foldl, get?_empty, Option.or_none] at hofList
  unfold merge
  rw [get?_foldl, hlast]

/-- A dictionary is that of its own entries. -/
theorem ofList_entries (d : Dict α) : ofList d.entries = d := by
  refine ext_get? fun k => ?_
  rw [show ofList d.entries = empty.merge d from rfl, get?_merge, get?_empty, Option.or_none]

/-- Setting entries one after the other is merging with the dictionary of the entries. -/
theorem foldl_insert_eq_merge (d : Dict α) (entries : List (String × α)) :
    entries.foldl (fun acc e => acc.insert e.1 e.2) d = d.merge (ofList entries) := by
  refine ext_get? fun k => ?_
  unfold ofList
  rw [get?_merge, get?_foldl, get?_foldl, get?_empty, Option.or_none]

lemma contains_eq_isSome (d : Dict α) (key : String) : d.contains key = (d.get? key).isSome := by
  unfold contains get?
  rw [Option.isSome_map, List.isSome_find?]

/-! ### Comparison -/

lemma insertEntry_cons {x : String × α} (hne : x.1 ≠ key) : insertEntry key value (x :: entries) =
    if key < x.1 then (key, value) :: x :: entries else x :: insertEntry key value entries := by
  rw [insertEntry, if_neg hne.symm]

/-- Lists in which a key is missing compare equal if they do so once an entry has been set under it. -/
lemma beq_of_insertEntry [BEq α] {others : List (String × α)} {value' : α} (hnone : ∀ e ∈ entries, e.1 ≠ key)
    (hnone' : ∀ e ∈ others, e.1 ≠ key)
    (h : (insertEntry key value entries == insertEntry key value' others) = true) : (entries == others) = true := by
  -- an entry under the key is not equal to an entry under another one
  have hapart : ∀ {x y : String × α}, x.1 ≠ y.1 → (x == y) = false := by
    intro x y hne
    show (x.1 == y.1 && x.2 == y.2) = false
    rw [beq_false_of_ne hne, Bool.false_and]
  induction entries generalizing others with
  | nil =>
    cases others with
    | nil => rfl
    | cons y ys =>
      have hy := hnone' y (List.mem_cons_self ..)
      rw [insertEntry_cons hy, insertEntry] at h
      split at h
      · simp at h
      · rw [List.cons_beq_cons, hapart hy.symm, Bool.false_and] at h
        cases h
  | cons x xs ih =>
    have hx := hnone x (List.mem_cons_self ..)
    have hxs : ∀ e ∈ xs, e.1 ≠ key := fun e he => hnone e (List.mem_cons_of_mem _ he)
    rw [insertEntry_cons hx] at h
    cases others with
    | nil =>
      rw [insertEntry] at h
      split at h
      · simp at h
      · rw [List.cons_beq_cons, hapart hx, Bool.false_and] at h
        cases h
    | cons y ys =>
      have hy := hnone' y (List.mem_cons_self ..)
      have hys : ∀ e ∈ ys, e.1 ≠ key := fun e he => hnone' e (List.mem_cons_of_mem _ he)
      rw [insertEntry_cons hy] at h
      split at h <;> split at h <;> rw [List.cons_beq_cons, Bool.and_eq_true] at h
      · exact h.2
      · rw [hapart hy.symm] at h
        cases h.1
      · rw [hapart hx] at h
        cases h.1
      · rw [List.cons_beq_cons, Bool.and_eq_true]
        exact ⟨h.1, ih hxs hys h.2⟩

/-- Dictionaries that compare equal after an entry has been set under a key that was in neither. -/
theorem beq_of_insert [BEq α] {d' : Dict α} {value' : α} (hnone : d.get? key = none) (hnone' : d'.get? key = none)
    (h : (d.insert key value == d'.insert key value') = true) : (d == d') = true := by
  have hmissing : ∀ {c : Dict α}, c.get? key = none → ∀ e ∈ c.entries, e.1 ≠ key := by
    rintro c hc ⟨k, v⟩ he rfl
    rw [mem_entries_iff.1 he] at hc
    cases hc
  exact beq_of_insertEntry (hmissing hnone) (hmissing hnone') h

end Waveflow.Dict
