/-!
# Search in ascending lists

Lists whose keys ascend are searched by halving.  `position_eq_some_iff` says that on such a list the
search finds exactly the position where the key stands.
-/

namespace Waveflow.Search

variable {α : Type}

/-- Position of the key `k`, found by halving the list at most `fuel` times. -/
def seek (key : α → Nat) (k : Nat) : Nat → List α → Option Nat
  | 0, _ => none
  | _ + 1, [] => none
  | _ + 1, [x] => if key x = k then some 0 else none
  | fuel + 1, x :: y :: rest =>
    let xs := x :: y :: rest
    let half := xs.length / 2
    match xs[half]? with
    | none => none
    | some middle =>
      if k < key middle then seek key k fuel (xs.take (xs.length - half))
      else (seek key k fuel (xs.drop half)).map (half + ·)

/-- Position of the key `k` in a list whose keys ascend. -/
def position (key : α → Nat) (k : Nat) (xs : List α) : Option Nat :=
  seek key k xs.length xs

/-- The keys of the list ascend strictly. -/
def Ascending (key : α → Nat) (xs : List α) : Prop :=
  xs.Pairwise (fun a b => key a < key b)

/-- Where the search ends, the key stands, whatever the list. -/
theorem key_of_seek {key : α → Nat} {k : Nat} {fuel : Nat} {xs : List α} {i : Nat}
    (h : seek key k fuel xs = some i) : ∃ x, xs[i]? = some x ∧ key x = k := by
  induction fuel generalizing xs i with
  | zero => simp [seek] at h
  | succ fuel ih =>
    match xs, h with
    | [], h => simp [seek] at h
    | [x], h =>
      by_cases hx : key x = k
      · simp [seek, hx] at h
        exact ⟨x, by simp [← h], hx⟩
      · simp [seek, hx] at h
    | x :: y :: rest, h =>
      rw [seek] at h
      split at h
      · simp at h
      · split at h
        · obtain ⟨z, hz, hk⟩ := ih h
          rw [List.getElem?_take] at hz
          split at hz
          · exact ⟨z, hz, hk⟩
          · simp at hz
        · obtain ⟨j, hj, rfl⟩ := Option.map_eq_some_iff.1 h
          obtain ⟨z, hz, hk⟩ := ih hj
          rw [List.getElem?_drop] at hz
          exact ⟨z, hz, hk⟩

/-- Where the search ends, the key stands, whatever the list. -/
theorem key_of_position {key : α → Nat} {k : Nat} {xs : List α} {i : Nat}
    (h : position key k xs = some i) : ∃ x, xs[i]? = some x ∧ key x = k :=
  key_of_seek h

theorem seek_complete {key : α → Nat} {fuel : Nat} {xs : List α} {i : Nat} {x : α}
    (sorted : Ascending key xs) (enough : xs.length ≤ fuel) (h : xs[i]? = some x) :
    seek key (key x) fuel xs = some i := by
  induction fuel generalizing xs i with
  | zero =>
    have : xs = [] := List.length_eq_zero_iff.1 (by omega)
    simp [this] at h
  | succ fuel ih =>
    match xs, sorted, enough, h with
    | [], _, _, h => simp at h
    | [y], _, _, h =>
      match i, h with
      | 0, h =>
        simp at h
        simp [seek, h]
      | i + 1, h => simp at h
    | y :: z :: rest, sorted, enough, h =>
      let ys := y :: z :: rest
      have hlen : ys.length = rest.length + 2 := rfl
      have hi : i < ys.length := (List.getElem?_eq_some_iff.1 h).1
      have hmid : ys.length / 2 < ys.length := by omega
      have hget : ys[ys.length / 2]? = some ys[ys.length / 2] := List.getElem?_eq_getElem hmid
      have hx : ys[i] = x := (List.getElem?_eq_some_iff.1 h).2
      have horder : ∀ (a b : Nat) (ha : a < ys.length) (hb : b < ys.length), a < b → key ys[a] < key ys[b] :=
        List.pairwise_iff_getElem.1 sorted
      have enough' : ys.length ≤ fuel + 1 := enough
      rw [seek]
      simp only [show (y :: z :: rest) = ys from rfl, hget]
      split
      · next hlt =>
        have hbelow : i < ys.length / 2 := by
          rcases Nat.lt_trichotomy i (ys.length / 2) with hlt' | heq | hgt
          · exact hlt'
          · subst heq
            rw [← hx] at hlt
            exact absurd hlt (Nat.lt_irrefl _)
          · have := horder _ _ hmid hi hgt
            rw [hx] at this
            exact absurd this (Nat.lt_asymm hlt)
        refine ih (List.Pairwise.sublist (List.take_sublist _ _) sorted) ?_ ?_
        · rw [List.length_take]; omega
        · rw [List.getElem?_take, if_pos (by omega)]; exact h
      · next hge =>
        have habove : ys.length / 2 ≤ i := by
          rcases Nat.lt_or_ge i (ys.length / 2) with hlt | hle
          · have := horder _ _ hi hmid hlt
            rw [hx] at this
            exact absurd this hge
          · exact hle
        have hdrop : (ys.drop (ys.length / 2))[i - ys.length / 2]? = some x := by
          rw [List.getElem?_drop, Nat.add_sub_cancel' habove]; exact h
        rw [ih (List.Pairwise.sublist (List.drop_sublist _ _) sorted) (by rw [List.length_drop]; omega) hdrop]
        simp only [Option.map_some, Option.some.injEq]
        omega

/-- On an ascending list the search finds exactly the position of the key. -/
theorem position_eq_some_iff {key : α → Nat} {k : Nat} {xs : List α} {i : Nat}
    (sorted : Ascending key xs) :
    position key k xs = some i ↔ ∃ x, xs[i]? = some x ∧ key x = k :=
  ⟨key_of_position, fun ⟨_, hx, hk⟩ => hk ▸ seek_complete sorted (Nat.le_refl _) hx⟩

end Waveflow.Search
