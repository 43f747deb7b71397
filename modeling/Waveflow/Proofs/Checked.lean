import Waveflow.Checked
import Mathlib.Data.List.Forall2
import Mathlib.Tactic.Lemma

/-!
# Going through checked computations

A computation in steps has a value exactly when every step has one (`bind_eq_ok`).  `Yields x P` says that a
computation has a value of which `P` holds, unless a counter overflows on the way; `Yields.bind` goes through
the steps.
-/

namespace Waveflow.Checked

variable {ε α β : Type} {x : Except ε α} {f : α → Except ε β} {g : α → β} {b : β} {e : ε}

@[simp] lemma ok_bind (a : α) : (Except.ok a >>= f) = f a := rfl

@[simp] lemma error_bind : (Except.error e >>= f) = .error e := rfl

@[simp] lemma pure_eq (a : α) : (pure a : Except ε α) = .ok a := rfl

@[simp] lemma map_ok (a : α) : (g <$> (Except.ok a : Except ε α)) = .ok (g a) := rfl

@[simp] lemma map_error : (g <$> (Except.error e : Except ε α)) = .error e := rfl

theorem bind_eq_ok : (x >>= f) = .ok b ↔ ∃ a, x = .ok a ∧ f a = .ok b := by
  cases x with
  | ok a => simp
  | error e => simp

theorem map_eq_ok : (g <$> x) = .ok b ↔ ∃ a, x = .ok a ∧ g a = b := by
  cases x with
  | ok a => simp
  | error e => simp

theorem toOption_eq_some {a : α} : x.toOption = some a ↔ x = .ok a := by
  cases x with
  | ok a => simp [Except.toOption]
  | error e => simp [Except.toOption]

/-- Every step of a list has a value exactly when the list has one. -/
theorem mapM_eq_ok {xs : List α} {ys : List β} : xs.mapM f = .ok ys ↔
    List.Forall₂ (fun x y => f x = .ok y) xs ys := by
  induction xs generalizing ys with
  | nil =>
    rw [List.mapM_nil, List.forall₂_nil_left_iff, pure_eq, Except.ok.injEq]
    exact eq_comm
  | cons x xs ih =>
    rw [List.mapM_cons, bind_eq_ok]
    constructor
    · rintro ⟨y, hy, h⟩
      obtain ⟨rest, hrest, h⟩ := bind_eq_ok.1 h
      obtain rfl := Except.ok.inj h
      exact .cons hy (ih.1 hrest)
    · rintro (_ | ⟨hy, hrest⟩)
      exact ⟨_, hy, bind_eq_ok.2 ⟨_, ih.2 hrest, rfl⟩⟩

lemma exists_mapM {xs : List α} (h : ∀ x ∈ xs, ∃ y, f x = .ok y) : ∃ ys, xs.mapM f = .ok ys := by
  induction xs with
  | nil => exact ⟨[], rfl⟩
  | cons x xs ih =>
    obtain ⟨y, hy⟩ := h x (List.mem_cons_self ..)
    obtain ⟨ys, hys⟩ := ih fun z hz => h z (List.mem_cons_of_mem _ hz)
    exact ⟨y :: ys, mapM_eq_ok.2 (.cons hy (mapM_eq_ok.1 hys))⟩

/-! ### Values up to overflow -/

/-- The computation has a value with the property, or a sum or product has left its range. -/
def Yields (x : Checked α) (P : α → Prop) : Prop :=
  match x with
  | .ok a => P a
  | .error f => f = .add ∨ f = .multiply

variable {y : Checked α} {k : α → Checked β} {P : α → Prop} {Q : β → Prop}

lemma Yields.bind (h : Yields y P) (hk : ∀ a, P a → Yields (k a) Q) : Yields (y >>= k) Q := by
  cases y with
  | ok a => exact hk a h
  | error f => exact h

lemma Yields.map (h : Yields y fun a => Q (g a)) : Yields (g <$> y) Q := by
  cases y with
  | ok a => exact h
  | error f => exact h

lemma Yields.mono {P' : α → Prop} (h : Yields y P) (himp : ∀ a, P a → P' a) : Yields y P' := by
  cases y with
  | ok a => exact himp a h
  | error f => exact h

lemma Yields.of_ok {a : α} (h : Yields y P) (hok : y = .ok a) : P a := by
  rw [hok] at h
  exact h

lemma yields_addWord (a b : Nat) : Yields (addWord a b) (· = a + b) := by
  unfold addWord
  split
  · exact rfl
  · exact .inl rfl

lemma yields_mulWord (a b : Nat) : Yields (mulWord a b) (· = a * b) := by
  unfold mulWord
  split
  · exact rfl
  · exact .inr rfl

end Waveflow.Checked
