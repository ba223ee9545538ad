import Mathlib.Tactic

/-!
Computations that may fail, in sequence and over lists.
-/

namespace Fallible

open List

variable {ε α β : Type} {x : Except ε α} {f : α → Except ε β} {e : ε} {xs : List α} {ys : List β}

theorem bind_eq_ok {b : β} (h : x >>= f = .ok b) : ∃ a, x = .ok a ∧ f a = .ok b := by
  cases x with
  | error e => cases h
  | ok a => exact ⟨a, rfl, h⟩

theorem bind_eq_error (h : x >>= f = .error e) :
    x = .error e ∨ ∃ a, x = .ok a ∧ f a = .error e := by
  cases x with
  | error e' => exact .inl (by cases h; rfl)
  | ok a => exact .inr ⟨a, rfl, h⟩

/-- A list of computations succeeds if every one of them does. -/
theorem mapM_eq_ok_iff : xs.mapM f = .ok ys ↔ List.Forall₂ (fun x y => f x = .ok y) xs ys := by
  induction xs generalizing ys with
  | nil =>
    constructor
    · rintro ⟨⟩
      exact .nil
    · rintro ⟨⟩
      rfl
  | cons x xs ih =>
    rw [mapM_cons]
    constructor
    · intro h
      obtain ⟨y, hy, h⟩ := bind_eq_ok h
      obtain ⟨rest, hrest, h⟩ := bind_eq_ok h
      cases h
      exact .cons hy (ih.1 hrest)
    · rintro (_ | ⟨hy, hrest⟩)
      rw [hy, ih.2 hrest]
      rfl

/-- A list of computations fails as one of them does. -/
theorem mapM_eq_error (h : xs.mapM f = .error e) : ∃ x ∈ xs, f x = .error e := by
  induction xs with
  | nil => cases h
  | cons x xs ih =>
    rw [mapM_cons] at h
    rcases bind_eq_error h with hx | ⟨y, _, h⟩
    · exact ⟨x, mem_cons_self, hx⟩
    · rcases bind_eq_error h with hrest | ⟨rest, _, h⟩
      · obtain ⟨x', hx', hfails⟩ := ih hrest
        exact ⟨x', mem_cons_of_mem _ hx', hfails⟩
      · cases h

theorem forM_eq_error {f : α → Except ε Unit} (h : xs.forM f = .error e) :
    ∃ x ∈ xs, f x = .error e := by
  induction xs with
  | nil => cases h
  | cons x xs ih =>
    rcases bind_eq_error h with hx | ⟨_, _, hrest⟩
    · exact ⟨x, mem_cons_self, hx⟩
    · obtain ⟨x', hx', hfails⟩ := ih hrest
      exact ⟨x', mem_cons_of_mem _ hx', hfails⟩

theorem mapM_eq_some_iff {f : α → Option β} :
    xs.mapM f = some ys ↔ List.Forall₂ (fun x y => f x = some y) xs ys := by
  induction xs generalizing ys with
  | nil => cases ys <;> simp
  | cons x xs ih =>
    rw [mapM_cons, forall₂_cons_left_iff]
    simp only [Option.bind_eq_bind, Option.bind_eq_some_iff, Option.pure_def, Option.some.injEq, ih]
    constructor
    · rintro ⟨y, hy, rest, hrest, rfl⟩
      exact ⟨y, rest, hy, hrest, rfl⟩
    · rintro ⟨y, rest, hy, hrest, rfl⟩
      exact ⟨y, hy, rest, hrest, rfl⟩

/-- A list of partial computations gives the values of `g` if every one of them does. -/
theorem mapM_eq_some_map_iff {f : α → Option β} {g : α → β} :
    xs.mapM f = some (xs.map g) ↔ ∀ x ∈ xs, f x = some (g x) := by
  rw [mapM_eq_some_iff, forall₂_map_right_iff, forall₂_same]

end Fallible
