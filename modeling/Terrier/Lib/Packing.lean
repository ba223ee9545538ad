import Mathlib.Tactic

/-!
Pieces packed one after another. The place of a piece is the length of what is
packed before it, so the places of two neighbours enclose the first of them.
-/

namespace Packing

open List

variable {α : Type*}

/-- The places of the pieces when the first is put at `acc`. -/
def starts : Nat → List (List α) → List Nat
  | _, [] => []
  | acc, piece :: rest => acc :: starts (acc + piece.length) rest

/-- The places of the pieces and of the end. -/
def bounds (pieces : List (List α)) : List Nat :=
  starts 0 pieces ++ [pieces.flatten.length]

@[simp] theorem length_starts (acc : Nat) (pieces : List (List α)) :
    (starts acc pieces).length = pieces.length := by
  induction pieces generalizing acc with
  | nil => rfl
  | cons piece rest ih => rw [starts, length_cons, ih, length_cons]

theorem starts_getElem? (acc : Nat) {pieces : List (List α)} {i : Nat} (h : i < pieces.length) :
    (starts acc pieces)[i]? = some (acc + (pieces.take i).flatten.length) := by
  induction pieces generalizing acc i with
  | nil => cases h
  | cons piece rest ih =>
    cases i with
    | zero => rfl
    | succ i =>
      rw [starts, getElem?_cons_succ, ih _ (Nat.lt_of_succ_lt_succ h), take_succ_cons,
        flatten_cons, length_append, Nat.add_assoc]

theorem bounds_getElem? {pieces : List (List α)} {i : Nat} (h : i ≤ pieces.length) :
    (bounds pieces)[i]? = some (pieces.take i).flatten.length := by
  rcases h.lt_or_eq with hlt | rfl
  · rw [bounds, getElem?_append_left (by rwa [length_starts]), starts_getElem? 0 hlt, Nat.zero_add]
  · rw [bounds, getElem?_append_right (by rw [length_starts]), length_starts, Nat.sub_self,
      take_length]
    rfl

section

variable {pieces : List (List α)} {i : Nat} {piece : List α} (h : pieces[i]? = some piece)
include h

/-- What is packed before a piece, the piece, and what is packed behind it. -/
theorem flatten_split :
    pieces.flatten = (pieces.take i).flatten ++ (piece ++ (pieces.drop (i + 1)).flatten) := by
  obtain ⟨hlt, rfl⟩ := List.getElem?_eq_some_iff.1 h
  rw [← flatten_cons, getElem_cons_drop, ← flatten_append, take_append_drop]

/-- A piece is found again at its place. -/
theorem drop_take_flatten :
    (pieces.flatten.drop (pieces.take i).flatten.length).take piece.length = piece := by
  rw [flatten_split h, drop_left, take_left]

/-- A piece is what lies between two neighbouring bounds. -/
theorem bounds_enclose :
    ∃ start stop, (bounds pieces)[i]? = some start ∧ (bounds pieces)[i + 1]? = some stop ∧
      (pieces.flatten.drop start).take (stop - start) = piece := by
  have hlt := (List.getElem?_eq_some_iff.1 h).1
  refine ⟨_, _, bounds_getElem? hlt.le, bounds_getElem? hlt, ?_⟩
  have hlen : (pieces.take (i + 1)).flatten.length =
      (pieces.take i).flatten.length + piece.length := by
    rw [take_add_one, h, Option.toList_some, flatten_append, length_append, flatten_singleton]
  rw [hlen, Nat.add_sub_cancel_left, drop_take_flatten h]

end

end Packing
