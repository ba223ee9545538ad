import Mathlib.Data.List.Basic
import Mathlib.Tactic.Common

/-!
Byte images with references that are filled in later: pieces are known bytes, or fields of one
width that refer to a label. Writing the fields of one label over an image changes only that
label's fields.
-/

namespace Fixups

open List

variable {ι : Type}

def overwrite : List UInt8 → Nat → List UInt8 → List UInt8
  | image, _, [] => image
  | image, position, byte :: bytes => overwrite (image.set position byte) (position + 1) bytes

theorem overwrite_append (before after : List UInt8) {old new : List UInt8}
    (h : old.length = new.length) :
    overwrite (before ++ (old ++ after)) before.length new = before ++ (new ++ after) := by
  induction new generalizing before old with
  | nil =>
    rw [length_nil, length_eq_zero_iff] at h
    rw [h, overwrite]
  | cons byte bytes ih =>
    obtain _ | ⟨first, old⟩ := old
    · simp at h
    · have hset : (before ++ (first :: old ++ after)).set before.length byte =
          before ++ [byte] ++ (old ++ after) := by
        simp
      have hlen : before.length + 1 = (before ++ [byte]).length := by simp
      rw [overwrite, hset, hlen, ih (before ++ [byte]) (by simpa using h)]
      simp

inductive Piece (ι : Type) where
  | bytes (content : List UInt8)
  | reference (label : ι)

namespace Piece

def size (width : Nat) : Piece ι → Nat
  | bytes content => content.length
  | reference _ => width

end Piece

def size (width : Nat) : List (Piece ι) → Nat
  | [] => 0
  | piece :: pieces => piece.size width + size width pieces

@[simp] theorem size_append (width : Nat) (pieces rest : List (Piece ι)) :
    size width (pieces ++ rest) = size width pieces + size width rest := by
  induction pieces with
  | nil => simp [size]
  | cons piece pieces ih => simp [size, ih, Nat.add_assoc]

def field (fill : Nat → ι → List UInt8) (position : Nat) : Piece ι → List UInt8
  | .bytes content => content
  | .reference label => fill position label

def render (width : Nat) (fill : Nat → ι → List UInt8) : Nat → List (Piece ι) → List UInt8
  | _, [] => []
  | position, piece :: pieces =>
    field fill position piece ++ render width fill (position + piece.size width) pieces

theorem render_append (width : Nat) (fill : Nat → ι → List UInt8) (position : Nat)
    (pieces rest : List (Piece ι)) :
    render width fill position (pieces ++ rest) = render width fill position pieces ++
        render width fill (position + size width pieces) rest := by
  induction pieces generalizing position with
  | nil => rfl
  | cons piece pieces ih =>
    simp only [cons_append, render, ih, size, append_assoc, Nat.add_assoc]

section Width

variable {width : Nat} {fill : Nat → ι → List UInt8}
  (hfill : ∀ position label, (fill position label).length = width)
include hfill

theorem length_field (position : Nat) (piece : Piece ι) :
    (field fill position piece).length = piece.size width := by
  cases piece with
  | bytes content => rfl
  | reference label => exact hfill position label

theorem length_render (position : Nat) (pieces : List (Piece ι)) :
    (render width fill position pieces).length = size width pieces := by
  induction pieces generalizing position with
  | nil => rfl
  | cons piece pieces ih =>
    rw [render, length_append, length_field hfill, ih, size]

end Width

variable [DecidableEq ι]

def references (width : Nat) (label : ι) : Nat → List (Piece ι) → List Nat
  | _, [] => []
  | position, piece :: pieces =>
    match piece with
    | .bytes content => references width label (position + content.length) pieces
    | .reference other =>
      if other = label then position :: references width label (position + width) pieces
      else references width label (position + width) pieces

theorem references_append (width : Nat) (label : ι) (position : Nat)
    (pieces rest : List (Piece ι)) :
    references width label position (pieces ++ rest) = references width label position pieces ++
        references width label (position + size width pieces) rest := by
  induction pieces generalizing position with
  | nil => rfl
  | cons piece pieces ih =>
    cases piece with
    | bytes content => simp [references, ih, size, Piece.size, Nat.add_assoc]
    | reference other =>
      by_cases hother : other = label <;>
        simp [references, hother, ih, size, Piece.size, Nat.add_assoc]

variable {width position q : Nat} {label : ι} {pieces : List (Piece ι)}

theorem lt_of_mem_references (hwidth : 0 < width) (h : q ∈ references width label position pieces) :
    position ≤ q ∧ q < position + size width pieces := by
  induction pieces generalizing position with
  | nil => simp [references] at h
  | cons piece pieces ih =>
    cases piece with
    | bytes content =>
      have := ih h
      simp only [size, Piece.size]
      omega
    | reference other =>
      by_cases hother : other = label
      · rw [references, if_pos hother, mem_cons] at h
        simp only [size, Piece.size]
        obtain rfl | h := h
        · omega
        · have := ih h
          omega
      · rw [references, if_neg hother] at h
        have := ih h
        simp only [size, Piece.size]
        omega

theorem mem_of_mem_references (h : q ∈ references width label position pieces) :
    .reference label ∈ pieces := by
  induction pieces generalizing position with
  | nil => cases h
  | cons piece pieces ih =>
    cases piece with
    | bytes content => exact mem_cons_of_mem _ (ih h)
    | reference other =>
      by_cases hother : other = label
      · rw [hother]
        exact mem_cons_self
      · rw [references, if_neg hother] at h
        exact mem_cons_of_mem _ (ih h)

def refill (fill : Nat → ι → List UInt8) (label : ι) (content : Nat → List UInt8) :
    Nat → ι → List UInt8 :=
  fun position other => if other = label then content position else fill position other

section Patch

variable {width : Nat} {fill : Nat → ι → List UInt8}
  (hfill : ∀ position label, (fill position label).length = width)
  {content : Nat → List UInt8} (hcontent : ∀ position, (content position).length = width)
include hfill hcontent

theorem foldl_overwrite_references (label : ι) (before : List UInt8) (pieces : List (Piece ι)) :
    (references width label before.length pieces).foldl
        (fun image q => overwrite image q (content q))
        (before ++ render width fill before.length pieces) =
      before ++ render width (refill fill label content) before.length pieces := by
  -- The part that is already patched moves into `before`.
  induction pieces generalizing before with
  | nil => rfl
  | cons piece pieces ih =>
    cases piece with
    | bytes known =>
      have hrest := ih (before ++ known)
      rw [length_append, append_assoc, append_assoc] at hrest
      exact hrest
    | reference other =>
      by_cases hother : other = label
      · have hpatch := overwrite_append before (render width fill (before.length + width) pieces)
          ((hfill before.length other).trans (hcontent before.length).symm)
        have hrest := ih (before ++ content before.length)
        rw [length_append, hcontent, append_assoc, append_assoc] at hrest
        simp only [references, if_pos hother, foldl_cons, render, field, Piece.size, refill]
        rw [hpatch]
        exact hrest
      · have hrest := ih (before ++ fill before.length other)
        rw [length_append, hfill, append_assoc, append_assoc] at hrest
        simp only [references, if_neg hother, render, field, Piece.size, refill]
        exact hrest

/-- Overwriting all fields of a label refills them and changes nothing else. -/
theorem patch_render (label : ι) (pieces : List (Piece ι)) :
    (references width label 0 pieces).foldl (fun image q => overwrite image q (content q))
        (render width fill 0 pieces) =
      render width (refill fill label content) 0 pieces :=
  foldl_overwrite_references hfill hcontent label [] pieces

end Patch

end Fixups
