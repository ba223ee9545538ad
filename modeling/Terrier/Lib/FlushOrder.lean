import Mathlib.Tactic

/-!
Records that are written through a queue of buffers. A record may carry a mark, which is noted
after its bytes and travels with the buffer that is being filled then. Whatever the buffers'
sizes are, the records of all collected marks have been flushed.
-/

namespace FlushOrder

open List

variable {α β γ : Type*} (bytesOf : α → List β) (markOf : α → Option γ)

/-- The records up to the `n`th mark take no more than `size` bytes. -/
def Covers (records : List α) (n size : Nat) : Prop :=
  ∃ front back, records = front ++ back ∧ (front.filterMap markOf).length = n ∧
    (front.flatMap bytesOf).length ≤ size

/-- Marks are covered at each place between buffers, when `n` marks and `size`
bytes are in front of them. -/
def CoversAll (records : List α) : Nat → Nat → List (List β × List γ) → Prop
  | n, size, [] => Covers bytesOf markOf records n size
  | n, size, buffer :: buffers => Covers bytesOf markOf records n size ∧
      CoversAll records (n + buffer.2.length) (size + buffer.1.length) buffers

/-- `file` was flushed and `done` collected, `buffers` are on their way, and
`bytes` and `marks` of the last record are not in a buffer yet. -/
structure Flowing (file : List β) (done : List γ) (buffers : List (List β × List γ))
    (bytes : List β) (marks : List γ) (records : List α) : Prop where
  bytes_eq : file ++ buffers.flatMap Prod.fst ++ bytes = records.flatMap bytesOf
  marks_eq : done ++ buffers.flatMap Prod.snd ++ marks = records.filterMap markOf
  covers : CoversAll bytesOf markOf records done.length file.length buffers

variable {bytesOf markOf} {records : List α} {n size : Nat} {buffers : List (List β × List γ)}

theorem Covers.mono {size' : Nat} (h : Covers bytesOf markOf records n size) (hle : size ≤ size') :
    Covers bytesOf markOf records n size' := by
  obtain ⟨front, back, hsplit, hmarks, hbytes⟩ := h
  exact ⟨front, back, hsplit, hmarks, hbytes.trans hle⟩

theorem Covers.snoc (h : Covers bytesOf markOf records n size) (a : α) :
    Covers bytesOf markOf (records ++ [a]) n size := by
  obtain ⟨front, back, rfl, hmarks, hbytes⟩ := h
  exact ⟨front, back ++ [a], by simp, hmarks, hbytes⟩

theorem CoversAll.head (h : CoversAll bytesOf markOf records n size buffers) :
    Covers bytesOf markOf records n size := by
  cases buffers with
  | nil => exact h
  | cons buffer buffers => exact h.1

theorem CoversAll.snoc (h : CoversAll bytesOf markOf records n size buffers) (a : α) :
    CoversAll bytesOf markOf (records ++ [a]) n size buffers := by
  induction buffers generalizing n size with
  | nil => exact Covers.snoc h a
  | cons buffer buffers ih => exact ⟨h.1.snoc a, ih h.2⟩

theorem coversAll_append {first second : List (List β × List γ)} :
    CoversAll bytesOf markOf records n size (first ++ second) ↔
      CoversAll bytesOf markOf records n size first ∧
        CoversAll bytesOf markOf records (n + (first.flatMap Prod.snd).length)
          (size + (first.flatMap Prod.fst).length) second := by
  induction first generalizing n size with
  | nil =>
    exact ⟨fun h => ⟨h.head, h⟩, fun h => h.2⟩
  | cons buffer first ih =>
    simp only [cons_append, CoversAll, ih, flatMap_cons, length_append, Nat.add_assoc, and_assoc]

namespace Flowing

variable {file : List β} {done : List γ} {buffers : List (List β × List γ)} {bytes : List β}
  {marks : List γ} {records : List α}

theorem init : Flowing bytesOf markOf [] [] [([], [])] [] [] [] :=
  ⟨rfl, rfl, ⟨[], [], rfl, rfl, Nat.le_refl 0⟩, ⟨[], [], rfl, rfl, Nat.le_refl 0⟩⟩

/-- The next record is begun. -/
theorem begin (h : Flowing bytesOf markOf file done buffers [] [] records) (a : α) :
    Flowing bytesOf markOf file done buffers (bytesOf a) (markOf a).toList (records ++ [a]) := by
  refine ⟨?_, ?_, h.covers.snoc a⟩
  · have := h.bytes_eq
    rw [append_nil] at this
    simp [this]
  · have := h.marks_eq
    rw [append_nil] at this
    rw [this, filterMap_append]
    cases hmark : markOf a <;> simp [hmark]

variable {filled : List β} {noted : List γ}

theorem write {data : List β}
    (h : Flowing bytesOf markOf file done (buffers ++ [(filled, noted)]) (data ++ bytes) marks
      records) :
    Flowing bytesOf markOf file done (buffers ++ [(filled ++ data, noted)]) bytes marks
      records := by
  refine ⟨?_, ?_, ?_⟩
  · rw [← h.bytes_eq]
    simp
  · rw [← h.marks_eq]
    simp
  · obtain ⟨hfront, hlast, hend⟩ := coversAll_append.mp h.covers
    refine coversAll_append.mpr ⟨hfront, hlast, Covers.mono hend ?_⟩
    simp only [length_append]
    omega

theorem handOver
    (h : Flowing bytesOf markOf file done (buffers ++ [(filled, noted)]) bytes marks records) :
    Flowing bytesOf markOf file done (buffers ++ [(filled, noted), ([], [])]) bytes marks
      records := by
  refine ⟨?_, ?_, ?_⟩
  · rw [← h.bytes_eq]
    simp
  · rw [← h.marks_eq]
    simp
  · obtain ⟨hfront, hlast, hend⟩ := coversAll_append.mp h.covers
    exact coversAll_append.mpr ⟨hfront, hlast, hend, hend⟩

theorem note {c : γ}
    (h : Flowing bytesOf markOf file done (buffers ++ [(filled, noted)]) [] [c] records) :
    Flowing bytesOf markOf file done (buffers ++ [(filled, noted ++ [c])]) [] [] records := by
  have hmarks := h.marks_eq
  have hbytes := h.bytes_eq
  refine ⟨?_, ?_, ?_⟩
  · rw [← hbytes]
    simp
  · rw [← hmarks]
    simp
  · obtain ⟨hfront, hlast, -⟩ := coversAll_append.mp h.covers
    -- All records are written by now, and this is the mark of the last one.
    refine coversAll_append.mpr ⟨hfront, hlast, records, [], by simp, ?_, ?_⟩
    · rw [← hmarks]
      simp only [flatMap_append, flatMap_cons, flatMap_nil, length_append,
        length_nil, length_singleton]
      omega
    · rw [← hbytes]
      simp only [flatMap_append, flatMap_cons, flatMap_nil, length_append, length_nil]
      omega

theorem flush
    (h : Flowing bytesOf markOf file done ((filled, noted) :: buffers) bytes marks records) :
    Flowing bytesOf markOf (file ++ filled) (done ++ noted) buffers bytes marks records := by
  refine ⟨?_, ?_, ?_⟩
  · rw [← h.bytes_eq]
    simp
  · rw [← h.marks_eq]
    simp
  · simpa using h.covers.2

theorem flushed (h : Flowing bytesOf markOf file done buffers bytes marks records) :
    ∃ front back, records = front ++ back ∧ front.flatMap bytesOf <+: file ∧
      front.filterMap markOf = done := by
  obtain ⟨front, back, rfl, hmarks, hbytes⟩ := h.covers.head
  refine ⟨front, back, rfl, ?_, ?_⟩
  · have hall : front.flatMap bytesOf <+: file ++ (buffers.flatMap Prod.fst ++ bytes) := by
      rw [← append_assoc, h.bytes_eq, flatMap_append]
      exact prefix_append _ _
    exact prefix_of_prefix_length_le hall (prefix_append _ _) hbytes
  · have hall : front.filterMap markOf <+: done ++ (buffers.flatMap Prod.snd ++ marks) := by
      rw [← append_assoc, h.marks_eq, filterMap_append]
      exact prefix_append _ _
    have hdone : front.filterMap markOf <+: done :=
      prefix_of_prefix_length_le hall (prefix_append _ _) hmarks.le
    exact hdone.eq_of_length hmarks

end Flowing

end FlushOrder
