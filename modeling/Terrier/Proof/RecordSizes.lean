import Terrier.Storage.RecordBuffer
import Terrier.Proof.RecordCodec

/-!
Which projections of a table have log and undo records that fit a buffer segment. The columns of a
projection come in descending order of size, so only the header of a row and its end are padded.
-/

namespace Terrier

open List

structure RecordsFit (layout : BlockLayout) (cols : ProjectionList) : Prop where
  redo : redoRecordSize layout cols ≤ bufferSegmentSize
  undo : undoRecordSize layout cols ≤ bufferSegmentSize
  redoEntry : ∀ segment : Option Nat, (∀ taken ∈ segment, taken ≤ bufferSegmentSize) →
    redoNewEntry (redoRecordSize layout cols) segment ≤ bufferSegmentSize
  undoEntry : ∀ buffers : List Nat, (∀ taken ∈ buffers, taken ≤ bufferSegmentSize) →
    ∀ taken ∈ undoNewEntry (undoRecordSize layout cols) buffers, taken ≤ bufferSegmentSize

/-- The bytes in front of the values of a row over columns of these sizes. -/
def rowHeader (sizes : List Nat) : Nat :=
  padUpToSize (min (sizes.headD 0) 8)
    (padUpToSize 4 (6 + 2 * sizes.length) + 4 * sizes.length + sizeInBytes sizes.length)

theorem padUpToSize_of_dvd {wordSize offset : Nat} (hpos : 0 < wordSize)
    (h : wordSize ∣ offset) : padUpToSize wordSize offset = offset := by
  obtain ⟨k, rfl⟩ := h
  rw [padUpToSize, Nat.mul_add_div hpos, Nat.div_eq_of_lt (by omega), add_zero, mul_comm]

theorem dvd_padUpToSize (wordSize offset : Nat) : wordSize ∣ padUpToSize wordSize offset :=
  Nat.dvd_mul_left _ _

/-- The alignment of a column divides that of a larger one, and the size of one too. -/
theorem alignment_dvd {small large : Nat} (hsmall : small ∈ [1, 2, 4, 8, 16])
    (hlarge : large ∈ [1, 2, 4, 8, 16]) (h : small ≤ large) :
    0 < min small 8 ∧ min small 8 ∣ min large 8 ∧ min small 8 ∣ large := by
  revert h
  simp only [mem_cons, not_mem_nil, or_false] at hsmall hlarge
  obtain rfl | rfl | rfl | rfl | rfl := hsmall <;> obtain rfl | rfl | rfl | rfl | rfl := hlarge <;>
    decide

/-- Behind an aligned start there is no padding before the end of the row. -/
theorem addValues_eq {sizes : List Nat} {offset : Nat} (hne : sizes ≠ [])
    (hvalid : ∀ size ∈ sizes, size ∈ [1, 2, 4, 8, 16]) (hsort : sizes.Pairwise (· ≥ ·))
    (haligned : min (sizes.headD 0) 8 ∣ offset) :
    addValues sizes offset = padUpToSize 8 (offset + sizes.sum) := by
  induction sizes generalizing offset with
  | nil => exact absurd rfl hne
  | cons first rest ih =>
    cases rest with
    | nil => rw [addValues, sum_singleton]
    | cons next rest =>
      obtain ⟨hfirst, hsort⟩ := pairwise_cons.mp hsort
      obtain ⟨hfirstValid, hvalid⟩ := forall_mem_cons.mp hvalid
      obtain ⟨hpos, hmin, hsize⟩ := alignment_dvd (hvalid next mem_cons_self) hfirstValid
        (hfirst next mem_cons_self)
      have hnext : min next 8 ∣ offset + first := Nat.dvd_add (hmin.trans haligned) hsize
      rw [addValues, padUpToSize_of_dvd hpos hnext, ih (cons_ne_nil _ _) hvalid hsort hnext,
        sum_cons (a := first), add_assoc]

variable {layout : BlockLayout} {cols : ProjectionList}

theorem projectedSizes_valid (hcols : ∀ c ∈ cols.columnIds, c < layout.numColumns) :
    ∀ size ∈ projectedSizes layout cols, size ∈ [1, 2, 4, 8, 16] := by
  intro size hsize
  obtain ⟨c, hc, rfl⟩ := List.mem_map.mp hsize
  obtain ⟨heq, hle⟩ := layout.attrSize_eq_shift (cols.noVersionPointer c hc) (hcols c hc)
  rw [heq]
  generalize layout.shift c = shift at hle
  rw [numAttrBoundaries] at hle
  interval_cases shift <;> decide

theorem projectedSizes_sorted (hcols : ∀ c ∈ cols.columnIds, c < layout.numColumns) :
    (projectedSizes layout cols).Pairwise (· ≥ ·) := by
  rw [projectedSizes, pairwise_map]
  apply cols.sorted.imp_of_mem
  intro a b ha hb hab
  have hresv := cols.noVersionPointer a ha
  rw [(layout.attrSize_eq_shift hresv (hcols a ha)).1,
    (layout.attrSize_eq_shift (hresv.trans hab) (hcols b hb)).1]
  rw [ge_iff_le, Nat.shiftRight_eq_div_pow, Nat.shiftRight_eq_div_pow]
  exact Nat.div_le_div_left (Nat.pow_le_pow_right two_pos (layout.shift_mono hresv hab
    (hcols b hb))) (Nat.two_pow_pos _)

theorem projectedRowSize_eq (hne : cols.columnIds ≠ [])
    (hcols : ∀ c ∈ cols.columnIds, c < layout.numColumns) :
    projectedRowSize (projectedSizes layout cols) = padUpToSize 8
        (rowHeader (projectedSizes layout cols) + (projectedSizes layout cols).sum) := by
  apply addValues_eq _ (projectedSizes_valid hcols) (projectedSizes_sorted hcols)
    (dvd_padUpToSize _ _)
  rwa [projectedSizes, ne_eq, map_eq_nil_iff]

/-- The sum of two sizes up to that of a segment does not overflow. -/
theorem add_le_of_hasBytesLeft {taken size : Nat} (htaken : taken ≤ bufferSegmentSize)
    (hsize : size ≤ bufferSegmentSize) (h : hasBytesLeft taken size = true) :
    taken + size ≤ bufferSegmentSize := by
  have hle : (taken + size) % 2 ^ 32 ≤ bufferSegmentSize := of_decide_eq_true h
  rw [bufferSegmentSize] at *
  omega

theorem redoNewEntry_le {size : Nat} (hsize : size ≤ bufferSegmentSize) {segment : Option Nat}
    (h : ∀ taken ∈ segment, taken ≤ bufferSegmentSize) :
    redoNewEntry size segment ≤ bufferSegmentSize := by
  cases segment with
  | none => exact hsize
  | some taken =>
    rw [redoNewEntry]
    split
    case isTrue hleft => exact add_le_of_hasBytesLeft (h taken rfl) hsize hleft
    case isFalse => exact hsize

theorem undoNewEntry_le {size : Nat} (hsize : size ≤ bufferSegmentSize) {buffers : List Nat}
    (h : ∀ taken ∈ buffers, taken ≤ bufferSegmentSize) :
    ∀ taken ∈ undoNewEntry size buffers, taken ≤ bufferSegmentSize := by
  cases buffers with
  | nil => simpa [undoNewEntry] using hsize
  | cons taken buffers =>
    obtain ⟨htaken, hrest⟩ := forall_mem_cons.mp h
    rw [undoNewEntry]
    split
    case isTrue hleft =>
      exact forall_mem_cons.mpr ⟨add_le_of_hasBytesLeft htaken hsize hleft, hrest⟩
    case isFalse => exact forall_mem_cons.mpr ⟨hsize, h⟩

theorem recordsFit_iff_rowSize :
    RecordsFit layout cols ↔ projectedRowSize (projectedSizes layout cols) ≤ 4056 := by
  constructor
  · intro h
    have hundo := h.undo
    simp only [undoRecordSize, bufferSegmentSize] at hundo
    omega
  · intro h
    have hredo : redoRecordSize layout cols ≤ bufferSegmentSize := by
      simp only [redoRecordSize, bufferSegmentSize]
      omega
    have hundo : undoRecordSize layout cols ≤ bufferSegmentSize := by
      simp only [undoRecordSize, bufferSegmentSize]
      omega
    exact ⟨hredo, hundo, fun _ => redoNewEntry_le hredo, fun _ => undoNewEntry_le hundo⟩

/-- The records of a projection fit exactly if the header of the row and the bytes of the columns
are at most 4056 together. -/
theorem recordsFit_iff (layout : BlockLayout) (cols : ProjectionList)
    (hne : cols.columnIds ≠ []) (hcols : ∀ c ∈ cols.columnIds, c < layout.numColumns) :
    RecordsFit layout cols ↔
      rowHeader (projectedSizes layout cols) + (projectedSizes layout cols).sum ≤ 4056 := by
  rw [recordsFit_iff_rowSize, projectedRowSize_eq hne hcols]
  generalize rowHeader (projectedSizes layout cols) + (projectedSizes layout cols).sum = bytes
  rw [padUpToSize]
  omega

/-- A table of `n` columns of 8 bytes and the projection of all of them. -/
def wideLayout (n : Nat) (hn : n + 1 ≤ maxCol) : BlockLayout where
  userSizes := List.replicate n 8
  valid size hsize := by simp [eq_of_mem_replicate hsize]
  sorted := pairwise_replicate.mpr (.inr le_rfl)
  bounded := by rwa [length_replicate]

def allColumns (n : Nat) : ProjectionList where
  columnIds := List.range' 1 n
  sorted := pairwise_lt_range'
  noVersionPointer c hc := (mem_range'_1.mp hc).1

theorem tenColumns_fit : RecordsFit (wideLayout 10 (by decide)) (allColumns 10) :=
  (recordsFit_iff _ _ (by decide) (by decide)).mpr (by decide)

/-- An insert into a table of 300 columns of 8 bytes needs more than a segment. -/
theorem wide_not_recordsFit : ¬ RecordsFit (wideLayout 300 (by decide)) (allColumns 300) := by
  rw [recordsFit_iff_rowSize]
  decide +kernel

end Terrier
