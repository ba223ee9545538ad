import Terrier.Storage.ArrowGather

/-!
NULL counts of gathered blocks. The loops over varlen columns set the count to 0 for
every record, so that it only tells of the last one, and leave it alone if there is no
record.
-/

namespace Terrier.Compactor

open List Option

theorem countFixedNulls_eq (bitmap : List Bool) : countFixedNulls bitmap = bitmap.count false := by
  suffices h : ∀ start, bitmap.foldl (fun count bit => if bit then count else count + 1) start =
      start + bitmap.count false by
    rw [countFixedNulls, h, Nat.zero_add]
  induction bitmap with
  | nil => exact fun start => rfl
  | cons bit rest ih =>
    intro start
    rw [foldl_cons, ih, count_cons]
    cases bit
    · simp
      omega
    · simp

theorem countNulls_snoc (nullCount : Nat) (records : VarlenColumn) (last : Option VarlenEntry) :
    countNulls nullCount (records ++ [last]) = if last.isNone then 1 else 0 := by
  rw [countNulls, foldl_append]
  rfl

/-- The count is right if it was 0 before, or there is a record and none but the last is
NULL. -/
def CountsOnce (nullCount : Nat) (records : VarlenColumn) : Prop :=
  (records = [] → nullCount = 0) ∧ ∀ entry ∈ records.dropLast, entry.isSome = true

theorem countNulls_eq_iff (nullCount : Nat) (records : VarlenColumn) :
    countNulls nullCount records = (records.map (·.isSome)).count false ↔
      CountsOnce nullCount records := by
  rcases eq_nil_or_concat records with rfl | ⟨front, last, rfl⟩
  · simp [countNulls, CountsOnce]
  · rw [concat_eq_append, countNulls_snoc, map_append, count_append]
    have hlast : (if last.isNone then 1 else 0) = [last.isSome].count false := by
      cases last <;> rfl
    have hfront : (front.map (·.isSome)).count false = 0 ↔
        ∀ entry ∈ front, entry.isSome = true := by
      rw [count_eq_zero]
      simp [isSome_iff_ne_none, forall_mem_ne']
    rw [CountsOnce, dropLast_concat, ← hfront, hlast, map_singleton]
    simp

def CountedColumn.CountsRight (numRecords : Nat) (column : CountedColumn) : Prop :=
  match column.data with
  | .fixedLength _ => True
  | .varlen _ entries => CountsOnce column.nullCount (entries.take numRecords)

def GatheredColumn.Counts (numRecords : Nat) (column : CountedColumn) (gathered : GatheredColumn) :
    Prop :=
  gathered.nullCount = (column.data.bitmap.take numRecords).count false

section Gathering

variable {memory : Memory} {garbage : Nat → UInt8} {numRecords fresh nullCount : Nat}
  {entries : VarlenColumn} {loosePtrs : List Pointer} {gathered : Gathered}

theorem nullCount_gatherColumn_iff {column : CountedColumn} {rest : List Pointer}
    {gathered : GatheredColumn}
    (h : gatherColumn memory fresh garbage numRecords column loosePtrs = some (gathered, rest)) :
    gathered.Counts numRecords column ↔ column.CountsRight numRecords := by
  rw [GatheredColumn.Counts]
  obtain ⟨nullCount, data⟩ := column
  cases data with
  | fixedLength bitmap =>
    cases h
    simp [countFixedNulls_eq, ColumnData.bitmap, CountedColumn.CountsRight]
  | varlen type entries =>
    have hcount : gathered.nullCount = countNulls nullCount (entries.take numRecords) := by
      cases type with
      | fixedLength => cases h
      | gatheredVarlen | dictionaryCompressed =>
        obtain ⟨storage, hstorage, h⟩ := bind_eq_some_iff.mp h
        cases h
        obtain ⟨_, _, hstorage⟩ := bind_eq_some_iff.mp hstorage
        cases hstorage
        rfl
    rw [hcount, ColumnData.bitmap, ← map_take]
    exact countNulls_eq_iff nullCount _

end Gathering

/-- The NULL count of every column is the number of NULLs among the records, exactly if no
record of a varlen column but the last is NULL and the count of an empty column was 0. -/
theorem nullCounts_iff (memory : Memory) (garbage : Nat → UInt8) (numRecords fresh : Nat)
    (columns : List CountedColumn) (loosePtrs : List Pointer)
    (result : List GatheredColumn × List Pointer)
    (h : gatherVarlens memory garbage numRecords fresh columns loosePtrs = some result) :
    List.Forall₂ (GatheredColumn.Counts numRecords) columns result.1 ↔
      ∀ column ∈ columns, column.CountsRight numRecords := by
  induction columns generalizing fresh loosePtrs result with
  | nil =>
    cases h
    simp
  | cons column columns ih =>
    obtain ⟨⟨gathered, loosePtrs'⟩, hcolumn, h⟩ := bind_eq_some_iff.mp h
    obtain ⟨⟨rest, loosePtrs''⟩, hrest, h⟩ := bind_eq_some_iff.mp h
    cases h
    rw [forall₂_cons, ih _ _ _ hrest, nullCount_gatherColumn_iff hcolumn, forall_mem_cons]

theorem oneNull_counted : List.Forall₂ (GatheredColumn.Counts 2)
      [⟨7, .varlen .gatheredVarlen [some (.inlined [65] (by decide)), none]⟩]
      [⟨1, some ⟨[some (.inlined [65] (by decide)), none], 1, [65], [0, 1, 1], [], []⟩⟩] := by
  apply (nullCounts_iff (fun _ => []) (fun _ => 0) 2 0 _ [] (_, []) rfl).mpr
  intro column hcolumn
  cases mem_singleton.mp hcolumn
  exact ⟨by simp, by simp⟩

/-- Two NULLs are counted as none, since the last record is not NULL. -/
theorem nulls_not_counted : (gatherVarlens (fun _ => []) (fun _ => 0) 3 0
      [⟨0, .varlen .gatheredVarlen [none, none, some (.inlined [65] (by decide))]⟩] []).map
        (fun result => result.1.map (·.nullCount)) = some [0] ∧
    ((ColumnData.varlen .gatheredVarlen
      [none, none, some (.inlined [65] (by decide))]).bitmap.take 3).count false = 2 := by
  decide

end Terrier.Compactor
