import Terrier.Storage.TupleAccessStrategy

/-!
Every layout fits a block. The number of slots is estimated with sixteen bytes of padding for
each column, which is more than its bitmaps and values are padded by and makes up for the
header.
-/

namespace Terrier

open Word32
open List Option

variable {numSlots : Nat}

theorem padTo8_of_lt {offset : Nat} (h : offset + 7 < 2 ^ 32) :
    padTo8 offset = some (padUpToSize 8 offset) := by
  rw [padTo8, add_of_lt h]
  rfl

theorem padUpToSize_eight (offset : Nat) : padUpToSize 8 offset = (offset + 7) / 8 * 8 := rfl

theorem sizeInBytes_eq (n : Nat) : sizeInBytes n = (n + 7) / 8 := by
  rw [sizeInBytes, LittleEndian.bitmapSize]
  split_ifs <;> omega

def tupleSize (layout : BlockLayout) : Nat := (layout.attrSizes.map attrSizeBytes).sum

variable {sizes : List Nat} {start numCols : Nat}

theorem foldlM_add (h : start + (sizes.map attrSizeBytes).sum < 2 ^ 32) :
    sizes.foldlM (fun result size => add result (attrSizeBytes size)) start =
      some (start + (sizes.map attrSizeBytes).sum) := by
  induction sizes generalizing start with
  | nil => rfl
  | cons size rest ih =>
    rw [map_cons, sum_cons, ← Nat.add_assoc] at h ⊢
    rw [foldlM_cons, add_of_lt (by omega)]
    exact ih h

theorem attrSizeBytes_mem {layout : BlockLayout} {size : Nat} (h : size ∈ layout.attrSizes) :
    1 ≤ attrSizeBytes size ∧ attrSizeBytes size ≤ 16 := by
  have hcases : size ∈ [1, 2, 4, 8, varlenColumn] := by
    rcases mem_cons.mp h with rfl | hmem
    · decide
    · exact layout.valid size hmem
  have hall : ∀ size ∈ [1, 2, 4, 8, varlenColumn],
      1 ≤ attrSizeBytes size ∧ attrSizeBytes size ≤ 16 := by decide
  exact hall size hcases

theorem tupleSize_bounds (layout : BlockLayout) :
    7 + layout.numColumns ≤ tupleSize layout ∧ tupleSize layout + 8 ≤ 16 * layout.numColumns := by
  have hsize {size : Nat} (h : size ∈ layout.userSizes) :=
    @attrSizeBytes_mem layout size (mem_cons_of_mem _ h)
  have hlow := card_nsmul_le_sum (layout.userSizes.map attrSizeBytes) 1
    (by simpa using fun _ h => (hsize h).1)
  have hhigh := sum_le_card_nsmul (layout.userSizes.map attrSizeBytes) 16
    (by simpa using fun _ h => (hsize h).2)
  have hfirst : attrSizeBytes 8 = 8 := rfl
  simp only [length_map, smul_eq_mul] at hlow hhigh
  simp only [tupleSize, BlockLayout.numColumns, BlockLayout.attrSizes, map_cons,
    sum_cons, length_cons, hfirst]
  omega

def staticSize (numCols : Nat) : Nat :=
  padUpToSize 8 (24 + (padUpToSize 8 (4 * (numCols + 1)) + numCols * 40) + numCols * 4)

theorem computeStaticHeaderSize_eq (h : numCols ≤ maxCol) :
    computeStaticHeaderSize numCols = some (staticSize numCols) := by
  have hcols : numCols ≤ 12500 := h
  have hpad := padUpToSize_eight (4 * (numCols + 1))
  have harrow : arrowMetadataSize numCols =
      some (padUpToSize 8 (4 * (numCols + 1)) + numCols * 40) := by
    simp (disch := omega) only [arrowMetadataSize, mul_of_lt, bind_eq_bind, padTo8_of_lt,
      bind_some, add_of_lt]
  simp (disch := omega) only [computeStaticHeaderSize, harrow, bind_eq_bind,
    bind_some, narrow_of_lt, padTo8_of_lt]
  rfl

def bitsLeft (numCols : Nat) : Nat := 8 * (blockSize - staticSize numCols - 16 * numCols)

theorem staticSize_bounds (h : numCols ≤ maxCol) :
    staticSize numCols % 8 = 0 ∧ staticSize numCols ≤ 48 * numCols + 40 ∧
      staticSize numCols + 16 * numCols ≤ blockSize := by
  have hcols : numCols ≤ 12500 := h
  simp only [staticSize, padUpToSize_eight, blockSize]
  omega

theorem computeNumSlots_eq {tupleSize : Nat} (h : numCols ≤ maxCol)
    (htuple : tupleSize + 8 ≤ 16 * numCols) :
    computeNumSlots (staticSize numCols) tupleSize numCols =
      some (bitsLeft numCols / (8 * tupleSize + numCols + 1)) := by
  obtain ⟨-, -, hle⟩ := staticSize_bounds h
  have hblock : blockSize = 2 ^ 20 := rfl
  simp (disch := omega) only [computeNumSlots, sub_of_le, mul_of_lt, add_of_lt,
    bind_eq_bind, bind_some]
  rfl

def bitmapArea (numSlots : Nat) : Nat := padUpToSize 8 (sizeInBytes numSlots)

def paddedColumn (numSlots size : Nat) : Nat :=
  padUpToSize 8 (attrSizeBytes size * numSlots + bitmapArea numSlots)

theorem bitmapArea_bounds (numSlots : Nat) :
    bitmapArea numSlots % 8 = 0 ∧ 8 * bitmapArea numSlots ≤ numSlots + 63 := by
  rw [bitmapArea, padUpToSize_eight, sizeInBytes_eq]
  omega

/-- A column ends within its padding, and its values start behind its bitmap. -/
theorem columnArea_eq {offset : Nat} (h : offset % 8 = 0) (size : Nat) :
    columnArea numSlots (offset, size) =
      (offset, offset + (attrSizeBytes size * numSlots + bitmapArea numSlots)) := by
  have hstart : columnStart numSlots offset = offset + bitmapArea numSlots := by
    rw [columnStart, bitmapArea, padUpToSize_eight, padUpToSize_eight]
    omega
  rw [columnArea, hstart, Nat.add_assoc, Nat.add_comm (bitmapArea numSlots)]

theorem columnOffsets_spec (hstart : start % 8 = 0)
    (hend : start + (sizes.map (paddedColumn numSlots)).sum ≤ blockSize) :
    ∃ offsets, columnOffsets numSlots sizes start = some offsets ∧ offsets.length = sizes.length ∧
      (∀ column ∈ offsets.zip sizes, start ≤ column.1 ∧ column.1 % 8 = 0 ∧
        (columnArea numSlots column).2 ≤ blockSize) ∧
      (offsets.zip sizes).Pairwise fun a b => (columnArea numSlots a).2 ≤ b.1 := by
  induction sizes generalizing start with
  | nil => exact ⟨[], rfl, rfl, by simp, List.Pairwise.nil⟩
  | cons size rest ih =>
    rw [map_cons, sum_cons, ← Nat.add_assoc] at hend
    have hpadded : paddedColumn numSlots size = _ := padUpToSize_eight _
    have hblock : blockSize = 2 ^ 20 := rfl
    have hbitmap : bitmapArea numSlots = _ := padUpToSize_eight _
    obtain ⟨offsets, hoffs, hlen, hcolumns, hpairwise⟩ := ih (by omega) hend
    have harea := @columnArea_eq numSlots _ hstart size
    refine ⟨start :: offsets, ?_, by simp [hlen], ?_, ?_⟩
    · have hcol : padTo8 (attrSizeBytes size * numSlots + bitmapArea numSlots) =
          some (paddedColumn numSlots size) := padTo8_of_lt (by omega)
      have hbits : padTo8 (sizeInBytes numSlots) = some (bitmapArea numSlots) :=
        padTo8_of_lt (by omega)
      simp (disch := omega) only [columnOffsets, mul_of_lt, hbits, add_of_lt, hcol,
        bind_eq_bind, bind_some, hoffs]
      rfl
    · intro column hmem
      rcases mem_cons.mp hmem with rfl | hmem
      · rw [harea]
        exact ⟨le_rfl, hstart, by simp only; omega⟩
      · obtain ⟨hle, hrest⟩ := hcolumns column hmem
        exact ⟨by omega, hrest⟩
    · refine List.Pairwise.cons (fun column hmem => ?_) hpairwise
      have hle := (hcolumns column hmem).1
      rw [harea]
      omega

theorem sum_paddedColumn_le (layout : BlockLayout) (numSlots : Nat) :
    8 * (layout.attrSizes.map (paddedColumn numSlots)).sum + 56 ≤
      8 * (tupleSize layout * numSlots) + layout.numColumns * (numSlots + 63 + 56) := by
  have hbitmap := bitmapArea_bounds numSlots
  have hrest (sizes : List Nat) : 8 * (sizes.map (paddedColumn numSlots)).sum ≤
      8 * ((sizes.map attrSizeBytes).sum * numSlots) + sizes.length * (numSlots + 63 + 56) := by
    induction sizes with
    | nil => simp
    | cons size rest ih =>
      have hpadded : paddedColumn numSlots size = _ := padUpToSize_eight _
      simp only [map_cons, sum_cons, length_cons, Nat.add_mul, Nat.one_mul] at ih ⊢
      omega
  -- the values of the first column need no padding
  have hfirst : paddedColumn numSlots 8 = 8 * numSlots + bitmapArea numSlots := by
    rw [paddedColumn, padUpToSize_eight, show attrSizeBytes 8 = 8 from rfl]
    omega
  have hsizes := hrest layout.userSizes
  simp only [tupleSize, BlockLayout.numColumns, BlockLayout.attrSizes, map_cons,
    sum_cons, length_cons, hfirst, show attrSizeBytes 8 = 8 from rfl, Nat.add_mul,
    Nat.one_mul] at hsizes ⊢
  omega

def Apart (a b : Nat × Nat) : Prop := a.2 ≤ b.1 ∨ b.2 ≤ a.1

structure DividedBlock.Fits (block : DividedBlock) : Prop where
  slots_pos : 1 ≤ block.numSlots
  slots_lt : block.numSlots < blockSize
  apart : block.areas.Pairwise Apart
  aligned : ∀ area ∈ block.areas, area.1 % 8 = 0
  inside : ∀ area ∈ block.areas, area.2 ≤ blockSize
  attributes : ∀ ⦃i j : Nat⦄ ⦃column column'⦄, block.columns[i]? = some column →
    block.columns[j]? = some column' → ∀ ⦃slot slot'⦄, slot < block.numSlots →
      slot' < block.numSlots → (i, slot) ≠ (j, slot') →
        Apart (attributeArea block.numSlots column slot)
          (attributeArea block.numSlots column' slot')

theorem attributeArea_inside {column : Nat × Nat} {slot : Nat} (h : slot < numSlots) :
    column.1 ≤ (attributeArea numSlots column slot).1 ∧
      (attributeArea numSlots column slot).2 ≤ (columnArea numSlots column).2 := by
  have hle : attrSizeBytes column.2 * (slot + 1) ≤ attrSizeBytes column.2 * numSlots :=
    Nat.mul_le_mul_left _ h
  have hstart : columnStart numSlots column.1 = _ := padUpToSize_eight _
  rw [Nat.mul_add, Nat.mul_one] at hle
  simp only [attributeArea, columnArea]
  omega

theorem attributeArea_apart {column : Nat × Nat} {slot slot' : Nat} (hne : slot ≠ slot') :
    Apart (attributeArea numSlots column slot) (attributeArea numSlots column slot') := by
  have hbef {a b : Nat} (h : a < b) : (attributeArea numSlots column a).2 ≤
      (attributeArea numSlots column b).1 := by
    have hle : attrSizeBytes column.2 * (a + 1) ≤ attrSizeBytes column.2 * b :=
      Nat.mul_le_mul_left _ h
    rw [Nat.mul_add, Nat.mul_one] at hle
    simp only [attributeArea]
    omega
  exact (Nat.lt_or_gt_of_ne hne).imp hbef hbef

theorem fits_of_columns {block : DividedBlock} (hpos : 1 ≤ block.numSlots)
    (hlt : block.numSlots < blockSize) (hheader : block.headerSize ≤ blockSize)
    (hcolumns : ∀ column ∈ block.columns, block.headerSize ≤ column.1 ∧ column.1 % 8 = 0 ∧
      (columnArea block.numSlots column).2 ≤ blockSize)
    (hpairwise : block.columns.Pairwise fun a b => (columnArea block.numSlots a).2 ≤ b.1) :
    block.Fits where
  slots_pos := hpos
  slots_lt := hlt
  apart := by
    refine List.Pairwise.cons (fun area hmem => ?_) (pairwise_map.mpr (hpairwise.imp .inl))
    obtain ⟨column, hcol, rfl⟩ := List.mem_map.mp hmem
    exact .inl (hcolumns column hcol).1
  aligned := forall_mem_cons.mpr
    ⟨rfl, forall_mem_map.mpr fun column hcol => (hcolumns column hcol).2.1⟩
  inside := forall_mem_cons.mpr
    ⟨hheader, forall_mem_map.mpr fun column hcol => (hcolumns column hcol).2.2⟩
  attributes := by
    intro i j column column' hi hj slot slot' hslot hslot' hne
    have hbef {i j : Nat} {column column' : Nat × Nat} (hij : i < j)
        (hi : block.columns[i]? = some column) (hj : block.columns[j]? = some column') :
        (columnArea block.numSlots column).2 ≤ column'.1 := by
      obtain ⟨hi', rfl⟩ := List.getElem?_eq_some_iff.mp hi
      obtain ⟨hj', rfl⟩ := List.getElem?_eq_some_iff.mp hj
      exact pairwise_iff_getElem.mp hpairwise i j hi' hj' hij
    have hin := @attributeArea_inside _ column _ hslot
    have hin' := @attributeArea_inside _ column' _ hslot'
    rcases Nat.lt_trichotomy i j with hij | rfl | hij
    · have := hbef hij hi hj
      exact .inl (by omega)
    · cases hi.symm.trans hj
      exact attributeArea_apart fun heq => hne (by rw [heq])
    · have := hbef hij hj hi
      exact .inr (by omega)

theorem divide_fits (layout : BlockLayout) (hcolumns : 2 ≤ layout.numColumns) :
    ∃ block, layout.divide = some block ∧ block.columns.map (·.2) = layout.attrSizes ∧
      block.Fits := by
  have hmax : layout.numColumns ≤ maxCol := layout.bounded
  have hmax' : layout.numColumns ≤ 12500 := hmax
  obtain ⟨hlow, hhigh⟩ := tupleSize_bounds layout
  obtain ⟨hstatic8, hstatic, hroom⟩ := staticSize_bounds hmax
  obtain ⟨numSlots, hslots⟩ : ∃ numSlots, bitsLeft layout.numColumns /
      (8 * tupleSize layout + layout.numColumns + 1) = numSlots := ⟨_, rfl⟩
  have hblock : blockSize = 2 ^ 20 := rfl
  have hbits : bitsLeft layout.numColumns =
      8 * (blockSize - staticSize layout.numColumns - 16 * layout.numColumns) := rfl
  have hpos : 1 ≤ numSlots := by
    rw [← hslots, Nat.le_div_iff_mul_le (by omega), hbits]
    omega
  have hlt : numSlots < blockSize := by
    rw [← hslots, hbits]
    apply Nat.div_lt_of_lt_mul
    calc _ ≤ 8 * blockSize := by omega
      _ < (8 * tupleSize layout + layout.numColumns + 1) * blockSize :=
        Nat.mul_lt_mul_of_pos_right (by omega) (by decide)
  have hused : numSlots * (8 * tupleSize layout + layout.numColumns + 1) ≤
      8 * (blockSize - staticSize layout.numColumns - 16 * layout.numColumns) :=
    hslots ▸ Nat.div_mul_le_self _ _
  have hbitmap := bitmapArea_bounds numSlots
  have hheader : computeHeaderSize (staticSize layout.numColumns) numSlots =
      some (staticSize layout.numColumns + bitmapArea numSlots) := by
    have hbytes := sizeInBytes_eq numSlots
    rw [computeHeaderSize, add_of_lt (by omega), bind_eq_bind, bind_some,
      padTo8_of_lt (by omega), bitmapArea, padUpToSize_eight, padUpToSize_eight]
    congr 1
    omega
  have hsum := sum_paddedColumn_le layout numSlots
  have hend : staticSize layout.numColumns + bitmapArea numSlots +
      (layout.attrSizes.map (paddedColumn numSlots)).sum ≤ blockSize := by
    have hproduct : numSlots * (8 * tupleSize layout + layout.numColumns + 1) =
        8 * (tupleSize layout * numSlots) + layout.numColumns * numSlots + numSlots := by ring
    rw [hproduct] at hused
    simp only [Nat.mul_add] at hsum
    omega
  obtain ⟨offsets, hoffs, hlen, hspec, hpairwise⟩ :=
    columnOffsets_spec (by omega) hend
  have htuple : computeTupleSize layout.attrSizes = some (tupleSize layout) := by
    rw [computeTupleSize, foldlM_add, Nat.zero_add]
    · rfl
    · rw [Nat.zero_add]
      exact (show tupleSize layout < 2 ^ 32 by omega)
  refine ⟨⟨numSlots, staticSize layout.numColumns + bitmapArea numSlots,
    offsets.zip layout.attrSizes⟩, ?_, ?_, ?_⟩
  · simp only [BlockLayout.divide, htuple, computeStaticHeaderSize_eq hmax,
      computeNumSlots_eq hmax hhigh, hslots, hheader, hoffs, bind_eq_bind,
      bind_some]
    rfl
  · exact map_snd_zip hlen.ge
  · exact fits_of_columns hpos hlt (by simp only; omega) hspec hpairwise

/-- Every list of 2 to `MAX_COL` attribute sizes, the first one of eight bytes, divides a
block up without overflow, and everything fits. -/
theorem layout_fits_block (sizes : List Nat)
    (hvalid : ∀ size ∈ sizes, size ∈ [1, 2, 4, 8, varlenColumn])
    (hcolumns : 2 ≤ sizes.length + numReservedColumns)
    (hbounded : sizes.length + numReservedColumns ≤ maxCol) :
    ∃ block, (BlockLayout.ofSizes sizes hvalid hbounded).divide = some block ∧
      block.columns.map (·.2) = (BlockLayout.ofSizes sizes hvalid hbounded).attrSizes ∧
      block.Fits := by
  apply divide_fits
  simp only [BlockLayout.numColumns, BlockLayout.attrSizes, BlockLayout.ofSizes,
    length_cons, length_mergeSort]
  exact hcolumns

theorem oneVarlen_fits :
    ∃ block, (BlockLayout.ofSizes [varlenColumn] (by simp) (by decide)).divide = some block ∧
      block.Fits := by
  obtain ⟨block, hblock, -, hfits⟩ :=
    layout_fits_block [varlenColumn] (by simp) (by decide) (by decide)
  exact ⟨block, hblock, hfits⟩

end Terrier
