import Terrier.Lib.LittleEndian

/-!
Column sizes of a block and of rows over it. The log writes no column sizes but
four boundaries: rows keep their columns in descending order of size, so a
column's size is told by how many boundaries lie at or below its index.
-/

namespace Terrier

def maxCol : Nat := 12500

/-- `VARLEN_COLUMN`: 16 with the most significant bit set. -/
def varlenColumn : Nat := 0x8010

/-- `AttrSizeBytes` masks the most significant bit. -/
def attrSizeBytes (size : Nat) : Nat := size % 2 ^ 15

def numAttrBoundaries : Nat := 4

def numReservedColumns : Nat := 1

/-- The columns of a block, the version pointer first. The others are sorted by
the constructor. -/
structure BlockLayout where
  userSizes : List Nat
  valid : ∀ size ∈ userSizes, size ∈ [1, 2, 4, 8, varlenColumn]
  sorted : userSizes.Pairwise (· ≥ ·)
  bounded : userSizes.length + numReservedColumns ≤ maxCol

namespace BlockLayout

def ofSizes (sizes : List Nat) (hvalid : ∀ size ∈ sizes, size ∈ [1, 2, 4, 8, varlenColumn])
    (hbounded : sizes.length + numReservedColumns ≤ maxCol) : BlockLayout where
  userSizes := sizes.mergeSort (fun a b => decide (a ≥ b))
  valid := fun size hsize => hvalid size (List.mem_mergeSort.mp hsize)
  sorted := by
    have h : (sizes.mergeSort (fun a b => decide (a ≥ b))).Pairwise
        (fun a b => decide (a ≥ b) = true) :=
      List.pairwise_mergeSort (fun a b c hab hbc => by simp at *; omega)
        (fun a b => by simp; omega) sizes
    exact h.imp fun hab => of_decide_eq_true hab
  bounded := by simpa using hbounded

def attrSizes (layout : BlockLayout) : List Nat := 8 :: layout.userSizes

def numColumns (layout : BlockLayout) : Nat := layout.attrSizes.length

def attrSize (layout : BlockLayout) (col : Nat) : Nat :=
  attrSizeBytes (layout.attrSizes.getD col 0)

def isVarlen (layout : BlockLayout) (col : Nat) : Bool :=
  decide (2 ^ 15 ≤ layout.attrSizes.getD col 0)

end BlockLayout

/-- `StorageUtil::PadUpToSize`, for the powers of two it is used with. -/
def padUpToSize (wordSize offset : Nat) : Nat :=
  (offset + (wordSize - 1)) / wordSize * wordSize

def sizeInBytes (n : Nat) : Nat := LittleEndian.bitmapSize n

/-- The loop of `ProjectedRowInitializer` over the values. Each pads up for the
next one, and the last to 8 bytes. -/
def addValues : List Nat → Nat → Nat
  | [], size => size
  | [last], size => padUpToSize 8 (size + last)
  | first :: next :: rest, size =>
    addValues (next :: rest) (padUpToSize (min next 8) (size + first))

/-- The size that `ProjectedRowInitializer` computes: header, column ids,
offsets, bitmap and values. -/
def projectedRowSize (attrSizes : List Nat) : Nat :=
  let n := attrSizes.length
  let size := padUpToSize 4 (6 + 2 * n) + 4 * n
  addValues attrSizes (padUpToSize (min (attrSizes.headD 0) 8) (size + sizeInBytes n))

/-- The inner loop of `ComputeAttributeSizeBoundaries`, which ends the current
boundary until the column's size is reached. -/
def advanceBoundary (attrSize : Nat) : Nat → Nat × List Nat → Nat × List Nat
  | 0, state => state
  | fuel + 1, (index, boundaries) =>
    if attrSize < 16 >>> index then
      advanceBoundary attrSize fuel (index + 1, if index < numAttrBoundaries - 1 then
          boundaries.set (index + 1) (boundaries.getD index 0)
        else boundaries)
    else (index, boundaries)

/-- One column: `16 >> 5` is zero, so five rounds are enough. -/
def addColumn (state : Nat × List Nat) (attrSize : Nat) : Nat × List Nat :=
  let (index, boundaries) := advanceBoundary attrSize 5 state
  (index, if index < numAttrBoundaries then
      boundaries.set index (boundaries.getD index 0 + 1)
    else boundaries)

def computeAttributeSizeBoundaries (attrSizes : List Nat) : List Nat :=
  (attrSizes.foldl addColumn (0, [0, 0, 0, 0])).2

/-- `StorageUtil::AttrSizeFromBoundaries`: 16 shifted by the number of
boundaries up to the first one above the index. -/
def attrSizeFromBoundaries (boundaries : List Nat) (colIdx : Nat) : Nat :=
  16 >>> boundaries.findIdx (fun boundary => decide (colIdx < boundary))

end Terrier
