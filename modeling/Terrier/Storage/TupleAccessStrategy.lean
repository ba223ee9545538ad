import Terrier.Lib.Word32
import Terrier.Log.BlockLayout

/-!
How `BlockLayout` and `TupleAccessStrategy` divide a block: the header, and for each column a
bitmap and the values. A 32-bit result that does not fit is `none`. Blocks are aligned, so
pointers are offsets in the block.
-/

namespace Terrier

open Word32

def blockSize : Nat := 2 ^ 20

/-- `PadUpToSize(sizeof(uint64_t), …)`. -/
def padTo8 (offset : Nat) : Option Nat := (add offset 7).map fun padded => padded / 8 * 8

def arrowMetadataSize (numCols : Nat) : Option Nat := do
  add (← padTo8 (← mul 4 (numCols + 1))) (← mul numCols 40)

def computeTupleSize (attrSizes : List Nat) : Option Nat :=
  attrSizes.foldlM (fun result size => add result (attrSizeBytes size)) 0

/-- The sum is one of 64 bits. -/
def computeStaticHeaderSize (numCols : Nat) : Option Nat := do
  padTo8 (← narrow (8 + 2 + 2 + 4 + 8 + (← arrowMetadataSize numCols) + numCols * 4))

def computeNumSlots (staticHeaderSize tupleSize numCols : Nat) : Option Nat := do
  let bytesAvailable ← sub (← sub blockSize staticHeaderSize) (← mul 16 numCols)
  let bitsPerTuple ← add (← add (← mul 8 tupleSize) numCols) 1
  return (← mul 8 bytesAvailable) / bitsPerTuple

def computeHeaderSize (staticHeaderSize numSlots : Nat) : Option Nat := do
  padTo8 (← add staticHeaderSize (sizeInBytes numSlots))

def columnOffsets (numSlots : Nat) : List Nat → Nat → Option (List Nat)
  | [], _ => some []
  | size :: rest, accOffset => do
    let columnSize ← add (← mul (attrSizeBytes size) numSlots) (← padTo8 (sizeInBytes numSlots))
    return accOffset :: (← columnOffsets numSlots rest (← add accOffset (← padTo8 columnSize)))

structure DividedBlock where
  numSlots : Nat
  headerSize : Nat
  columns : List (Nat × Nat)

/-- The two constructors. The size of a tuple does not depend on the order of columns. -/
def BlockLayout.divide (layout : BlockLayout) : Option DividedBlock := do
  let tupleSize ← computeTupleSize layout.attrSizes
  let staticHeaderSize ← computeStaticHeaderSize layout.numColumns
  let numSlots ← computeNumSlots staticHeaderSize tupleSize layout.numColumns
  let headerSize ← computeHeaderSize staticHeaderSize numSlots
  let offsets ← columnOffsets numSlots layout.attrSizes headerSize
  return ⟨numSlots, headerSize, offsets.zip layout.attrSizes⟩

def columnStart (numSlots offset : Nat) : Nat := padUpToSize 8 (offset + sizeInBytes numSlots)

def columnArea (numSlots : Nat) (column : Nat × Nat) : Nat × Nat :=
  (column.1, columnStart numSlots column.1 + attrSizeBytes column.2 * numSlots)

/-- The bytes of a value, as `AccessWithoutNullCheck` finds them. -/
def attributeArea (numSlots : Nat) (column : Nat × Nat) (slot : Nat) : Nat × Nat :=
  let start := columnStart numSlots column.1 + attrSizeBytes column.2 * slot
  (start, start + attrSizeBytes column.2)

def DividedBlock.areas (block : DividedBlock) : List (Nat × Nat) :=
  (0, block.headerSize) :: block.columns.map (columnArea block.numSlots)

end Terrier
