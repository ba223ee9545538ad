import Terrier.Log.BlockLayout
import Terrier.Log.LogRecord

/-!
The buffers for log and undo records, as the number of bytes that are taken in each segment. What
the redo buffer does with a full segment is left out.
-/

namespace Terrier

def hasBytesLeft (taken size : Nat) : Bool := (taken + size) % 2 ^ 32 ≤ bufferSegmentSize

def undoNewEntry (size : Nat) : List Nat → List Nat
  | [] => [size]
  | taken :: buffers =>
    if hasBytesLeft taken size then (taken + size) :: buffers else size :: taken :: buffers

def redoNewEntry (size : Nat) : Option Nat → Nat
  | none => size
  | some taken => if hasBytesLeft taken size then taken + size else size

def projectedSizes (layout : BlockLayout) (cols : ProjectionList) : List Nat :=
  cols.columnIds.map layout.attrSize

/-- `RedoRecord::Size`, with 16 bytes of `LogRecord` and 16 of `RedoRecord`. -/
def redoRecordSize (layout : BlockLayout) (cols : ProjectionList) : Nat :=
  16 + 16 + projectedRowSize (projectedSizes layout cols)

/-- `UndoRecord::Size`: type, next record, timestamp, table and slot take 8 bytes each. -/
def undoRecordSize (layout : BlockLayout) (cols : ProjectionList) : Nat :=
  40 + projectedRowSize (projectedSizes layout cols)

end Terrier
