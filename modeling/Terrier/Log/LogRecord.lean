import Terrier.Storage.UndoRecord

/-!
Log records in memory and the redo buffer that stages them. A record that does not fit into the
segment any more pushes the segment to the log manager first. Sizes are those in memory.
-/

namespace Terrier

variable {V : Type}

def invalidTxnTimestamp : Timestamp := .txnId 0

inductive LogRecord (V : Type) where
  | redo (txnBegin : Nat) (slot : TupleSlot) (delta : ProjectedRow V)
  | delete (txnBegin : Nat) (slot : TupleSlot)
  | commit (txnBegin : Nat) (txnCommit : Nat) (oldestActive : Timestamp) (isReadOnly : Bool)
  | abort (txnBegin : Nat)

def LogRecord.txnBegin : LogRecord V → Nat
  | .redo t _ _ => t
  | .delete t _ => t
  | .commit t _ _ _ => t
  | .abort t => t

/-- What the engine is configured with. The version pointer column counts among `numColumns`.
`redoRecordSize` is `RedoRecord::Size` of a table's layout and a column list; `logging` says
whether a log manager is attached. -/
structure Config where
  numColumns : Nat → Nat
  numSlots : Nat → Nat
  numSlots_pos : ∀ table, 0 < numSlots table
  redoRecordSize : Nat → List ColId → Nat
  logging : Bool

def bufferSegmentSize : Nat := 4096

def deleteRecordSize : Nat := 32
def commitRecordSize : Nat := 72
def abortRecordSize : Nat := 32

def LogRecord.size (cfg : Config) : LogRecord V → Nat
  | .redo _ slot delta => cfg.redoRecordSize slot.table delta.columnIds
  | .delete _ _ => deleteRecordSize
  | .commit _ _ _ _ => commitRecordSize
  | .abort _ => abortRecordSize

abbrev Segment (V : Type) := List (LogRecord V)

def Segment.size (cfg : Config) (segment : Segment V) : Nat :=
  (segment.map (LogRecord.size cfg)).sum

def Segment.hasBytesLeft (cfg : Config) (segment : Segment V) (size : Nat) : Bool :=
  decide (Segment.size cfg segment + size ≤ bufferSegmentSize)

structure RedoBuffer (V : Type) where
  bufferSeg : Option (Segment V)
  hasFlushed : Bool

def RedoBuffer.empty : RedoBuffer V := ⟨none, false⟩

/-- `RedoBuffer::NewEntry` and the write into the entry it returns. The second
component is what went to the flush queue. -/
def RedoBuffer.newEntry (cfg : Config) (buffer : RedoBuffer V) (record : LogRecord V) :
    RedoBuffer V × List (Segment V) :=
  match buffer.bufferSeg with
  | none => (⟨some [record], buffer.hasFlushed⟩, [])
  | some segment =>
    if Segment.hasBytesLeft cfg segment (record.size cfg) then
      (⟨some (segment ++ [record]), buffer.hasFlushed⟩, [])
    else if cfg.logging then
      (⟨some [record], true⟩, [segment])
    else
      (⟨some [record], buffer.hasFlushed⟩, [])

def RedoBuffer.finalize (cfg : Config) (buffer : RedoBuffer V) (flushBuffer : Bool) :
    RedoBuffer V × List (Segment V) :=
  match buffer.bufferSeg with
  | none => (buffer, [])
  | some segment =>
    if cfg.logging && flushBuffer then
      ({ buffer with hasFlushed := true }, [segment])
    else
      (buffer, [])

/-- The last record of a transaction: `NewEntry` followed by `Finalize(true)`. -/
def RedoBuffer.close (cfg : Config) (buffer : RedoBuffer V) (record : LogRecord V) :
    RedoBuffer V × List (Segment V) :=
  let (entered, full) := buffer.newEntry cfg record
  let (finalized, last) := entered.finalize cfg true
  (finalized, full ++ last)

def RedoBuffer.reset (buffer : RedoBuffer V) : RedoBuffer V :=
  { buffer with bufferSeg := buffer.bufferSeg.map (fun _ => []) }

def RedoBuffer.records (buffer : RedoBuffer V) : List (LogRecord V) :=
  buffer.bufferSeg.getD []

/-- With a log manager no record is lost: what was handed over and what is in
the buffer now is what was there before, and the new record. -/
theorem RedoBuffer.newEntry_records {cfg : Config} (hlog : cfg.logging = true)
    (buffer : RedoBuffer V) (record : LogRecord V) :
    (buffer.newEntry cfg record).2.flatten ++ (buffer.newEntry cfg record).1.records =
      buffer.records ++ [record] := by
  unfold newEntry records
  cases buffer.bufferSeg with
  | none => simp
  | some segment =>
    dsimp only
    split_ifs <;> simp

theorem RedoBuffer.close_records {cfg : Config} (hlog : cfg.logging = true)
    (buffer : RedoBuffer V) (record : LogRecord V) :
    (buffer.close cfg record).2.flatten = buffer.records ++ [record] := by
  have hentered : ∃ segment, (buffer.newEntry cfg record).1.bufferSeg = some segment := by
    unfold newEntry
    cases buffer.bufferSeg with
    | none => exact ⟨_, rfl⟩
    | some segment =>
      dsimp only
      split_ifs <;> exact ⟨_, rfl⟩
  obtain ⟨segment, hsegment⟩ := hentered
  rw [← RedoBuffer.newEntry_records hlog]
  simp [close, finalize, records, hsegment, hlog]

/-- In any case a new entry adds no other record than the given one. -/
theorem RedoBuffer.newEntry_mem {cfg : Config} {buffer : RedoBuffer V} {record r : LogRecord V}
    (hr : r ∈ (buffer.newEntry cfg record).2.flatten ++ (buffer.newEntry cfg record).1.records) :
    r ∈ buffer.records ∨ r = record := by
  unfold newEntry records at *
  cases hseg : buffer.bufferSeg with
  | none => simpa [hseg] using hr
  | some segment =>
    simp only [hseg] at hr
    split_ifs at hr <;> simp at hr ⊢ <;> tauto

end Terrier
