import Terrier.Storage.DataTable

/-!
`SqlTable`: the write operations as clients call them. Each write is staged in
the redo buffer of its transaction first (`StageWrite`, `StageDelete`), so a
refused write is in the buffer as well, and the transaction is marked as one
that must abort.
-/

namespace Terrier

variable {V : Type}

/-- `StageWrite` and `StageDelete`: append a log record to the redo buffer.
The second component is what the redo buffer handed to the log manager. -/
def TransactionContext.stage (cfg : Config) (txn : TransactionContext V) (record : LogRecord V) :
    TransactionContext V × List (Segment V) :=
  let (buffer, segments) := txn.redoBuffer.newEntry cfg record
  ({ txn with redoBuffer := buffer }, segments)

namespace State

def setMustAbort (σ : State V) (t : Nat) : State V :=
  match σ.txns t with
  | none => σ
  | some txn => σ.setTxn t { txn with mustAbort := true }

/-- `SqlTable::Insert`. The slot is written into the staged record after the
data table has chosen it; no other record is staged in between. -/
def sqlInsert (cfg : Config) (σ : State V) (t : Nat) (txn : TransactionContext V) (table : Nat)
    (redo : ProjectedRow V) : Option (State V × TupleSlot) :=
  match σ.allocateSlot cfg table with
  | none => none
  | some (allocated, slot) =>
    let (staged, segments) := txn.stage cfg (.redo t slot redo)
    some ((allocated.addBuffersToFlushQueue segments).insertInto t staged slot redo, slot)

def sqlUpdate (cfg : Config) (σ : State V) (t : Nat) (txn : TransactionContext V)
    (slot : TupleSlot) (redo : ProjectedRow V) : State V × Bool :=
  let (staged, segments) := txn.stage cfg (.redo t slot redo)
  let (next, result) := (σ.addBuffersToFlushQueue segments).update t staged slot redo
  (if result then next else next.setMustAbort t, result)

def sqlDelete (cfg : Config) (σ : State V) (t : Nat) (txn : TransactionContext V)
    (slot : TupleSlot) : State V × Bool :=
  let (staged, segments) := txn.stage cfg (.delete t slot)
  let (next, result) := (σ.addBuffersToFlushQueue segments).delete t staged slot
  (if result then next else next.setMustAbort t, result)

end State

end Terrier
