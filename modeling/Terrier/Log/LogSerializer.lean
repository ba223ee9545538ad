import Terrier.Transaction.State

/-!
`LogSerializerTask::Process` on the level of records: the flush queue is
drained in order, read-only commit records are skipped, and transactions whose
last record has been serialized leave the set of running transactions.
-/

namespace Terrier

variable {V : Type}

/-- The records `SerializeBuffer` passes on to `SerializeRecord`. -/
def LogRecord.isSerialized : LogRecord V → Bool
  | .commit _ _ _ isReadOnly => !isReadOnly
  | .redo _ _ _ => true
  | .delete _ _ => true
  | .abort _ => true

/-- The start times `SerializeBuffer` adds to `serialized_txns_`. -/
def LogRecord.serializedTxn : LogRecord V → Option Nat
  | .commit t _ _ _ => some t
  | .abort t => some t
  | .redo _ _ _ => none
  | .delete _ _ => none

def State.process (σ : State V) : State V :=
  let records := σ.flushQueue.flatten
  { σ with
    flushQueue := []
    log := σ.log ++ records.filter LogRecord.isSerialized }.removeTransactions
      (records.filterMap LogRecord.serializedTxn)

end Terrier
