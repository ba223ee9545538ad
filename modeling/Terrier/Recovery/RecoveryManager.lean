import Terrier.System

/-!
`RecoveryManager`: a fresh engine is filled from the records of a log. A commit defers its
transaction, and deferred transactions are replayed by start time once the oldest active
transaction of a later commit has passed them. Catalog tables and indexes are not part of this
model.
-/

namespace Terrier

variable {V : Type}

/-- The tables that recovery fills. `history` lists what their engine did; the
source keeps no such list. -/
structure Recovered (V : Type) where
  tupleSlotMap : TupleSlot → Option TupleSlot
  engine : State V
  history : List (Event V)

namespace Recovered

def init (junk : TupleSlot → ColId → Option V) : Recovered V :=
  ⟨fun _ => none, State.init junk, []⟩

def call (cfg : Config) (d : Recovered V) (a : Action V) : Option (Recovered V × Event V) :=
  match step cfg d.engine a with
  | none => none
  | some (next, e) => some ({ d with engine := next, history := d.history ++ [e] }, e)

def setMapping (d : Recovered V) (slot : TupleSlot) (new : Option TupleSlot) : Recovered V :=
  { d with tupleSlotMap := Function.update d.tupleSlotMap slot new }

/-- `RecoveryManager::ReplayRedoRecord` for the replaying transaction `r`. The
result of an update is only asserted on. -/
def replayRedoRecord (cfg : Config) (r : Nat) (d : Recovered V) (slot : TupleSlot)
    (delta : ProjectedRow V) : Option (Recovered V) :=
  match d.tupleSlotMap slot with
  | none =>
    match d.call cfg (.insert r slot.table delta) with
    | some (next, .write _ new _ _) => some (next.setMapping slot (some new))
    | _ => none
  | some new =>
    match d.call cfg (.update r new delta) with
    | some (next, _) => some next
    | none => none

/-- `RecoveryManager::ReplayDeleteRecord`. A slot without a mapping breaks the
assertion of `GetTupleSlotMapping`. -/
def replayDeleteRecord (cfg : Config) (r : Nat) (d : Recovered V) (slot : TupleSlot) :
    Option (Recovered V) :=
  match d.tupleSlotMap slot with
  | none => none
  | some new =>
    match d.call cfg (.delete r new) with
    | some (next, _) => some (next.setMapping slot none)
    | none => none

/-- The body of the loop of `ProcessCommittedTransaction`. Only changes are
ever buffered. -/
def replayRecord (cfg : Config) (r : Nat) (d : Recovered V) : LogRecord V → Option (Recovered V)
  | .redo _ slot delta => d.replayRedoRecord cfg r slot delta
  | .delete _ slot => d.replayDeleteRecord cfg r slot
  | .commit _ _ _ _ => none
  | .abort _ => none

def replayTransaction (cfg : Config) (d : Recovered V) (changes : List (LogRecord V)) :
    Option (Recovered V) :=
  match d.call cfg .begin with
  | none => none
  | some (begun, _) =>
    match changes.foldlM (replayRecord cfg d.engine.time) begun with
    | none => none
    | some replayed => (replayed.call cfg (.commit d.engine.time)).map Prod.fst

end Recovered

/-- `replayed` lists the calls of `ProcessCommittedTransaction`, each with the
changes it found; the source only counts them in `recovered_txns_`. -/
structure RecoveryManager (V : Type) where
  bufferedChangesMap : Nat → List (LogRecord V)
  deferredTxns : List Nat
  recovered : Recovered V
  replayed : List (Nat × List (LogRecord V))

def setInsert (t : Nat) (ts : List Nat) : List Nat :=
  if t ∈ ts then ts else ts.orderedInsert (· ≤ ·) t

namespace RecoveryManager

def init (junk : TupleSlot → ColId → Option V) : RecoveryManager V :=
  ⟨fun _ => [], [], Recovered.init junk, []⟩

def processCommittedTransaction (cfg : Config) (m : RecoveryManager V) (t : Nat) :
    Option (RecoveryManager V) :=
  match m.recovered.replayTransaction cfg (m.bufferedChangesMap t) with
  | none => none
  | some recovered => some
      { m with
        bufferedChangesMap := Function.update m.bufferedChangesMap t []
        recovered := recovered
        replayed := m.replayed ++ [(t, m.bufferedChangesMap t)] }

/-- Whether a deferred transaction lies before `deferred_txns_.upper_bound`.
`INVALID_TXN_TIMESTAMP` is replaced by a bound above every start time, which
is where its word lies as well. -/
def isReady (upperBound : Timestamp) (t : Nat) : Bool :=
  !(Timestamp.time t).newerThan upperBound

def processDeferredTransactions (cfg : Config) (m : RecoveryManager V)
    (upperBound : Timestamp) : Option (RecoveryManager V) :=
  match (m.deferredTxns.takeWhile (isReady upperBound)).foldlM
      (processCommittedTransaction cfg) m with
  | none => none
  | some processed => some
      { processed with deferredTxns := m.deferredTxns.dropWhile (isReady upperBound) }

def bufferChange (m : RecoveryManager V) (t : Nat) (record : LogRecord V) : RecoveryManager V :=
  { m with
    bufferedChangesMap :=
      Function.update m.bufferedChangesMap t (m.bufferedChangesMap t ++ [record]) }

def recoverRecord (cfg : Config) (m : RecoveryManager V) (record : LogRecord V) :
    Option (RecoveryManager V) :=
  match record with
  | .abort t => some { m with bufferedChangesMap := Function.update m.bufferedChangesMap t [] }
  | .commit t _ oldestActive _ =>
    processDeferredTransactions cfg { m with deferredTxns := setInsert t m.deferredTxns }
      oldestActive
  | .redo t _ _ => some (m.bufferChange t record)
  | .delete t _ => some (m.bufferChange t record)

/-- `RecoveryManager::RecoverFromLogs`. Changes that are still buffered at the
end belong to transactions that were running when the log ends. -/
def recoverFromLogs (cfg : Config) (m : RecoveryManager V) (log : List (LogRecord V)) :
    Option (RecoveryManager V) :=
  match log.foldlM (recoverRecord cfg) m with
  | none => none
  | some scanned =>
    (scanned.processDeferredTransactions cfg invalidTxnTimestamp).map
      (fun m => { m with bufferedChangesMap := fun _ => [] })

end RecoveryManager

end Terrier
