import Terrier.Storage.SqlTable

/-!
`TransactionManager`: begin, commit and abort. Commit stores its timestamp in all undo records
inside one critical section. Abort restores the tuples first and then publishes an abort
timestamp, one record after another, here run to its end.
-/

namespace Terrier

variable {V : Type}

def TransactionContext.isReadOnly (txn : TransactionContext V) : Bool :=
  txn.undoBuffer.isEmpty

namespace State

/-- `TransactionManager::BeginTransaction`; the new transaction is `σ.time`. -/
def beginTransaction (σ : State V) : State V :=
  { σ with
    time := σ.time + 1
    currRunningTxns := σ.time :: σ.currRunningTxns
    txns := Function.update σ.txns σ.time
      (some ⟨.txnId σ.time, [], RedoBuffer.empty, false, false⟩) }

def updatingCommitCriticalSection (σ : State V) (txn : TransactionContext V) : State V :=
  σ.checkOutTimestamp.storeTimestamps (.time σ.time) txn.undoBuffer

def logCommit (cfg : Config) (σ : State V) (t : Nat) (txn : TransactionContext V)
    (commitTime : Nat) (oldestActiveTxn : Timestamp) : State V :=
  if cfg.logging then
    let (buffer, segments) :=
      txn.redoBuffer.close cfg (.commit t commitTime oldestActiveTxn txn.isReadOnly)
    (σ.setTxn t { txn with redoBuffer := buffer }).addBuffersToFlushQueue segments
  else
    (σ.setTxn t { txn with redoBuffer := (txn.redoBuffer.finalize cfg true).1 }).removeTransactions
      [t]

def pushCompleted (σ : State V) (t : Nat) : State V :=
  { σ with completedTxns := t :: σ.completedTxns }

def commit (cfg : Config) (σ : State V) (t : Nat) (txn : TransactionContext V) : State V :=
  let commitTime := σ.time
  let flipped :=
    if txn.isReadOnly then σ.checkOutTimestamp else σ.updatingCommitCriticalSection txn
  let oldestActiveTxn :=
    if cfg.logging && !txn.isReadOnly then .time σ.cachedOldestTxnStartTime
    else invalidTxnTimestamp
  (flipped.logCommit cfg t { txn with finishTime := .time commitTime } commitTime
    oldestActiveTxn).pushCompleted t

/-- The loop of `Rollback` down the version chain of a slot. -/
def rollbackChain (σ : State V) (finishTime : Timestamp) : List Nat → Tuple V → Tuple V
  | [], tuple => tuple
  | a :: chain, tuple =>
    if (σ.undo a).timestamp = finishTime then
      rollbackChain σ finishTime chain ((σ.undo a).delta.rollback tuple)
    else
      tuple

def rollback (σ : State V) (finishTime : Timestamp) (record : UndoRecord V) : State V :=
  match record.table with
  | none => σ
  | some _ =>
    let tuple := σ.tuples record.slot
    σ.setTuple record.slot (σ.rollbackChain finishTime tuple.chain tuple)

/-- One iteration of the rollback loop of `Abort`. -/
def rollbackRecord (finishTime : Timestamp) (s : State V × List TupleSlot) (a : Nat) :
    State V × List TupleSlot :=
  let record := s.1.undo a
  if record.slot ∈ s.2 then s
  else (s.1.rollback finishTime record, record.slot :: s.2)

/-- The rollback loop of `Abort` over the undo buffer. -/
def rollbackRecords (σ : State V) (finishTime : Timestamp) (buffer : List Nat) : State V :=
  (buffer.foldl (rollbackRecord finishTime) (σ, [])).1

def logAbort (cfg : Config) (σ : State V) (t : Nat) (txn : TransactionContext V) : State V :=
  if cfg.logging && txn.redoBuffer.hasFlushed then
    let (buffer, segments) := txn.redoBuffer.reset.close cfg (.abort t)
    (σ.setTxn t { txn with redoBuffer := buffer }).addBuffersToFlushQueue segments
  else
    (σ.setTxn t { txn with redoBuffer := (txn.redoBuffer.finalize cfg false).1 }).removeTransactions
      [t]

def abort (cfg : Config) (σ : State V) (t : Nat) (txn : TransactionContext V) : State V :=
  let restored := σ.rollbackRecords txn.finishTime txn.undoBuffer
  let abortTime := restored.time
  let published := restored.checkOutTimestamp.storeTimestamps (.time abortTime) txn.undoBuffer
  (published.logAbort cfg t
    { txn with finishTime := .time abortTime, aborted := true }).pushCompleted
    t

/-- What commit and abort have in common: the time `σ.time` is checked out and
stored in every undo record, and the context, replaced by `done`, goes to the
garbage collector. -/
def finished (σ : State V) (t : Nat) (txn done : TransactionContext V) : State V :=
  ((σ.checkOutTimestamp.storeTimestamps (.time σ.time) txn.undoBuffer).setTxn t done).pushCompleted
    t

section Finished

variable (σ : State V) (t : Nat) (txn done : TransactionContext V)

theorem undo_finished (a : Nat) : (σ.finished t txn done).undo a =
    if a ∈ txn.undoBuffer then { σ.undo a with timestamp := .time σ.time } else σ.undo a := by
  simp [finished, storeTimestamps_eq, setTxn, pushCompleted, checkOutTimestamp]

@[simp] theorem undo_finished_delta (a : Nat) :
    ((σ.finished t txn done).undo a).delta = (σ.undo a).delta := by
  rw [undo_finished]
  split_ifs <;> rfl

@[simp] theorem undo_finished_slot (a : Nat) :
    ((σ.finished t txn done).undo a).slot = (σ.undo a).slot := by
  rw [undo_finished]
  split_ifs <;> rfl

@[simp] theorem undo_finished_table (a : Nat) :
    ((σ.finished t txn done).undo a).table = (σ.undo a).table := by
  rw [undo_finished]
  split_ifs <;> rfl

@[simp] theorem txns_finished :
    (σ.finished t txn done).txns = Function.update σ.txns t (some done) := by
  simp [finished, storeTimestamps_eq, setTxn, pushCompleted, checkOutTimestamp]

@[simp] theorem tuples_finished : (σ.finished t txn done).tuples = σ.tuples := by
  simp [finished, storeTimestamps_eq, setTxn, pushCompleted, checkOutTimestamp]

@[simp] theorem time_finished : (σ.finished t txn done).time = σ.time + 1 := by
  simp [finished, storeTimestamps_eq, setTxn, pushCompleted, checkOutTimestamp]

@[simp] theorem cachedOldestTxnStartTime_finished :
    (σ.finished t txn done).cachedOldestTxnStartTime = σ.cachedOldestTxnStartTime := by
  simp [finished, storeTimestamps_eq, setTxn, pushCompleted, checkOutTimestamp]

end Finished

def commitRecord (cfg : Config) (σ : State V) (t : Nat) (txn : TransactionContext V) :
    LogRecord V :=
  .commit t σ.time (if cfg.logging && !txn.isReadOnly then .time σ.cachedOldestTxnStartTime
      else invalidTxnTimestamp)
    txn.isReadOnly

theorem flipped_eq (σ : State V) (txn : TransactionContext V) :
    (if txn.isReadOnly then σ.checkOutTimestamp else σ.updatingCommitCriticalSection txn) =
      σ.checkOutTimestamp.storeTimestamps (.time σ.time) txn.undoBuffer := by
  split_ifs with hro
  · rw [List.isEmpty_iff.mp hro]
    rfl
  · rfl

variable {cfg : Config} {σ : State V} {a : Nat} {slot : TupleSlot}

theorem commit_of_logging (hlog : cfg.logging = true) (σ : State V) (t : Nat)
    (txn : TransactionContext V) : σ.commit cfg t txn =
      (σ.finished t txn { txn with
        finishTime := .time σ.time
        redoBuffer :=
          (txn.redoBuffer.close cfg (σ.commitRecord cfg t txn)).1 }).addBuffersToFlushQueue
        (txn.redoBuffer.close cfg (σ.commitRecord cfg t txn)).2 := by
  simp only [commit, flipped_eq, logCommit, hlog, if_true]
  simp only [commitRecord, hlog]
  rfl

theorem commit_of_not_logging (hlog : cfg.logging = false) (σ : State V) (t : Nat)
    (txn : TransactionContext V) : σ.commit cfg t txn =
      (σ.finished t txn { txn with
        finishTime := .time σ.time
        redoBuffer := (txn.redoBuffer.finalize cfg true).1 }).removeTransactions [t] := by
  simp only [commit, flipped_eq, logCommit, hlog]
  rfl

/-- Abort rolls back the slots whose first record in the buffer was installed.
A slot that a refused write comes first for is skipped. -/
def rollsBack (σ : State V) (buffer : List Nat) (slot : TupleSlot) : Bool :=
  ((buffer.find? (fun a => decide ((σ.undo a).slot = slot))).map
    (fun a => (σ.undo a).table.isSome)).getD false

def rolledBack (σ : State V) (finishTime : Timestamp) (slot : TupleSlot) : Tuple V :=
  σ.rollbackChain finishTime (σ.tuples slot).chain (σ.tuples slot)

theorem rollsBack_cons_self (hslot : (σ.undo a).slot = slot) (buffer : List Nat) :
    σ.rollsBack (a :: buffer) slot = (σ.undo a).table.isSome := by
  simp [rollsBack, hslot]

theorem rollsBack_cons_ne (hslot : (σ.undo a).slot ≠ slot) (buffer : List Nat) :
    σ.rollsBack (a :: buffer) slot = σ.rollsBack buffer slot := by
  simp [rollsBack, hslot]

theorem rollbackChain_congr {σ' : State V} (hundo : σ'.undo = σ.undo) (finishTime : Timestamp)
    (chain : List Nat) (tuple : Tuple V) :
    σ'.rollbackChain finishTime chain tuple = σ.rollbackChain finishTime chain tuple := by
  induction chain generalizing tuple with
  | nil => rfl
  | cons a chain ih => simp only [rollbackChain, hundo, ih]

/-- The tuples after the rollback loop, when `visited` was done before. -/
private theorem rollbackRecords_fold (finishTime : Timestamp) (buffer : List Nat) (σ : State V)
    (visited : List TupleSlot) :
    (buffer.foldl (rollbackRecord finishTime) (σ, visited)).1 =
      { σ with tuples := fun slot =>
          if slot ∉ visited ∧ σ.rollsBack buffer slot = true then σ.rolledBack finishTime slot
          else σ.tuples slot } := by
  induction buffer generalizing σ visited with
  | nil => simp [rollsBack]
  | cons a buffer ih =>
    rw [List.foldl_cons]
    by_cases hvis : (σ.undo a).slot ∈ visited
    · have hstep : rollbackRecord finishTime (σ, visited) a = (σ, visited) := by
        simp [rollbackRecord, hvis]
      rw [hstep, ih]
      congr 1
      funext slot
      by_cases hslot : (σ.undo a).slot = slot
      · simp [← hslot, hvis]
      · rw [rollsBack_cons_ne hslot]
    · have hstep : rollbackRecord finishTime (σ, visited) a =
          (σ.rollback finishTime (σ.undo a), (σ.undo a).slot :: visited) := by
        simp [rollbackRecord, hvis]
      rw [hstep, ih]
      unfold rollback
      cases htable : (σ.undo a).table with
      | none =>
        congr 1
        funext slot
        by_cases hslot : (σ.undo a).slot = slot
        · simp [rollsBack_cons_self hslot, htable, hslot]
        · simp [rollsBack_cons_ne hslot, Ne.symm hslot]
      | some table =>
        simp only [setTuple]
        congr 1
        funext slot
        by_cases hslot : (σ.undo a).slot = slot
        · subst hslot
          simp [rollsBack_cons_self rfl, htable, hvis, rolledBack]
        · have hne : slot ≠ (σ.undo a).slot := Ne.symm hslot
          rw [rollsBack_cons_ne hslot, Function.update_of_ne hne]
          refine if_congr ?_ ?_ rfl
          · simp only [List.mem_cons, hne, false_or]
            exact Iff.rfl
          · simp only [rolledBack, Function.update_of_ne hne]
            apply rollbackChain_congr
            rfl

theorem rollbackRecords_eq (σ : State V) (finishTime : Timestamp) (buffer : List Nat) :
    σ.rollbackRecords finishTime buffer =
      { σ with tuples := fun slot =>
          if σ.rollsBack buffer slot = true then σ.rolledBack finishTime slot
          else σ.tuples slot } := by
  unfold rollbackRecords
  rw [rollbackRecords_fold]
  simp

theorem abort_of_flushed (σ : State V) (t : Nat) (txn : TransactionContext V)
    (hflush : (cfg.logging && txn.redoBuffer.hasFlushed) = true) : σ.abort cfg t txn =
      ((σ.rollbackRecords txn.finishTime txn.undoBuffer).finished t txn { txn with
        finishTime := .time σ.time
        aborted := true
        redoBuffer := (txn.redoBuffer.reset.close cfg (.abort t)).1 }).addBuffersToFlushQueue
        (txn.redoBuffer.reset.close cfg (.abort t)).2 := by
  rw [rollbackRecords_eq]
  simp only [abort, logAbort, hflush, if_true]
  rw [rollbackRecords_eq]
  rfl

theorem abort_of_not_flushed (σ : State V) (t : Nat) (txn : TransactionContext V)
    (hflush : (cfg.logging && txn.redoBuffer.hasFlushed) = false) : σ.abort cfg t txn =
      ((σ.rollbackRecords txn.finishTime txn.undoBuffer).finished t txn { txn with
        finishTime := .time σ.time
        aborted := true
        redoBuffer := (txn.redoBuffer.finalize cfg false).1 }).removeTransactions [t] := by
  rw [rollbackRecords_eq]
  simp only [abort, logAbort, hflush]
  rw [rollbackRecords_eq]
  rfl

end State

end Terrier
