import Terrier.Log.LogRecord

/-!
The state shared by the storage engine, the transaction manager, the garbage collector and the
log serializer. Transactions are named by their start time. Undo records live on a heap; a
transaction's undo buffer lists the addresses it allocated, oldest first.
-/

namespace Terrier

variable {V : Type}

/-- `finishTime` is `txnId start` until the transaction commits or aborts. -/
structure TransactionContext (V : Type) where
  finishTime : Timestamp
  undoBuffer : List Nat
  redoBuffer : RedoBuffer V
  aborted : Bool
  mustAbort : Bool

/-- The block list of a table, reduced to the `insert_head_` of every block, and `insertion_head_`
as a position in it. There is always a block to insert into. -/
structure DataTable where
  insertHeads : List Nat
  insertionHead : Nat
  insertionHead_lt : insertionHead < insertHeads.length

structure State (V : Type) where
  time : Nat
  cachedOldestTxnStartTime : Nat
  currRunningTxns : List Nat
  txns : Nat → Option (TransactionContext V)
  undo : Nat → UndoRecord V
  nextUndo : Nat
  tables : Nat → DataTable
  tuples : TupleSlot → Tuple V
  completedTxns : List Nat
  txnsToUnlink : List Nat
  txnsToDeallocate : List Nat
  lastUnlinked : Nat
  flushQueue : List (Segment V)
  log : List (LogRecord V)

/-- A freshly started engine. `InitializeRawBlock` clears the allocation bitmap, the version
pointers and the NULL bits of the version pointer column; attributes are whatever the memory held.
-/
def State.init (junk : TupleSlot → ColId → Option V) : State V where
  time := 0
  cachedOldestTxnStartTime := 0
  currRunningTxns := []
  txns := fun _ => none
  undo := fun _ => ⟨.insert, .time 0, none, ⟨0, 0, 0⟩⟩
  nextUndo := 0
  tables := fun _ => ⟨[0], 0, by simp⟩
  tuples := fun slot => ⟨false, false, junk slot, []⟩
  completedTxns := []
  txnsToUnlink := []
  txnsToDeallocate := []
  lastUnlinked := 0
  flushQueue := []
  log := []

namespace State

def setTxn (σ : State V) (t : Nat) (txn : TransactionContext V) : State V :=
  { σ with txns := Function.update σ.txns t (some txn) }

def setTuple (σ : State V) (slot : TupleSlot) (tuple : Tuple V) : State V :=
  { σ with tuples := Function.update σ.tuples slot tuple }

/-- `TimestampManager::CheckOutTimestamp`; the handed out value is `σ.time`. -/
def checkOutTimestamp (σ : State V) : State V :=
  { σ with time := σ.time + 1 }

def oldestTransactionStartTime (σ : State V) : Nat :=
  σ.currRunningTxns.min?.getD σ.time

def removeTransactions (σ : State V) (starts : List Nat) : State V :=
  { σ with currRunningTxns := σ.currRunningTxns.filter (fun r => decide (r ∉ starts)) }

/-- Reserve an undo record in the buffer of `t`; its address is `σ.nextUndo`. -/
def newUndo (σ : State V) (t : Nat) (txn : TransactionContext V) (record : UndoRecord V) :
    State V :=
  { σ with
    undo := Function.update σ.undo σ.nextUndo record
    nextUndo := σ.nextUndo + 1
    txns := Function.update σ.txns t
      (some { txn with undoBuffer := txn.undoBuffer ++ [σ.nextUndo] }) }

def storeTimestamp (σ : State V) (timestamp : Timestamp) (a : Nat) : State V :=
  { σ with undo := Function.update σ.undo a { σ.undo a with timestamp := timestamp } }

def storeTimestamps (σ : State V) (timestamp : Timestamp) (buffer : List Nat) : State V :=
  buffer.foldl (fun σ a => σ.storeTimestamp timestamp a) σ

def addBuffersToFlushQueue (σ : State V) (segments : List (Segment V)) : State V :=
  { σ with flushQueue := σ.flushQueue ++ segments }

/-- The context of a transaction that has neither committed nor aborted. -/
def activeTxn (σ : State V) (t : Nat) : Option (TransactionContext V) :=
  (σ.txns t).filter (fun txn => decide (txn.finishTime = .txnId t))

theorem activeTxn_eq_some_iff {σ : State V} {t : Nat} {txn : TransactionContext V} :
    σ.activeTxn t = some txn ↔ σ.txns t = some txn ∧ txn.finishTime = .txnId t := by
  simp [activeTxn, Option.filter_eq_some_iff]

theorem activeTxn_eq_none_iff {σ : State V} {t : Nat} :
    σ.activeTxn t = none ↔ ∀ txn, σ.txns t = some txn → txn.finishTime ≠ .txnId t := by
  simp [activeTxn, Option.filter_eq_none_iff]

theorem update_eq_some {α β : Type} [DecidableEq α] {f : α → Option β} {a c : α} {b d : β}
    (h : Function.update f a (some b) c = some d) : c = a ∧ b = d ∨ c ≠ a ∧ f c = some d := by
  rw [Function.update_apply] at h
  split_ifs at h with hc
  · exact .inl ⟨hc, Option.some.inj h⟩
  · exact .inr ⟨hc, h⟩

theorem activeTxn_update {σ σ' : State V} {t u : Nat} {next y : TransactionContext V}
    (htxns : σ'.txns = Function.update σ.txns t (some next)) (hu : σ'.activeTxn u = some y) :
    u = t ∧ next = y ∨ u ≠ t ∧ σ.activeTxn u = some y := by
  obtain ⟨hu, hid⟩ := activeTxn_eq_some_iff.mp hu
  rw [htxns] at hu
  obtain hnew | ⟨hne, hold⟩ := update_eq_some hu
  · exact .inl hnew
  · exact .inr ⟨hne, activeTxn_eq_some_iff.mpr ⟨hold, hid⟩⟩

/-- The loop of stores touches exactly the records of the buffer. -/
theorem storeTimestamps_eq (σ : State V) (timestamp : Timestamp) (buffer : List Nat) :
    σ.storeTimestamps timestamp buffer =
      { σ with undo := fun a =>
          if a ∈ buffer then { σ.undo a with timestamp := timestamp } else σ.undo a } := by
  induction buffer generalizing σ with
  | nil => simp [storeTimestamps]
  | cons b buffer ih =>
    have hstep : σ.storeTimestamps timestamp (b :: buffer) =
        (σ.storeTimestamp timestamp b).storeTimestamps timestamp buffer := rfl
    rw [hstep, ih]
    simp only [storeTimestamp]
    congr 1
    funext a
    by_cases hab : a = b
    · subst hab
      simp
    · simp [hab]

theorem oldestTransactionStartTime_le {σ : State V} {r : Nat} (hr : r ∈ σ.currRunningTxns) :
    σ.oldestTransactionStartTime ≤ r := by
  unfold oldestTransactionStartTime
  cases hmin : σ.currRunningTxns.min? with
  | none =>
    rw [List.min?_eq_none_iff] at hmin
    simp [hmin] at hr
  | some m => exact (List.min?_eq_some_iff.mp hmin).2 r hr

theorem oldestTransactionStartTime_cases (σ : State V) : σ.oldestTransactionStartTime = σ.time ∨
      σ.oldestTransactionStartTime ∈ σ.currRunningTxns := by
  unfold oldestTransactionStartTime
  cases hmin : σ.currRunningTxns.min? with
  | none => exact .inl rfl
  | some m => exact .inr (List.min?_eq_some_iff.mp hmin).1

end State

end Terrier
