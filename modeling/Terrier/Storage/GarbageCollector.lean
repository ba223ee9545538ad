import Terrier.Transaction.TransactionManager

/-!
`GarbageCollector`: unlink the undo records no running transaction can need,
and deallocate them once every transaction that might still hold a pointer to
them has finished.
-/

namespace Terrier

variable {V : Type}

structure UnlinkPass where
  visitedSlots : List TupleSlot
  requeue : List Nat
  txnsProcessed : Nat

def UnlinkPass.start : UnlinkPass := ⟨[], [], 0⟩

namespace State

def stillNeeded (σ : State V) (oldest : Nat) (a : Nat) : Bool :=
  !(Timestamp.time oldest).newerThan (σ.undo a).timestamp

/-- `TruncateVersionChain`: cut the chain at the first record older than
`oldest`, which may be the head. -/
def truncateVersionChain (σ : State V) (slot : TupleSlot) (oldest : Nat) : State V :=
  let tuple := σ.tuples slot
  σ.setTuple slot { tuple with chain := tuple.chain.takeWhile (σ.stillNeeded oldest) }

def reclaimSlotIfDeleted (σ : State V) (record : UndoRecord V) : State V :=
  match record.delta with
  | .delete => σ.setTuple record.slot { σ.tuples record.slot with allocated := false }
  | .update _ => σ
  | .insert => σ

/-- Truncate the chain of an installed record unless this pass has been there. -/
def truncateOnce (oldest : Nat) (s : State V × List TupleSlot) (record : UndoRecord V) :
    State V × List TupleSlot :=
  if record.table.isSome && decide (record.slot ∉ s.2) then
    (s.1.truncateVersionChain record.slot oldest, record.slot :: s.2)
  else
    s

def unlinkRecord (oldest : Nat) (aborted : Bool) (s : State V × List TupleSlot) (a : Nat) :
    State V × List TupleSlot :=
  let record := s.1.undo a
  let (σ, visitedSlots) := truncateOnce oldest s record
  (if aborted then σ else σ.reclaimSlotIfDeleted record, visitedSlots)

def deleteTxn (σ : State V) (t : Nat) : State V :=
  { σ with txns := Function.update σ.txns t none }

def pushDeallocate (σ : State V) (t : Nat) : State V :=
  { σ with txnsToDeallocate := t :: σ.txnsToDeallocate }

/-- The body of the loop of `ProcessUnlinkQueue` for a transaction that was
just popped. Read-only transactions are deleted on the spot. -/
def unlinkTxn (oldest : Nat) (s : State V × UnlinkPass) (t : Nat) : State V × UnlinkPass :=
  let (σ, pass) := s
  match σ.txns t with
  | none => s
  | some txn =>
    if txn.isReadOnly then
      (σ.deleteTxn t, { pass with txnsProcessed := pass.txnsProcessed + 1 })
    else if (Timestamp.time oldest).newerThan txn.finishTime then
      let (unlinked, visitedSlots) :=
        txn.undoBuffer.foldl (unlinkRecord oldest txn.aborted) (σ, pass.visitedSlots)
      (unlinked.pushDeallocate t,
        { pass with visitedSlots := visitedSlots, txnsProcessed := pass.txnsProcessed + 1 })
    else
      (σ, { pass with requeue := t :: pass.requeue })

def spliceCompleted (σ : State V) : State V :=
  { σ with completedTxns := [], txnsToUnlink := σ.completedTxns ++ σ.txnsToUnlink }

/-- The loop of `ProcessUnlinkQueue`: pop a transaction, process it, go on. -/
def unlinkLoop (oldest : Nat) : List Nat → State V × UnlinkPass → State V × UnlinkPass
  | [], s => s
  | t :: queue, (σ, pass) =>
    unlinkLoop oldest queue (unlinkTxn oldest ({ σ with txnsToUnlink := queue }, pass) t)

def processUnlinkQueue (σ : State V) (oldest : Nat) : State V × Nat :=
  let spliced := σ.spliceCompleted
  let (unlinked, pass) := unlinkLoop oldest spliced.txnsToUnlink (spliced, UnlinkPass.start)
  ({ unlinked with txnsToUnlink := pass.requeue }, pass.txnsProcessed)

def processDeallocateQueue (σ : State V) (oldest : Nat) : State V :=
  if (Timestamp.time oldest).newerThan (.time σ.lastUnlinked) then
    { σ with
      txns := fun t => if t ∈ σ.txnsToDeallocate then none else σ.txns t
      txnsToDeallocate := [] }
  else
    σ

def cacheOldest (σ : State V) : State V :=
  { σ with cachedOldestTxnStartTime := σ.oldestTransactionStartTime }

/-- The last step of a pass: remember when the pass had unlinked its last
record. -/
def markUnlinked (σ : State V) : State V :=
  { σ.checkOutTimestamp with lastUnlinked := σ.time }

/-- `PerformGarbageCollection`, without deferred actions and indexes. -/
def performGarbageCollection (σ : State V) : State V :=
  let cached := σ.checkOutTimestamp.cacheOldest
  let oldest := cached.cachedOldestTxnStartTime
  let (unlinked, txnsUnlinked) :=
    (cached.processDeallocateQueue oldest).processUnlinkQueue oldest
  if 0 < txnsUnlinked then unlinked.markUnlinked else unlinked

end State

end Terrier
