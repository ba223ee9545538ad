import Terrier.Storage.GarbageCollector

/-!
A garbage collection pass in small steps, while transactions begin, write, commit and abort.
`Collector` is the point the pass has reached together with its local variables. Run without
interruption from `idle` to `idle` the steps are `performGarbageCollection`.
-/

namespace Terrier

variable {V : Type}

inductive Collector where
  | idle
  | readHorizon
  | deallocate (oldest : Nat)
  | splice (oldest : Nat)
  | unlink (oldest : Nat) (pass : UnlinkPass)
  | records (oldest : Nat) (pass : UnlinkPass) (t : Nat) (aborted : Bool) (rest : List Nat)
  | mark (txnsUnlinked : Nat)

def Collector.pending : Collector → List Nat
  | .unlink _ pass => pass.requeue
  | .records _ pass t _ _ => t :: pass.requeue
  | .idle => []
  | .readHorizon => []
  | .deallocate _ => []
  | .splice _ => []
  | .mark _ => []

/-- Pop a transaction: delete it, start unlinking its records, or keep it for
the next pass. -/
def popTxn (oldest : Nat) (pass : UnlinkPass) (t : Nat) (σ : State V) : State V × Collector :=
  match σ.txns t with
  | none => (σ, .unlink oldest pass)
  | some txn =>
    if txn.isReadOnly then
      (σ.deleteTxn t, .unlink oldest { pass with txnsProcessed := pass.txnsProcessed + 1 })
    else if (Timestamp.time oldest).newerThan txn.finishTime then
      (σ, .records oldest pass t txn.aborted txn.undoBuffer)
    else
      (σ, .unlink oldest { pass with requeue := t :: pass.requeue })

def collectStep (σ : State V) : Collector → State V × Collector
  | .idle => (σ.checkOutTimestamp, .readHorizon)
  | .readHorizon => (σ.cacheOldest, .deallocate σ.oldestTransactionStartTime)
  | .deallocate oldest => (σ.processDeallocateQueue oldest, .splice oldest)
  | .splice oldest => (σ.spliceCompleted, .unlink oldest UnlinkPass.start)
  | .unlink oldest pass =>
    match σ.txnsToUnlink with
    | [] => ({ σ with txnsToUnlink := pass.requeue }, .mark pass.txnsProcessed)
    | t :: queue => popTxn oldest pass t { σ with txnsToUnlink := queue }
  | .records oldest pass t _ [] =>
    (σ.pushDeallocate t, .unlink oldest { pass with txnsProcessed := pass.txnsProcessed + 1 })
  | .records oldest pass t aborted (a :: rest) =>
    let (next, visitedSlots) := State.unlinkRecord oldest aborted (σ, pass.visitedSlots) a
    (next, .records oldest { pass with visitedSlots := visitedSlots } t aborted rest)
  | .mark txnsUnlinked => (if 0 < txnsUnlinked then σ.markUnlinked else σ, .idle)

inductive Collects : State V × Collector → State V × Collector → Prop where
  | refl (s : State V × Collector) : Collects s s
  | head {s s' : State V × Collector} (hrest : Collects (collectStep s.1 s.2) s') : Collects s s'

namespace Collects

theorem trans {s s' s'' : State V × Collector} (h : Collects s s') (h' : Collects s' s'') :
    Collects s s'' := by
  induction h with
  | refl => exact h'
  | head _ ih => exact .head (ih h')

theorem one (s : State V × Collector) : Collects s (collectStep s.1 s.2) :=
  .head (.refl _)

theorem invariant {I : State V → Collector → Prop}
    (hkeep : ∀ σ pc, I σ pc → I (collectStep σ pc).1 (collectStep σ pc).2)
    {s s' : State V × Collector} (h : Collects s s') (hbase : I s.1 s.2) : I s'.1 s'.2 := by
  induction h with
  | refl => exact hbase
  | head _ ih => exact ih (hkeep _ _ hbase)

variable (oldest : Nat)

theorem records (t : Nat) (aborted : Bool) (buffer : List Nat) (σ : State V) (pass : UnlinkPass) :
    Collects (σ, .records oldest pass t aborted buffer)
      ((buffer.foldl (State.unlinkRecord oldest aborted) (σ, pass.visitedSlots)).1,
        .records oldest { pass with
          visitedSlots :=
            (buffer.foldl (State.unlinkRecord oldest aborted) (σ, pass.visitedSlots)).2 }
          t aborted []) := by
  induction buffer generalizing σ pass with
  | nil => exact .refl _
  | cons a buffer ih =>
    refine .head ?_
    exact ih (State.unlinkRecord oldest aborted (σ, pass.visitedSlots) a).1
      { pass with
        visitedSlots := (State.unlinkRecord oldest aborted (σ, pass.visitedSlots) a).2 }

/-- Truncating and reclaiming do not touch the queue that is being emptied. -/
private theorem unlinkRecord_txnsToUnlink (aborted : Bool) (s : State V × List TupleSlot)
    (a : Nat) : (State.unlinkRecord oldest aborted s a).1.txnsToUnlink = s.1.txnsToUnlink := by
  simp only [State.unlinkRecord, State.truncateOnce, State.reclaimSlotIfDeleted]
  split_ifs <;> (try split) <;> rfl

private theorem unlinkRecords_txnsToUnlink (aborted : Bool) (buffer : List Nat)
    (s : State V × List TupleSlot) :
    (buffer.foldl (State.unlinkRecord oldest aborted) s).1.txnsToUnlink = s.1.txnsToUnlink := by
  induction buffer generalizing s with
  | nil => rfl
  | cons a buffer ih =>
    rw [List.foldl_cons, ih, unlinkRecord_txnsToUnlink]

theorem unlinkTxn (pass : UnlinkPass) (t : Nat) (queue : List Nat) (σ : State V)
    (hqueue : σ.txnsToUnlink = t :: queue) : Collects (σ, .unlink oldest pass)
      ((State.unlinkTxn oldest ({ σ with txnsToUnlink := queue }, pass) t).1,
        .unlink oldest (State.unlinkTxn oldest ({ σ with txnsToUnlink := queue }, pass) t).2) ∧
    (State.unlinkTxn oldest ({ σ with txnsToUnlink := queue }, pass) t).1.txnsToUnlink = queue := by
  have hstep : collectStep σ (.unlink oldest pass) =
      popTxn oldest pass t { σ with txnsToUnlink := queue } := by
    simp only [collectStep, hqueue]
  cases ht : σ.txns t with
  | none =>
    refine ⟨.head ?_, by simp [State.unlinkTxn, ht]⟩
    simp only [hstep, popTxn, State.unlinkTxn, ht]
    exact .refl _
  | some txn =>
    by_cases hro : txn.isReadOnly = true
    · refine ⟨.head ?_, by simp [State.unlinkTxn, ht, hro, State.deleteTxn]⟩
      simp only [hstep, popTxn, State.unlinkTxn, ht, hro, if_true]
      exact .refl _
    · by_cases hold : (Timestamp.time oldest).newerThan txn.finishTime = true
      · refine ⟨.head ?_, ?_⟩
        · simp only [hstep, popTxn, State.unlinkTxn, ht, hro, hold, if_true]
          exact (records oldest t txn.aborted txn.undoBuffer _ pass).trans (one _)
        · simp only [State.unlinkTxn, ht, hro, hold, if_true]
          exact unlinkRecords_txnsToUnlink _ _ _ _
      · refine ⟨.head ?_, by simp [State.unlinkTxn, ht, hro, hold]⟩
        simp only [hstep, popTxn, State.unlinkTxn, ht, hro, hold]
        exact .refl _

theorem unlinkLoop (queue : List Nat) (σ : State V) (pass : UnlinkPass)
    (hqueue : σ.txnsToUnlink = queue) :
    Collects (σ, .unlink oldest pass) ((State.unlinkLoop oldest queue (σ, pass)).1,
        .unlink oldest (State.unlinkLoop oldest queue (σ, pass)).2) ∧
    (State.unlinkLoop oldest queue (σ, pass)).1.txnsToUnlink = [] := by
  induction queue generalizing σ pass with
  | nil => exact ⟨.refl _, hqueue⟩
  | cons t queue ih =>
    obtain ⟨hone, hrest⟩ := unlinkTxn oldest pass t queue σ hqueue
    obtain ⟨hloop, hempty⟩ := ih _ _ hrest
    exact ⟨hone.trans hloop, hempty⟩

/-- The small steps add up to a pass. -/
theorem performGarbageCollection (σ : State V) :
    Collects (σ, .idle) (σ.performGarbageCollection, .idle) := by
  refine .head (.head (.head (.head ?_)))
  set start : State V :=
    (σ.checkOutTimestamp.cacheOldest.processDeallocateQueue
      σ.checkOutTimestamp.oldestTransactionStartTime).spliceCompleted with hstart
  obtain ⟨hloop, hempty⟩ := unlinkLoop σ.checkOutTimestamp.oldestTransactionStartTime
    start.txnsToUnlink start UnlinkPass.start rfl
  refine hloop.trans (.head ?_)
  simp only [collectStep, hempty]
  exact one _

end Collects

end Terrier
