import Terrier.Proof.Collection

/-!
The bookkeeping invariant through the operations of a transaction and the log
serializer.
-/

namespace Terrier

open List State

variable {V : Type} {cfg : Config} {pending : List Nat} {σ σ' : State V}
  {txn : TransactionContext V} {t : Nat} {slot : TupleSlot} {done : TransactionContext V}
  {tuples : TupleSlot → Tuple V}

/-- A head that does not conflict with a transaction is its own record or was
committed before it began; so is then everything behind it. -/
theorem Consistent.precedes_of_not_hasConflict (h : Consistent pending σ)
    (hact : σ.activeTxn t = some txn) (hconf : σ.hasConflict t txn slot = false) :
    ∀ a ∈ (σ.tuples slot).chain, (Timestamp.txnId t).precedes (σ.undo a).timestamp := by
  have hid := (activeTxn_eq_some_iff.mp hact).2
  have hsort := h.chain_sorted slot
  simp only [hasConflict, headTimestamp, hid] at hconf
  cases hchain : (σ.tuples slot).chain with
  | nil => simp
  | cons b rest =>
    rw [hchain] at hconf hsort
    have hhead : (Timestamp.txnId t).precedes (σ.undo b).timestamp := by
      cases hts : (σ.undo b).timestamp with
      | time c => trivial
      | txnId u =>
        simp [hasConflictWith, hts] at hconf
        simp [hconf]
    intro a ha
    rcases mem_cons.mp ha with rfl | ha
    · exact hhead
    · have hbehind := (pairwise_cons.mp hsort).1 a ha
      cases hts : (σ.undo b).timestamp with
      | time c =>
        rw [hts] at hbehind
        cases hts' : (σ.undo a).timestamp with
        | time d => trivial
        | txnId u => simp [hts'] at hbehind
      | txnId u =>
        rw [hts] at hhead hbehind
        rwa [hhead]

theorem State.refuses_eq_false (h : σ.refuses t txn slot = false) :
    σ.hasConflict t txn slot = false ∧ (σ.tuples slot).allocated = true ∧
      (σ.tuples slot).notNull = true := by
  simpa [refuses, Tuple.visible] using h

section Write

variable {t : Nat} {txn : TransactionContext V} {slot : TupleSlot} {op : WriteOp V}
  {delta : UndoDelta V} {tuple : Tuple V} {tables : Nat → DataTable}

/-- Accepted writes never make a used slot unused again. -/
theorem Write.unused_of_unused (hwrite : Write cfg σ t txn slot op delta tuple tables)
    (s : TupleSlot) (hunused : State.Unused { σ with tables := tables } s) : σ.Unused s := by
  cases hwrite with
  | insert hcols hslot htabs =>
    simp only [State.Unused, htabs] at hunused ⊢
    split_ifs at hunused with hs
    · rw [hs.1, hs.2, hslot]
      omega
    · exact hunused
  | update | delete => exact hunused

section

variable (h : Consistent pending σ)
include h

theorem Write.used (hwrite : Write cfg σ t txn slot op delta tuple tables) :
    ¬ State.Unused { σ with tables := tables } slot := by
  intro hunused
  cases hwrite with
  | insert hcols hslot htabs => simp [State.Unused, htabs] at hunused
  | update hcols href | delete href =>
    have hfree := (h.unused_free hunused).2
    simp [(refuses_eq_false href).2.1] at hfree

theorem Write.chain_eq (hwrite : Write cfg σ t txn slot op delta tuple tables) :
    tuple.chain = (σ.tuples slot).chain := by
  cases hwrite with
  | insert hcols hslot htabs =>
    have hunused : σ.Unused slot := by simp [State.Unused, hslot]
    exact (h.unused_free hunused).1.symm
  | update => rfl
  | delete => rfl

theorem Write.precedes (hact : σ.activeTxn t = some txn)
    (hwrite : Write cfg σ t txn slot op delta tuple tables) :
    ∀ a ∈ (σ.tuples slot).chain, (Timestamp.txnId t).precedes (σ.undo a).timestamp := by
  cases hwrite with
  | insert hcols hslot htabs =>
    have hunused : σ.Unused slot := by simp [State.Unused, hslot]
    simp [(h.unused_free hunused).1]
  | update hcols href | delete href =>
    exact h.precedes_of_not_hasConflict hact (refuses_eq_false href).1

/-- Without records of its own on the slot, an accepted write finds only
versions that were there when its transaction began. -/
theorem Write.timestamp_le (hwrite : Write cfg σ t txn slot op delta tuple tables)
    (hact : σ.activeTxn t = some txn)
    (hforeign : ∀ a ∈ (σ.tuples slot).chain, (σ.undo a).timestamp ≠ .txnId t) :
    ∀ a ∈ (σ.tuples slot).chain, ∃ c, (σ.undo a).timestamp = .time c ∧ c ≤ t := by
  intro a ha
  have htime : ∀ b ∈ (σ.tuples slot).chain, ∃ c, (σ.undo b).timestamp = .time c := by
    intro b hb
    have hprec := hwrite.precedes h hact b hb
    cases hts : (σ.undo b).timestamp with
    | time c => exact ⟨c, rfl⟩
    | txnId u =>
      obtain rfl : t = u := by simpa [hts] using hprec
      exact absurd hts (hforeign b hb)
  have hconf : σ.hasConflict t txn slot = false := by
    cases hwrite with
    | insert hcols hslot htabs =>
      simp [(h.unused_free hslot.le).1] at ha
    | update hcols href | delete href => exact (refuses_eq_false href).1
  obtain ⟨c, hc⟩ := htime a ha
  refine ⟨c, hc, ?_⟩
  cases hchain : (σ.tuples slot).chain with
  | nil => simp [hchain] at ha
  | cons b rest =>
    obtain ⟨d, hd⟩ := htime b (by simp [hchain])
    have hdt : d ≤ t := by
      simpa [hasConflict, headTimestamp, hchain, hd, hasConflictWith] using hconf
    rw [hchain] at ha
    rcases mem_cons.mp ha with rfl | ha
    · have hcd : c = d := by simpa [hc] using hd
      omega
    · have hsort := h.chain_sorted slot
      rw [hchain] at hsort
      have hcd : c ≤ d := by simpa [hc, hd] using (pairwise_cons.mp hsort).1 a ha
      omega

end

end Write

/-- The state after commit or abort, apart from logging and the running set:
time has passed, the undo records carry it, and the tuples are as given. -/
structure Ended (σ : State V) (t : Nat) (txn done : TransactionContext V)
    (tuples : TupleSlot → Tuple V) (σ' : State V) : Prop where
  finishTime : done.finishTime = .time σ.time
  undoBuffer : done.undoBuffer = txn.undoBuffer
  time : σ'.time = σ.time + 1
  cached : σ'.cachedOldestTxnStartTime = σ.cachedOldestTxnStartTime
  txns : σ'.txns = Function.update σ.txns t (some done)
  undo : σ'.undo = (σ.finished t txn done).undo
  tuples : σ'.tuples = tuples
  tables : σ'.tables = σ.tables
  nextUndo : σ'.nextUndo = σ.nextUndo
  deallocate : σ'.txnsToDeallocate = σ.txnsToDeallocate
  lastUnlinked : σ'.lastUnlinked = σ.lastUnlinked

theorem Ended.activeTxn (hended : Ended σ t txn done tuples σ') {u : Nat}
    {x : TransactionContext V} : σ'.activeTxn u = some x ↔ u ≠ t ∧ σ.activeTxn u = some x := by
  rw [activeTxn_eq_some_iff, activeTxn_eq_some_iff, hended.txns]
  by_cases hut : u = t
  · subst hut
    simp only [Function.update_self, Option.some.injEq, ne_eq, not_true_eq_false, false_and,
      iff_false, not_and]
    rintro rfl
    simp [hended.finishTime]
  · simp [hut]

theorem State.finished_ended {σ : State V} (hfin : done.finishTime = .time σ.time)
    (hbuf : done.undoBuffer = txn.undoBuffer) :
    Ended σ t txn done tuples (State.finished { σ with tuples := tuples } t txn done) where
  finishTime := hfin
  undoBuffer := hbuf
  time := by simp
  cached := by simp
  txns := by simp
  undo := by
    funext a
    simp [undo_finished]
  tuples := by simp
  tables := by simp [finished, storeTimestamps_eq, setTxn, pushCompleted, checkOutTimestamp]
  nextUndo := by simp [finished, storeTimestamps_eq, setTxn, pushCompleted, checkOutTimestamp]
  deallocate := by simp [finished, storeTimestamps_eq, setTxn, pushCompleted, checkOutTimestamp]
  lastUnlinked := by simp [finished, storeTimestamps_eq, setTxn, pushCompleted, checkOutTimestamp]

theorem State.commit_ended (cfg : Config) (σ : State V) (t : Nat) (txn : TransactionContext V) :
    ∃ done : TransactionContext V, done.mustAbort = txn.mustAbort ∧ done.aborted = txn.aborted ∧
      Ended σ t txn done σ.tuples (σ.commit cfg t txn) := by
  cases hlogging : cfg.logging with
  | true =>
    rw [commit_of_logging hlogging]
    exact ⟨{ txn with
      finishTime := .time σ.time
      redoBuffer := (txn.redoBuffer.close cfg (σ.commitRecord cfg t txn)).1 },
      rfl, rfl, { finished_ended rfl rfl with }⟩
  | false =>
    rw [commit_of_not_logging hlogging]
    exact ⟨{ txn with
      finishTime := .time σ.time
      redoBuffer := (txn.redoBuffer.finalize cfg true).1 },
      rfl, rfl, { finished_ended rfl rfl with }⟩

theorem State.rollbackChain_spec (σ : State V) (finishTime : Timestamp) (chain : List Nat)
    (tuple : Tuple V) :
    (σ.rollbackChain finishTime chain tuple).chain = tuple.chain ∧
      ((σ.rollbackChain finishTime chain tuple).allocated = true → tuple.allocated = true) := by
  induction chain generalizing tuple with
  | nil => exact ⟨rfl, id⟩
  | cons a chain ih =>
    simp only [rollbackChain]
    split_ifs
    · obtain ⟨hchain, halloc⟩ := ih ((σ.undo a).delta.rollback tuple)
      refine ⟨hchain.trans (UndoDelta.rollback_chain _ _), fun h => ?_⟩
      have halloc' := halloc h
      revert halloc'
      cases (σ.undo a).delta <;> simp [UndoDelta.rollback]
    · exact ⟨rfl, id⟩

def State.restored (σ : State V) (txn : TransactionContext V) (slot : TupleSlot) : Tuple V :=
  if σ.rollsBack txn.undoBuffer slot = true then σ.rolledBack txn.finishTime slot
  else σ.tuples slot

theorem State.restored_chain (σ : State V) (txn : TransactionContext V) (slot : TupleSlot) :
    (σ.restored txn slot).chain = (σ.tuples slot).chain := by
  unfold restored
  split_ifs
  · exact (rollbackChain_spec σ _ _ _).1
  · rfl

theorem State.abort_ended (cfg : Config) (σ : State V) (t : Nat) (txn : TransactionContext V) :
    ∃ done : TransactionContext V, done.mustAbort = txn.mustAbort ∧ done.aborted = true ∧
      Ended σ t txn done (σ.restored txn) (σ.abort cfg t txn) := by
  cases hflushed : (cfg.logging && txn.redoBuffer.hasFlushed) with
  | true =>
    rw [abort_of_flushed σ t txn hflushed, rollbackRecords_eq]
    exact ⟨{ txn with
      finishTime := .time σ.time
      aborted := true
      redoBuffer := (txn.redoBuffer.reset.close cfg (.abort t)).1 },
      rfl, rfl, { finished_ended rfl rfl with }⟩
  | false =>
    rw [abort_of_not_flushed σ t txn hflushed, rollbackRecords_eq]
    exact ⟨{ txn with
      finishTime := .time σ.time
      aborted := true
      redoBuffer := (txn.redoBuffer.finalize cfg false).1 },
      rfl, rfl, { finished_ended rfl rfl with }⟩

/-- What an ending leaves to the log: its last records, or nothing at all, and then the
transaction no longer counts as running. -/
inductive HandsOver (σ : State V) (t : Nat) (records : List (LogRecord V)) (σ' : State V) : Prop
  | flushed (hrunning : σ'.currRunningTxns = σ.currRunningTxns) (hlog : σ'.log = σ.log)
      (hflush : σ'.flushQueue.flatten = σ.flushQueue.flatten ++ records)
  | removed (hrunning : ∀ r ∈ σ'.currRunningTxns, r ∈ σ.currRunningTxns ∧ r ≠ t)
      (hlog : σ'.log = σ.log) (hflush : σ'.flushQueue = σ.flushQueue)

theorem State.finished_handsOver {σ : State V} {segments : List (Segment V)}
    {records : List (LogRecord V)} (hrecs : segments.flatten = records) :
    HandsOver σ t records ((State.finished { σ with tuples := tuples } t txn
      done).addBuffersToFlushQueue segments) := by
  apply HandsOver.flushed <;>
    simp [addBuffersToFlushQueue, hrecs, finished, storeTimestamps_eq, setTxn, pushCompleted,
      checkOutTimestamp]

theorem State.finished_removed {σ : State V} {records : List (LogRecord V)} : HandsOver σ t records
    ((State.finished { σ with tuples := tuples } t txn done).removeTransactions [t]) := by
  apply HandsOver.removed <;>
    simp [removeTransactions, finished, storeTimestamps_eq, setTxn, pushCompleted,
      checkOutTimestamp]

theorem State.commit_handsOver (cfg : Config) (σ : State V) (t : Nat) (txn : TransactionContext V) :
    HandsOver σ t (txn.redoBuffer.records ++ [σ.commitRecord cfg t txn]) (σ.commit cfg t txn) := by
  cases hlogging : cfg.logging with
  | true =>
    rw [commit_of_logging hlogging]
    exact finished_handsOver (RedoBuffer.close_records hlogging _ _)
  | false =>
    rw [commit_of_not_logging hlogging]
    exact finished_removed

theorem State.abort_handsOver (cfg : Config) (σ : State V) (t : Nat) (txn : TransactionContext V) :
    HandsOver σ t [.abort t] (σ.abort cfg t txn) := by
  cases hflushed : (cfg.logging && txn.redoBuffer.hasFlushed) with
  | true =>
    rw [abort_of_flushed σ t txn hflushed, rollbackRecords_eq]
    apply finished_handsOver
    have hreset : txn.redoBuffer.reset.records = [] := by
      unfold RedoBuffer.reset RedoBuffer.records
      cases txn.redoBuffer.bufferSeg <;> rfl
    rw [RedoBuffer.close_records (Bool.and_eq_true_iff.mp hflushed).1, hreset, nil_append]
  | false =>
    rw [abort_of_not_flushed σ t txn hflushed, rollbackRecords_eq]
    exact finished_removed

namespace Consistent

theorem written (h : Consistent pending σ) {slot : TupleSlot} {op : WriteOp V} {delta : UndoDelta V}
    {tuple : Tuple V} {tables : Nat → DataTable} (hact : σ.activeTxn t = some txn)
    (hwrite : Write cfg σ t txn slot op delta tuple tables) :
    Consistent pending (σ.written cfg t txn slot op delta tuple tables) := by
  have hid := (State.activeTxn_eq_some_iff.mp hact).2
  have hprecedes := hwrite.precedes h hact
  have hbase := (h.setTables hwrite.unused_of_unused).addBuffersToFlushQueue
    (txn.stage cfg (op.logRecord t slot)).2
  refine hbase.write hact (txn.stage cfg (op.logRecord t slot)).1 rfl rfl
    ⟨delta, txn.finishTime, some slot.table, slot⟩ hid ?_ ?_ ?_
  · exact fun _ => ⟨hwrite.used h, hprecedes⟩
  · intro s
    by_cases hs : s = slot
    · subst hs
      simp [hwrite.chain_eq h, State.addBuffersToFlushQueue]
    · simp [hs, State.newUndo, State.addBuffersToFlushQueue]
  · intro s hunused
    have hne : s ≠ slot := by
      rintro rfl
      exact hwrite.used h hunused
    simpa [hne, State.newUndo, State.addBuffersToFlushQueue] using (hbase.unused_free hunused).2

theorem refused (h : Consistent pending σ) (hact : σ.activeTxn t = some txn) (slot : TupleSlot)
    (op : WriteOp V) (delta : UndoDelta V) :
    Consistent pending (σ.refused cfg t txn slot op delta) := by
  have hid := (activeTxn_eq_some_iff.mp hact).2
  have hbase := h.addBuffersToFlushQueue (txn.stage cfg (op.logRecord t slot)).2
  refine setMustAbort ?_ t
  exact hbase.write hact (txn.stage cfg (op.logRecord t slot)).1 rfl rfl
    ⟨delta, txn.finishTime, none, slot⟩ hid (by simp) (fun s => by simp; rfl)
    (fun s hunused => (hbase.unused_free hunused).2)

theorem activeTxn_finished (σ : State V) (t : Nat) (txn done : TransactionContext V)
    (hfin : done.finishTime = .time σ.time) : (σ.finished t txn done).activeTxn t = none := by
  rw [activeTxn_eq_none_iff]
  intro x hx
  obtain rfl : done = x := by
    simpa [finished, pushCompleted, setTxn] using hx
  simp [hfin]

theorem commit (h : Consistent pending σ) (hact : σ.activeTxn t = some txn) :
    Consistent pending (σ.commit cfg t txn) := by
  cases hlogging : cfg.logging with
  | true =>
    rw [commit_of_logging hlogging]
    apply addBuffersToFlushQueue
    exact h.finished hact _ rfl rfl
  | false =>
    rw [commit_of_not_logging hlogging]
    apply removeTransactions
    · exact h.finished hact _ rfl rfl
    intro u hu
    obtain rfl := mem_singleton.mp hu
    exact activeTxn_finished σ u txn _ rfl

theorem rollbackRecords (h : Consistent pending σ) (finishTime : Timestamp) (buffer : List Nat) :
    Consistent pending (σ.rollbackRecords finishTime buffer) := by
  rw [rollbackRecords_eq]
  refine h.setData ?_ ?_
  · intro slot
    split_ifs
    · exact (rollbackChain_spec σ finishTime _ _).1
    · rfl
  · intro slot halloc
    split_ifs at halloc
    · exact (rollbackChain_spec σ finishTime _ _).2 halloc
    · exact halloc

theorem abort (h : Consistent pending σ) (hact : σ.activeTxn t = some txn) :
    Consistent pending (σ.abort cfg t txn) := by
  have hrolled := h.rollbackRecords txn.finishTime txn.undoBuffer
  have hact' : (σ.rollbackRecords txn.finishTime txn.undoBuffer).activeTxn t = some txn := by
    rw [rollbackRecords_eq]
    exact hact
  have htime : (σ.rollbackRecords txn.finishTime txn.undoBuffer).time = σ.time := by
    rw [rollbackRecords_eq]
  cases hflushed : (cfg.logging && txn.redoBuffer.hasFlushed) with
  | true =>
    rw [abort_of_flushed σ t txn hflushed]
    apply addBuffersToFlushQueue
    exact hrolled.finished hact' _ rfl (by simp [htime])
  | false =>
    rw [abort_of_not_flushed σ t txn hflushed]
    apply removeTransactions
    · exact hrolled.finished hact' _ rfl (by simp [htime])
    intro u hu
    obtain rfl := mem_singleton.mp hu
    exact activeTxn_finished _ u txn _ (by simp [htime])

theorem process (h : Consistent pending σ)
    (hdone : ∀ record ∈ σ.flushQueue.flatten, ∀ t, record.serializedTxn = some t →
      σ.activeTxn t = none) : Consistent pending σ.process := by
  have hlogged : Consistent pending { σ with
      flushQueue := []
      log := σ.log ++ σ.flushQueue.flatten.filter LogRecord.isSerialized } := { h with }
  refine hlogged.removeTransactions ?_
  intro t ht
  obtain ⟨record, hrec, hser⟩ := mem_filterMap.mp ht
  exact hdone record hrec t hser

end Consistent

end Terrier
