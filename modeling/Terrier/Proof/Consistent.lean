import Terrier.System

/-!
The bookkeeping invariant of the engine: timestamps, undo buffers, version chains and the queues
of the garbage collector fit together. `pending` lists the transactions that a garbage collection
pass has popped and not yet put anywhere.
-/

namespace Terrier

open List

variable {V : Type}

namespace State

def Unused (σ : State V) (slot : TupleSlot) : Prop :=
  (σ.tables slot.table).insertHead slot.block ≤ slot.offset

end State

structure Consistent (pending : List Nat) (σ : State V) : Prop where
  txn_lt : ∀ ⦃t txn⦄, σ.txns t = some txn → t < σ.time
  finish : ∀ ⦃t txn⦄, σ.txns t = some txn →
    txn.finishTime = .txnId t ∨ ∃ f, txn.finishTime = .time f ∧ t < f ∧ f < σ.time
  running_lt : ∀ r ∈ σ.currRunningTxns, r < σ.time
  running_of_active : ∀ ⦃t txn⦄, σ.txns t = some txn → txn.finishTime = .txnId t →
    t ∈ σ.currRunningTxns
  cached_le_time : σ.cachedOldestTxnStartTime ≤ σ.time
  cached_le_running : ∀ r ∈ σ.currRunningTxns, σ.cachedOldestTxnStartTime ≤ r
  buffer_lt : ∀ ⦃t txn a⦄, σ.txns t = some txn → a ∈ txn.undoBuffer → a < σ.nextUndo
  buffer_timestamp : ∀ ⦃t txn a⦄, σ.txns t = some txn → a ∈ txn.undoBuffer →
    (σ.undo a).timestamp = txn.finishTime
  buffer_unique : ∀ ⦃t u x y a⦄, σ.txns t = some x → σ.txns u = some y →
    a ∈ x.undoBuffer → a ∈ y.undoBuffer → t = u
  buffer_used : ∀ ⦃t txn a⦄, σ.txns t = some txn → a ∈ txn.undoBuffer →
    (σ.undo a).table.isSome → ¬ σ.Unused (σ.undo a).slot
  chain_record : ∀ ⦃slot a⦄, a ∈ (σ.tuples slot).chain →
    (σ.undo a).slot = slot ∧ (σ.undo a).table.isSome
  chain_owner : ∀ ⦃slot a⦄, a ∈ (σ.tuples slot).chain → ∃ t txn, σ.txns t = some txn ∧
    a ∈ txn.undoBuffer ∧
    (txn.finishTime = .txnId t ∨ t ∈ σ.completedTxns ∨ t ∈ σ.txnsToUnlink ∨ t ∈ pending)
  chain_sorted : ∀ slot, (σ.tuples slot).chain.Pairwise
    (fun a b => (σ.undo a).timestamp.precedes (σ.undo b).timestamp)
  installed_of_active : ∀ ⦃t txn a⦄, σ.txns t = some txn → txn.finishTime = .txnId t →
    a ∈ txn.undoBuffer → (σ.undo a).table.isSome → a ∈ (σ.tuples (σ.undo a).slot).chain
  unused_free : ∀ ⦃slot⦄, σ.Unused slot →
    (σ.tuples slot).chain = [] ∧ (σ.tuples slot).allocated = false
  queues_nodup : (σ.completedTxns ++ σ.txnsToUnlink ++ pending ++ σ.txnsToDeallocate).Nodup
  queues_finished : ∀ t ∈ σ.completedTxns ++ σ.txnsToUnlink ++ pending ++ σ.txnsToDeallocate,
      ∃ txn f, σ.txns t = some txn ∧ txn.finishTime = .time f

namespace Consistent

variable {pending : List Nat} {σ : State V}

theorem init (junk : TupleSlot → ColId → Option V) : Consistent [] (State.init junk) := by
  constructor
  all_goals simp [State.init]

section

variable (h : Consistent pending σ)
include h

theorem tick {time : Nat} (hle : σ.time ≤ time) : Consistent pending { σ with time := time } :=
  { h with
    txn_lt := fun t txn ht => lt_of_lt_of_le (h.txn_lt ht) hle
    finish := fun t txn ht => by
      rcases h.finish ht with hid | ⟨f, hf, htf, hft⟩
      · exact .inl hid
      · exact .inr ⟨f, hf, htf, lt_of_lt_of_le hft hle⟩
    running_lt := fun r hr => lt_of_lt_of_le (h.running_lt r hr) hle
    cached_le_time := le_trans h.cached_le_time hle }

theorem addBuffersToFlushQueue (segments : List (Segment V)) :
    Consistent pending (σ.addBuffersToFlushQueue segments) :=
  { h with }

variable {txn : TransactionContext V} {t a : Nat} {slot : TupleSlot} {tuples : TupleSlot → Tuple V}

/-- Staging a log record or setting a flag leaves the invariant alone: it only
looks at the finish time and the undo buffer of a transaction. -/
theorem setTxn {txn' : TransactionContext V} (ht : σ.txns t = some txn)
    (hfin : txn'.finishTime = txn.finishTime) (hbuf : txn'.undoBuffer = txn.undoBuffer) :
    Consistent pending (σ.setTxn t txn') := by
  have hback : ∀ {u y}, (σ.setTxn t txn').txns u = some y → ∃ x, σ.txns u = some x ∧
      y.finishTime = x.finishTime ∧ y.undoBuffer = x.undoBuffer := by
    intro u y hu
    obtain ⟨rfl, rfl⟩ | ⟨-, hu⟩ := State.update_eq_some hu
    · exact ⟨txn, ht, hfin, hbuf⟩
    · exact ⟨y, hu, rfl, rfl⟩
  have hforth : ∀ {u x}, σ.txns u = some x → ∃ y, (σ.setTxn t txn').txns u = some y ∧
      y.finishTime = x.finishTime ∧ y.undoBuffer = x.undoBuffer := by
    intro u x hu
    by_cases hut : u = t
    · subst hut
      obtain rfl : txn = x := by simpa [ht] using hu
      exact ⟨txn', by simp [State.setTxn], hfin, hbuf⟩
    · exact ⟨x, by simpa [State.setTxn, hut] using hu, rfl, rfl⟩
  refine { h with
    txn_lt := ?_, finish := ?_, running_of_active := ?_, buffer_lt := ?_, buffer_timestamp := ?_,
    buffer_unique := ?_, buffer_used := ?_, chain_owner := ?_, installed_of_active := ?_,
    queues_finished := ?_ }
  · intro u y hu
    obtain ⟨x, hx, -, -⟩ := hback hu
    exact h.txn_lt hx
  · intro u y hu
    obtain ⟨x, hx, hxf, -⟩ := hback hu
    rw [hxf]
    exact h.finish hx
  · intro u y hu hy
    obtain ⟨x, hx, hxf, -⟩ := hback hu
    exact h.running_of_active hx (hxf ▸ hy)
  · intro u y a hu ha
    obtain ⟨x, hx, -, hxb⟩ := hback hu
    exact h.buffer_lt hx (hxb ▸ ha)
  · intro u y a hu ha
    obtain ⟨x, hx, hxf, hxb⟩ := hback hu
    rw [hxf]
    exact h.buffer_timestamp hx (hxb ▸ ha)
  · intro u v y z a hu hv hay haz
    obtain ⟨x, hx, -, hxb⟩ := hback hu
    obtain ⟨w, hw, -, hwb⟩ := hback hv
    exact h.buffer_unique hx hw (hxb ▸ hay) (hwb ▸ haz)
  · intro u y a hu ha
    obtain ⟨x, hx, -, hxb⟩ := hback hu
    exact h.buffer_used hx (hxb ▸ ha)
  · intro slot a ha
    obtain ⟨u, x, hx, hax, hwhere⟩ := h.chain_owner ha
    obtain ⟨y, hy, hyf, hyb⟩ := hforth hx
    exact ⟨u, y, hy, hyb ▸ hax, hyf ▸ hwhere⟩
  · intro u y a hu hy ha
    obtain ⟨x, hx, hxf, hxb⟩ := hback hu
    exact h.installed_of_active hx (hxf ▸ hy) (hxb ▸ ha)
  · intro u hu
    obtain ⟨x, f, hx, hxf⟩ := h.queues_finished u hu
    obtain ⟨y, hy, hyf, -⟩ := hforth hx
    exact ⟨y, f, hy, hyf.trans hxf⟩

theorem setMustAbort (t : Nat) : Consistent pending (σ.setMustAbort t) := by
  unfold State.setMustAbort
  cases ht : σ.txns t with
  | none => exact h
  | some txn => exact h.setTxn ht rfl rfl

/-- Only finished transactions may leave the set of running ones. -/
theorem removeTransactions {starts : List Nat} (hdone : ∀ t ∈ starts, σ.activeTxn t = none) :
    Consistent pending (σ.removeTransactions starts) :=
  { h with
    running_lt := fun r hr => h.running_lt r (mem_of_mem_filter hr)
    running_of_active := fun t txn ht hfin => by
      refine mem_filter.mpr ⟨h.running_of_active ht hfin, ?_⟩
      rw [decide_eq_true_eq]
      intro hmem
      exact State.activeTxn_eq_none_iff.mp (hdone t hmem) txn ht hfin
    cached_le_running := fun r hr => h.cached_le_running r (mem_of_mem_filter hr) }

theorem beginTransaction : Consistent pending σ.beginTransaction := by
  have hcases : ∀ {u y}, σ.beginTransaction.txns u = some y →
      (u = σ.time ∧ y.finishTime = .txnId u ∧ y.undoBuffer = []) ∨ σ.txns u = some y := by
    intro u y hu
    obtain ⟨rfl, rfl⟩ | ⟨-, hu⟩ := State.update_eq_some hu
    · exact .inl ⟨rfl, rfl, rfl⟩
    · exact .inr hu
  have hold : ∀ {u x}, σ.txns u = some x → σ.beginTransaction.txns u = some x := by
    intro u x hu
    have hut : u ≠ σ.time := (h.txn_lt hu).ne
    simpa [State.beginTransaction, hut] using hu
  have hbuffer : ∀ {u y a}, σ.beginTransaction.txns u = some y → a ∈ y.undoBuffer →
      σ.txns u = some y := by
    intro u y a hu ha
    rcases hcases hu with ⟨-, -, hnil⟩ | hu
    · simp [hnil] at ha
    · exact hu
  refine { h with
    txn_lt := ?_, finish := ?_, running_lt := ?_, running_of_active := ?_, cached_le_time := ?_,
    cached_le_running := ?_, buffer_lt := ?_, buffer_timestamp := ?_, buffer_unique := ?_,
    buffer_used := ?_, chain_owner := ?_, installed_of_active := ?_, queues_finished := ?_ }
  · intro u y hu
    rcases hcases hu with ⟨rfl, -, -⟩ | hu
    · exact Nat.lt_succ_self _
    · exact Nat.lt_succ_of_lt (h.txn_lt hu)
  · intro u y hu
    rcases hcases hu with ⟨rfl, hid, -⟩ | hu
    · exact .inl hid
    · rcases h.finish hu with hid | ⟨f, hf, htf, hft⟩
      · exact .inl hid
      · exact .inr ⟨f, hf, htf, Nat.lt_succ_of_lt hft⟩
  · exact forall_mem_cons.mpr
      ⟨Nat.lt_succ_self _, fun r hr => Nat.lt_succ_of_lt (h.running_lt r hr)⟩
  · intro u y hu hfin
    rcases hcases hu with ⟨rfl, -, -⟩ | hu
    · exact mem_cons_self
    · exact mem_cons_of_mem _ (h.running_of_active hu hfin)
  · exact Nat.le_succ_of_le h.cached_le_time
  · exact forall_mem_cons.mpr ⟨h.cached_le_time, h.cached_le_running⟩
  · intro u y a hu ha
    exact h.buffer_lt (hbuffer hu ha) ha
  · intro u y a hu ha
    exact h.buffer_timestamp (hbuffer hu ha) ha
  · intro u v y z a hu hv hay haz
    exact h.buffer_unique (hbuffer hu hay) (hbuffer hv haz) hay haz
  · intro u y a hu ha
    exact h.buffer_used (hbuffer hu ha) ha
  · intro slot a ha
    obtain ⟨u, x, hx, hax, hwhere⟩ := h.chain_owner ha
    exact ⟨u, x, hold hx, hax, hwhere⟩
  · intro u y a hu hfin ha
    exact h.installed_of_active (hbuffer hu ha) hfin ha
  · intro u hu
    obtain ⟨x, f, hx, hxf⟩ := h.queues_finished u hu
    exact ⟨x, f, hold hx, hxf⟩

/-- An address in a buffer or a chain is not the next one to be handed out. -/
theorem ne_nextUndo_of_buffer (ht : σ.txns t = some txn) (ha : a ∈ txn.undoBuffer) :
    a ≠ σ.nextUndo :=
  (h.buffer_lt ht ha).ne

theorem ne_nextUndo_of_chain (ha : a ∈ (σ.tuples slot).chain) : a ≠ σ.nextUndo := by
  obtain ⟨t, txn, ht, hbuf, -⟩ := h.chain_owner ha
  exact h.ne_nextUndo_of_buffer ht hbuf

/-- A write by a running transaction: a fresh undo record enters its buffer and, if it was
installed, the front of the chain of its slot. -/
theorem write (hact : σ.activeTxn t = some txn) (staged : TransactionContext V)
    (hbuf : staged.undoBuffer = txn.undoBuffer) (hfin : staged.finishTime = txn.finishTime)
    (record : UndoRecord V) (hts : record.timestamp = .txnId t)
    (hinst : record.table.isSome → ¬ σ.Unused record.slot ∧
      ∀ a ∈ (σ.tuples record.slot).chain, (Timestamp.txnId t).precedes (σ.undo a).timestamp)
    (hchain : ∀ slot, (tuples slot).chain =
      if record.table.isSome ∧ slot = record.slot then σ.nextUndo :: (σ.tuples slot).chain
      else (σ.tuples slot).chain)
    (hfree : ∀ slot, σ.Unused slot → (tuples slot).allocated = false) :
    Consistent pending { σ.newUndo t staged record with tuples := tuples } := by
  obtain ⟨ht, hid⟩ := State.activeTxn_eq_some_iff.mp hact
  set σ' : State V := { σ.newUndo t staged record with tuples := tuples } with hσ'
  have hnew : σ'.undo σ.nextUndo = record := by simp [hσ', State.newUndo]
  have hsame : ∀ {a}, a ≠ σ.nextUndo → σ'.undo a = σ.undo a := by
    intro a ha
    simp [hσ', State.newUndo, ha]
  have hmem : ∀ {slot a}, a ∈ (σ'.tuples slot).chain →
      (a = σ.nextUndo ∧ record.table.isSome ∧ slot = record.slot) ∨ a ∈ (σ.tuples slot).chain := by
    intro slot a ha
    rw [show σ'.tuples = tuples from rfl, hchain] at ha
    split_ifs at ha with hcond
    · rcases mem_cons.mp ha with rfl | ha
      · exact .inl ⟨rfl, hcond⟩
      · exact .inr ha
    · exact .inr ha
  have hkeep : ∀ {slot a}, a ∈ (σ.tuples slot).chain → a ∈ (σ'.tuples slot).chain := by
    intro slot a ha
    rw [show σ'.tuples = tuples from rfl, hchain]
    split_ifs
    · exact mem_cons_of_mem _ ha
    · exact ha
  have hback : ∀ {u y}, σ'.txns u = some y → ∃ x, σ.txns u = some x ∧ y.finishTime = x.finishTime ∧
      ∀ a ∈ y.undoBuffer, a ∈ x.undoBuffer ∨ (a = σ.nextUndo ∧ u = t) := by
    intro u y hu
    obtain ⟨rfl, rfl⟩ | ⟨-, hu⟩ := State.update_eq_some hu
    · refine ⟨txn, ht, hfin, fun a ha => ?_⟩
      rcases mem_append.mp ha with ha | ha
      · exact .inl (hbuf ▸ ha)
      · exact .inr ⟨mem_singleton.mp ha, rfl⟩
    · exact ⟨y, hu, rfl, fun a ha => Or.inl ha⟩
  have hforth : ∀ {u x}, σ.txns u = some x → ∃ y, σ'.txns u = some y ∧
      y.finishTime = x.finishTime ∧ ∀ a ∈ x.undoBuffer, a ∈ y.undoBuffer := by
    intro u x hu
    by_cases hut : u = t
    · subst hut
      obtain rfl : txn = x := by simpa [ht] using hu
      refine ⟨{ staged with undoBuffer := staged.undoBuffer ++ [σ.nextUndo] },
        by simp [hσ', State.newUndo], hfin, fun a ha => ?_⟩
      exact mem_append_left _ (hbuf ▸ ha)
    · exact ⟨x, by simpa [hσ', State.newUndo, hut] using hu, rfl, fun a ha => ha⟩
  refine { h with
    txn_lt := ?_, finish := ?_, running_of_active := ?_, buffer_lt := ?_, buffer_timestamp := ?_,
    buffer_unique := ?_, buffer_used := ?_, chain_record := ?_, chain_owner := ?_,
    chain_sorted := ?_, installed_of_active := ?_, unused_free := ?_, queues_finished := ?_ }
  · intro u y hu
    obtain ⟨x, hx, -, -⟩ := hback hu
    exact h.txn_lt hx
  · intro u y hu
    obtain ⟨x, hx, hxf, -⟩ := hback hu
    rw [hxf]
    exact h.finish hx
  · intro u y hu hy
    obtain ⟨x, hx, hxf, -⟩ := hback hu
    exact h.running_of_active hx (hxf ▸ hy)
  · intro u y a hu ha
    obtain ⟨x, hx, -, hxb⟩ := hback hu
    rcases hxb a ha with ha | ⟨rfl, -⟩
    · exact Nat.lt_succ_of_lt (h.buffer_lt hx ha)
    · exact Nat.lt_succ_self _
  · intro u y a hu ha
    obtain ⟨x, hx, hxf, hxb⟩ := hback hu
    rcases hxb a ha with ha | ⟨rfl, rfl⟩
    · rw [hsame (h.ne_nextUndo_of_buffer hx ha), hxf, h.buffer_timestamp hx ha]
    · obtain rfl : txn = x := by simpa [ht] using hx
      rw [hnew, hts, hxf, hid]
  · intro u v y z a hu hv hay haz
    obtain ⟨x, hx, -, hxb⟩ := hback hu
    obtain ⟨w, hw, -, hwb⟩ := hback hv
    rcases hxb a hay with hax | ⟨rfl, rfl⟩
    · rcases hwb a haz with haw | ⟨rfl, -⟩
      · exact h.buffer_unique hx hw hax haw
      · exact absurd rfl (h.ne_nextUndo_of_buffer hx hax)
    · rcases hwb _ haz with haw | ⟨-, rfl⟩
      · exact absurd rfl (h.ne_nextUndo_of_buffer hw haw)
      · rfl
  · intro u y a hu ha hsome
    obtain ⟨x, hx, -, hxb⟩ := hback hu
    rcases hxb a ha with ha | ⟨rfl, -⟩
    · rw [hsame (h.ne_nextUndo_of_buffer hx ha)] at hsome ⊢
      exact h.buffer_used hx ha hsome
    · rw [hnew] at hsome ⊢
      exact (hinst hsome).1
  · intro slot a ha
    rcases hmem ha with ⟨rfl, hsome, rfl⟩ | ha
    · rw [hnew]
      exact ⟨rfl, hsome⟩
    · rw [hsame (h.ne_nextUndo_of_chain ha)]
      exact h.chain_record ha
  · intro slot a ha
    rcases hmem ha with ⟨rfl, hsome, rfl⟩ | ha
    · refine ⟨t, { staged with undoBuffer := staged.undoBuffer ++ [σ.nextUndo] },
        by simp [hσ', State.newUndo], by simp, .inl (hfin.trans hid)⟩
    · obtain ⟨u, x, hx, hax, hwhere⟩ := h.chain_owner ha
      obtain ⟨y, hy, hyf, hyb⟩ := hforth hx
      exact ⟨u, y, hy, hyb a hax, hyf ▸ hwhere⟩
  · intro slot
    have hrest : (σ.tuples slot).chain.Pairwise
        (fun a b => (σ'.undo a).timestamp.precedes (σ'.undo b).timestamp) := by
      refine (h.chain_sorted slot).imp_of_mem ?_
      intro a b ha hb hab
      rwa [hsame (h.ne_nextUndo_of_chain ha), hsame (h.ne_nextUndo_of_chain hb)]
    rw [show σ'.tuples = tuples from rfl, hchain]
    split_ifs with hcond
    · obtain ⟨hsome, rfl⟩ := hcond
      refine pairwise_cons.mpr ⟨fun b hb => ?_, hrest⟩
      rw [hnew, hts, hsame (h.ne_nextUndo_of_chain hb)]
      exact (hinst hsome).2 b hb
    · exact hrest
  · intro u y a hu hy ha hsome
    obtain ⟨x, hx, hxf, hxb⟩ := hback hu
    rcases hxb a ha with ha | ⟨rfl, -⟩
    · rw [hsame (h.ne_nextUndo_of_buffer hx ha)] at hsome ⊢
      exact hkeep (h.installed_of_active hx (hxf ▸ hy) ha hsome)
    · rw [hnew] at hsome ⊢
      rw [show σ'.tuples = tuples from rfl, hchain, if_pos ⟨hsome, rfl⟩]
      exact mem_cons_self
  · intro slot hunused
    refine ⟨?_, hfree slot hunused⟩
    rw [show σ'.tuples = tuples from rfl, hchain, if_neg]
    · exact (h.unused_free hunused).1
    · rintro ⟨hsome, rfl⟩
      exact (hinst hsome).1 hunused
  · intro u hu
    obtain ⟨x, f, hx, hxf⟩ := h.queues_finished u hu
    obtain ⟨y, hy, hyf, -⟩ := hforth hx
    exact ⟨y, f, hy, hyf.trans hxf⟩

/-- A record in a chain is either stamped with the identity of the running
transaction that wrote it, or with a time in the past. -/
theorem chain_timestamp (ha : a ∈ (σ.tuples slot).chain) :
    (∃ t txn, σ.activeTxn t = some txn ∧ a ∈ txn.undoBuffer ∧ (σ.undo a).timestamp = .txnId t) ∨
    ∃ c, (σ.undo a).timestamp = .time c ∧ c < σ.time := by
  obtain ⟨t, txn, ht, hbuf, -⟩ := h.chain_owner ha
  have hts := h.buffer_timestamp ht hbuf
  rcases h.finish ht with hid | ⟨f, hf, -, hlt⟩
  · exact .inl ⟨t, txn, State.activeTxn_eq_some_iff.mpr ⟨ht, hid⟩, hbuf, hts.trans hid⟩
  · exact .inr ⟨f, hts.trans hf, hlt⟩

section

variable (hact : σ.activeTxn t = some txn)
include hact

/-- The records of a running transaction are the ones stamped with it. -/
theorem mem_buffer_of_chain (ha : a ∈ (σ.tuples slot).chain)
    (hts : (σ.undo a).timestamp = .txnId t) : a ∈ txn.undoBuffer := by
  rcases h.chain_timestamp ha with ⟨u, y, hu, hbuf, hts'⟩ | ⟨c, hc, -⟩
  · obtain rfl : t = u := by simpa [hts] using hts'
    obtain rfl : txn = y := by simpa [hact] using hu
    exact hbuf
  · simp [hts] at hc

theorem active_notMem_queues :
    t ∉ σ.completedTxns ++ σ.txnsToUnlink ++ pending ++ σ.txnsToDeallocate := by
  intro hmem
  obtain ⟨ht, hid⟩ := State.activeTxn_eq_some_iff.mp hact
  obtain ⟨x, f, hx, hxf⟩ := h.queues_finished t hmem
  obtain rfl : txn = x := by simpa [ht] using hx
  simp [hid] at hxf

/-- The common part of commit and abort: a time is checked out, stored in all
undo records and in the context, and the transaction goes to the collector. -/
theorem finished (done : TransactionContext V) (hbuf : done.undoBuffer = txn.undoBuffer)
    (hfin : done.finishTime = .time σ.time) : Consistent pending (σ.finished t txn done) := by
  obtain ⟨ht, hid⟩ := State.activeTxn_eq_some_iff.mp hact
  rw [State.finished, State.storeTimestamps_eq]
  set σ' : State V := _ with hσ'
  change Consistent pending σ'
  have hin : ∀ {a}, a ∈ txn.undoBuffer →
      σ'.undo a = { σ.undo a with timestamp := .time σ.time } := by
    intro a ha
    simp [hσ', State.pushCompleted, State.setTxn, State.checkOutTimestamp, ha]
  have hout : ∀ {a}, a ∉ txn.undoBuffer → σ'.undo a = σ.undo a := by
    intro a ha
    simp [hσ', State.pushCompleted, State.setTxn, State.checkOutTimestamp, ha]
  have hrec : ∀ a, (σ'.undo a).slot = (σ.undo a).slot ∧ (σ'.undo a).table = (σ.undo a).table := by
    intro a
    by_cases ha : a ∈ txn.undoBuffer
    · simp [hin ha]
    · simp [hout ha]
  have hself : σ'.txns t = some done := by simp [hσ', State.pushCompleted, State.setTxn]
  have hother : ∀ {u}, u ≠ t → σ'.txns u = σ.txns u := by
    intro u hut
    simp [hσ', State.pushCompleted, State.setTxn, State.checkOutTimestamp, hut]
  have hcases : ∀ {u y}, σ'.txns u = some y → (u = t ∧ done = y) ∨ u ≠ t ∧ σ.txns u = some y :=
    State.update_eq_some
  have hforeign : ∀ {u y a}, u ≠ t → σ.txns u = some y → a ∈ y.undoBuffer → a ∉ txn.undoBuffer := by
    intro u y a hut hu ha ha'
    exact hut (h.buffer_unique hu ht ha ha')
  have hclock : ∀ {u y}, σ.txns u = some y → u < σ'.time := by
    intro u y hu
    exact Nat.lt_succ_of_lt (h.txn_lt hu)
  refine { h with
    txn_lt := ?_, finish := ?_, running_lt := ?_, running_of_active := ?_, cached_le_time := ?_,
    buffer_lt := ?_, buffer_timestamp := ?_, buffer_unique := ?_, buffer_used := ?_,
    chain_record := ?_, chain_owner := ?_, chain_sorted := ?_, installed_of_active := ?_,
    queues_nodup := ?_, queues_finished := ?_ }
  · intro u y hu
    obtain ⟨rfl, -⟩ | ⟨-, hu⟩ := hcases hu
    · exact hclock ht
    · exact hclock hu
  · intro u y hu
    obtain ⟨rfl, rfl⟩ | ⟨hut, hu⟩ := hcases hu
    · exact .inr ⟨σ.time, hfin, h.txn_lt ht, Nat.lt_succ_self _⟩
    · rcases h.finish hu with hid | ⟨f, hf, htf, hft⟩
      · exact .inl hid
      · exact .inr ⟨f, hf, htf, Nat.lt_succ_of_lt hft⟩
  · intro r hr
    exact Nat.lt_succ_of_lt (h.running_lt r hr)
  · intro u y hu hy
    obtain ⟨rfl, rfl⟩ | ⟨hut, hu⟩ := hcases hu
    · simp [hfin] at hy
    · exact h.running_of_active hu hy
  · exact Nat.le_succ_of_le h.cached_le_time
  · intro u y a hu ha
    obtain ⟨rfl, rfl⟩ | ⟨hut, hu⟩ := hcases hu
    · exact h.buffer_lt ht (hbuf ▸ ha)
    · exact h.buffer_lt hu ha
  · intro u y a hu ha
    obtain ⟨rfl, rfl⟩ | ⟨hut, hu⟩ := hcases hu
    · rw [hin (hbuf ▸ ha), hfin]
    · rw [hout (hforeign hut hu ha), h.buffer_timestamp hu ha]
  · intro u v y z a hu hv hay haz
    obtain ⟨rfl, rfl⟩ | ⟨hut, hx⟩ := hcases hu
    · obtain ⟨rfl, -⟩ | ⟨hvt, hv⟩ := hcases hv
      · rfl
      · exact absurd (hbuf ▸ hay) (hforeign hvt hv haz)
    · obtain ⟨rfl, rfl⟩ | ⟨-, hv⟩ := hcases hv
      · exact absurd (hbuf ▸ haz) (hforeign hut hx hay)
      · exact h.buffer_unique hx hv hay haz
  · intro u y a hu ha hsome
    rw [(hrec a).2] at hsome
    rw [(hrec a).1]
    obtain ⟨rfl, rfl⟩ | ⟨hut, hu⟩ := hcases hu
    · exact h.buffer_used ht (hbuf ▸ ha) hsome
    · exact h.buffer_used hu ha hsome
  · intro slot a ha
    rw [(hrec a).1, (hrec a).2]
    exact h.chain_record ha
  · intro slot a ha
    obtain ⟨u, x, hx, hax, hwhere⟩ := h.chain_owner ha
    by_cases hut : u = t
    · subst hut
      obtain rfl : txn = x := by simpa [ht] using hx
      exact ⟨u, done, hself, hbuf ▸ hax, .inr (.inl mem_cons_self)⟩
    · refine ⟨u, x, (hother hut).trans hx, hax, ?_⟩
      rcases hwhere with hwhere | hwhere | hwhere
      · exact .inl hwhere
      · exact .inr (.inl (mem_cons_of_mem _ hwhere))
      · exact .inr (.inr hwhere)
  · intro slot
    refine (h.chain_sorted slot).imp_of_mem ?_
    intro a b ha hb hab
    by_cases hat : a ∈ txn.undoBuffer
    · by_cases hbt : b ∈ txn.undoBuffer
      · simp [hin hat, hin hbt]
      · -- what stands behind the own records is stamped with a time in the past
        rw [hin hat, hout hbt]
        rw [h.buffer_timestamp ht hat, hid] at hab
        rcases h.chain_timestamp hb with ⟨u, y, -, -, hts⟩ | ⟨c, hc, hlt⟩
        · rw [hts, Timestamp.precedes_txnId_txnId] at hab
          exact absurd (h.mem_buffer_of_chain hact hb (hab ▸ hts)) hbt
        · simpa [hc] using hlt.le
    · by_cases hbt : b ∈ txn.undoBuffer
      · rw [h.buffer_timestamp ht hbt, hid] at hab
        cases hts : (σ.undo a).timestamp with
        | time c => simp [hts] at hab
        | txnId u =>
          rw [hts, Timestamp.precedes_txnId_txnId] at hab
          exact absurd (h.mem_buffer_of_chain hact ha (hab ▸ hts)) hat
      · rwa [hout hat, hout hbt]
  · intro u y a hu hy ha hsome
    rw [(hrec a).2] at hsome
    rw [(hrec a).1]
    obtain ⟨rfl, rfl⟩ | ⟨hut, hu⟩ := hcases hu
    · simp [hfin] at hy
    · exact h.installed_of_active hu hy ha hsome
  · have hnot := h.active_notMem_queues hact
    have hnodup := h.queues_nodup
    exact nodup_cons.mpr ⟨hnot, hnodup⟩
  · intro u hu
    by_cases hut : u = t
    · exact ⟨done, σ.time, hut ▸ hself, hfin⟩
    · rcases mem_cons.mp hu with rfl | hu
      · exact absurd rfl hut
      · obtain ⟨x, f, hx, hxf⟩ := h.queues_finished u hu
        exact ⟨x, f, (hother hut).trans hx, hxf⟩

end

/-- The data of the tuples may change, as long as chains stay and no unused
slot becomes allocated. -/
theorem setData (hchain : ∀ slot, (tuples slot).chain = (σ.tuples slot).chain)
    (halloc : ∀ slot, (tuples slot).allocated = true → (σ.tuples slot).allocated = true) :
    Consistent pending { σ with tuples := tuples } :=
  { h with
    chain_record := fun slot a ha => h.chain_record (hchain slot ▸ ha)
    chain_owner := fun slot a ha => h.chain_owner (hchain slot ▸ ha)
    chain_sorted := fun slot => (hchain slot).symm ▸ h.chain_sorted slot
    installed_of_active := fun t txn a ht hfin ha hsome =>
      (hchain (σ.undo a).slot).symm ▸ h.installed_of_active ht hfin ha hsome
    unused_free := fun slot hunused => by
      obtain ⟨hnil, hfree⟩ := h.unused_free hunused
      refine ⟨(hchain slot).trans hnil, ?_⟩
      by_contra hne
      rw [halloc slot (by simpa using hne)] at hfree
      cases hfree }

/-- Tables may grow: the search loop hands out unused slots. -/
theorem setTables {tables : Nat → DataTable}
    (hgrow : ∀ slot, State.Unused { σ with tables := tables } slot → σ.Unused slot) :
    Consistent pending { σ with tables := tables } :=
  { h with
    buffer_used := fun _ _ _ ht ha hsome hunused =>
      h.buffer_used ht ha hsome (hgrow _ hunused)
    unused_free := fun slot hunused => h.unused_free (hgrow slot hunused) }

end

end Consistent

end Terrier
