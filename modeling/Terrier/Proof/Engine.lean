import Terrier.Proof.Tombstones

/-!
The invariant of the engine, through every transition: bookkeeping, deleted
slots, and that the log serializer only reports transactions that have
finished.
-/

namespace Terrier

open List State

variable {V : Type} {cfg : Config} {pending : List Nat} {σ σ' : State V}

/-- Records that make the serializer remove a transaction from the running set are in the flush
queue for finished transactions only. -/
structure Queued (σ : State V) : Prop where
  flushed : ∀ record ∈ σ.flushQueue.flatten, ∀ t, record.serializedTxn = some t →
    t < σ.time ∧ σ.activeTxn t = none
  staged : ∀ ⦃t txn⦄, σ.activeTxn t = some txn → ∀ record ∈ txn.redoBuffer.records,
    record.serializedTxn = none

variable {txn : TransactionContext V} {t : Nat}

namespace Queued

theorem init (junk : TupleSlot → ColId → Option V) : Queued (State.init junk) :=
  ⟨by simp [State.init], by simp [State.init, State.activeTxn]⟩

theorem step (h : Queued σ) (htime : σ.time ≤ σ'.time)
    (hflush : ∀ record ∈ σ'.flushQueue.flatten, record ∈ σ.flushQueue.flatten ∨
      ∀ t, record.serializedTxn = some t → t < σ'.time ∧ σ'.activeTxn t = none)
    (hact : ∀ t txn, σ'.activeTxn t = some txn → (σ.time ≤ t ∧ txn.redoBuffer.records = []) ∨
      ∃ x, σ.activeTxn t = some x ∧ ∀ record ∈ txn.redoBuffer.records,
        record ∈ x.redoBuffer.records ∨ record.serializedTxn = none) :
    Queued σ' where
  flushed record hrec t ht := by
    rcases hflush record hrec with hold | hnew
    · obtain ⟨hlt, hnone⟩ := h.flushed record hold t ht
      refine ⟨lt_of_lt_of_le hlt htime, ?_⟩
      by_contra hne
      obtain ⟨txn, htxn⟩ := Option.ne_none_iff_exists'.mp hne
      rcases hact t txn htxn with ⟨hge, -⟩ | ⟨x, hx, -⟩
      · exact absurd hlt (not_lt.mpr hge)
      · simp [hnone] at hx
    · exact hnew t ht
  staged t txn htxn record hrec := by
    rcases hact t txn htxn with ⟨-, hnil⟩ | ⟨x, hx, hrecs⟩
    · simp [hnil] at hrec
    · rcases hrecs record hrec with hold | hnone
      · exact h.staged hx record hold
      · exact hnone

theorem beginTransaction (h : Queued σ) : Queued σ.beginTransaction := by
  refine h.step (Nat.le_succ _) (fun record hrec => Or.inl hrec) ?_
  intro t txn htxn
  obtain ⟨rfl, rfl⟩ | ⟨-, hold⟩ := activeTxn_update rfl htxn
  · exact .inl ⟨le_rfl, rfl⟩
  · exact .inr ⟨txn, hold, fun _ h => Or.inl h⟩

/-- Staging a write puts nothing into the log that reports a transaction. -/
theorem stage (h : Queued σ) (hact : σ.activeTxn t = some txn) {record : LogRecord V}
    (hopen : record.serializedTxn = none) {a : Nat} {mustAbort : Bool} (htime : σ'.time = σ.time)
    (htxns : σ'.txns = Function.update σ.txns t (some (txn.afterWrite cfg record a mustAbort)))
    (hflush : σ'.flushQueue = σ.flushQueue ++ (txn.stage cfg record).2) : Queued σ' := by
  have hmem : ∀ r ∈ (txn.stage cfg record).2.flatten ++
      (txn.afterWrite cfg record a mustAbort).redoBuffer.records,
      r ∈ txn.redoBuffer.records ∨ r.serializedTxn = none := by
    intro r hr
    rcases RedoBuffer.newEntry_mem hr with hold | rfl
    · exact .inl hold
    · exact .inr hopen
  refine h.step htime.ge ?_ ?_
  · intro r hr
    rw [hflush, flatten_append] at hr
    rcases mem_append.mp hr with hr | hr
    · exact .inl hr
    · refine Or.inr (fun u hu => ?_)
      rcases hmem r (mem_append_left _ hr) with hold | hnone
      · simp [h.staged hact r hold] at hu
      · simp [hnone] at hu
  · intro u x hx
    obtain ⟨rfl, rfl⟩ | ⟨-, hold⟩ := activeTxn_update htxns hx
    · exact .inr ⟨txn, hact, fun r hr => hmem r (mem_append_right _ hr)⟩
    · exact .inr ⟨x, hold, fun r hr => Or.inl hr⟩

theorem ended (hcons : Consistent pending σ) (h : Queued σ) (hact : σ.activeTxn t = some txn)
    {done : TransactionContext V} {tuples : TupleSlot → Tuple V}
    (hended : Ended σ t txn done tuples σ') {records : List (LogRecord V)}
    (hover : HandsOver σ t records σ')
    (hrecs : ∀ r ∈ records, r ∈ txn.redoBuffer.records ∨ r.serializedTxn = some t) :
    Queued σ' := by
  have hlt := hcons.txn_lt (activeTxn_eq_some_iff.mp hact).1
  have hdone : σ'.activeTxn t = none := by
    by_contra hne
    obtain ⟨x, hx⟩ := Option.ne_none_iff_exists'.mp hne
    exact (hended.activeTxn.mp hx).1 rfl
  have htime := hended.time
  refine h.step (by omega) ?_ ?_
  · intro r hr
    cases hover with
    | flushed _ _ hflush =>
      rw [hflush, mem_append] at hr
      refine hr.imp_right fun hr u hu => ?_
      rcases hrecs r hr with hstage | hlast
      · simp [h.staged hact r hstage] at hu
      · obtain rfl : t = u := by simpa [hlast] using hu
        exact ⟨by omega, hdone⟩
    | removed _ _ hflush => exact .inl (hflush ▸ hr)
  · intro u x hx
    exact .inr ⟨x, (hended.activeTxn.mp hx).2, fun r hr => Or.inl hr⟩

theorem commit (hcons : Consistent pending σ) (h : Queued σ) (hact : σ.activeTxn t = some txn) :
    Queued (σ.commit cfg t txn) := by
  obtain ⟨done, -, -, hended⟩ := commit_ended cfg σ t txn
  apply ended hcons h hact hended (commit_handsOver cfg σ t txn)
  exact forall_mem_append.mpr ⟨fun r hr => .inl hr, forall_mem_singleton.mpr (.inr rfl)⟩

theorem abort (hcons : Consistent pending σ) (h : Queued σ) (hact : σ.activeTxn t = some txn) :
    Queued (σ.abort cfg t txn) := by
  obtain ⟨done, -, -, hended⟩ := abort_ended cfg σ t txn
  apply ended hcons h hact hended (abort_handsOver cfg σ t txn)
  exact fun r hr => Or.inr (mem_singleton.mp hr ▸ rfl)

theorem collected (hstep : Collected σ σ') (h : Queued σ) : Queued σ' := by
  have hsame : ∀ {τ : State V}, σ.time ≤ τ.time → τ.flushQueue = σ.flushQueue →
      (∀ t, τ.activeTxn t = σ.activeTxn t) → Queued τ := by
    intro τ htime hflush hact
    refine h.step htime (fun r hr => Or.inl (hflush ▸ hr)) (fun t txn ht => Or.inr ?_)
    exact ⟨txn, (hact t).symm.trans ht, fun r hr => Or.inl hr⟩
  cases hstep with
  | administer _ _ _ htime _ _ hact hflush => exact hsame htime hflush hact
  | truncate slot => exact hsame le_rfl rfl (fun _ => rfl)
  | reclaim =>
    rw [reclaimSlotIfDeleted_same]
    exact hsame le_rfl rfl (fun _ => rfl)

theorem process (h : Queued σ) : Queued σ.process where
  flushed record hrec := by simp [State.process, State.removeTransactions] at hrec
  staged := h.staged

end Queued

/-- A record without a table marks its transaction as one that must abort. So the collector finds
only installed records in the buffers of committed transactions. -/
structure Marked (σ : State V) : Prop where
  installed : ∀ ⦃t txn a⦄, σ.txns t = some txn → txn.mustAbort = false → a ∈ txn.undoBuffer →
    (σ.undo a).table.isSome
  committed : ∀ ⦃t txn f⦄, σ.txns t = some txn → txn.finishTime = .time f →
    txn.aborted = false → txn.mustAbort = false

namespace Marked

theorem init (junk : TupleSlot → ColId → Option V) : Marked (State.init junk) :=
  ⟨by simp [State.init], by simp [State.init]⟩

theorem beginTransaction (h : Marked σ) : Marked σ.beginTransaction := by
  have hcases : ∀ {t txn}, σ.beginTransaction.txns t = some txn →
      (txn.undoBuffer = [] ∧ txn.mustAbort = false) ∨ σ.txns t = some txn := by
    intro t txn ht
    obtain ⟨-, rfl⟩ | ⟨-, ht⟩ := update_eq_some ht
    · exact .inl ⟨rfl, rfl⟩
    · exact .inr ht
  constructor
  · intro t txn a ht hmust ha
    rcases hcases ht with ⟨hnil, -⟩ | hold
    · simp [hnil] at ha
    · exact h.installed hold hmust ha
  · intro t txn f ht hfin hab
    rcases hcases ht with ⟨-, hmust⟩ | hold
    · exact hmust
    · exact h.committed hold hfin hab

theorem append (hcons : Consistent pending σ) (h : Marked σ) {next : TransactionContext V}
    (hact : σ.activeTxn t = some txn) {undoRecord : UndoRecord V}
    (htxns : σ'.txns = Function.update σ.txns t (some next))
    (hundo : σ'.undo = Function.update σ.undo σ.nextUndo undoRecord)
    (hfin : next.finishTime = txn.finishTime)
    (hbuf : next.undoBuffer = txn.undoBuffer ++ [σ.nextUndo])
    (hmark : next.mustAbort = false → txn.mustAbort = false ∧ undoRecord.table.isSome) :
    Marked σ' := by
  obtain ⟨ht, hid⟩ := activeTxn_eq_some_iff.mp hact
  have hold : ∀ {u x a}, σ.txns u = some x → x.mustAbort = false → a ∈ x.undoBuffer →
      (σ'.undo a).table.isSome := by
    intro u x a hu hmust ha
    rw [hundo, Function.update_of_ne (hcons.ne_nextUndo_of_buffer hu ha)]
    exact h.installed hu hmust ha
  constructor
  · intro u y a hu hmust ha
    rw [htxns] at hu
    obtain ⟨rfl, rfl⟩ | ⟨-, hu⟩ := update_eq_some hu
    · obtain ⟨hmust', hsome⟩ := hmark hmust
      rw [hbuf] at ha
      rcases mem_append.mp ha with ha | ha
      · exact hold ht hmust' ha
      · obtain rfl := mem_singleton.mp ha
        rw [hundo, Function.update_self]
        exact hsome
    · exact hold hu hmust ha
  · intro u y f hu hfin'
    rw [htxns] at hu
    obtain ⟨rfl, rfl⟩ | ⟨-, hu⟩ := update_eq_some hu
    · rw [hfin, hid] at hfin'
      cases hfin'
    · exact h.committed hu hfin'

theorem ended (h : Marked σ) {done : TransactionContext V} {tuples : TupleSlot → Tuple V}
    (ht : σ.txns t = some txn) (hended : Ended σ t txn done tuples σ')
    (hmust : done.mustAbort = txn.mustAbort)
    (hallow : done.aborted = false → txn.mustAbort = false) : Marked σ' := by
  constructor
  · intro u y a hu hy ha
    rw [hended.txns] at hu
    rw [hended.undo, undo_finished_table]
    obtain ⟨rfl, rfl⟩ | ⟨-, hu⟩ := update_eq_some hu
    · exact h.installed ht (hmust.symm.trans hy) (hended.undoBuffer ▸ ha)
    · exact h.installed hu hy ha
  · intro u y f hu hfin hab
    rw [hended.txns] at hu
    obtain ⟨rfl, rfl⟩ | ⟨-, hu⟩ := update_eq_some hu
    · exact hmust.trans (hallow hab)
    · exact h.committed hu hfin hab

theorem collected (hstep : Collected σ σ') (h : Marked σ) : Marked σ' := by
  have hsame : ∀ {τ : State V}, (∀ t txn, τ.txns t = some txn → σ.txns t = some txn) →
      τ.undo = σ.undo → Marked τ := by
    intro τ htxns hundo
    exact ⟨fun t txn a ht => hundo ▸ h.installed (htxns t txn ht),
      fun t txn f ht => h.committed (htxns t txn ht)⟩
  cases hstep with
  | administer _ hundo _ _ _ htxns => exact hsame htxns hundo
  | truncate slot => exact hsame (fun _ _ => id) rfl
  | reclaim =>
    rw [reclaimSlotIfDeleted_same]
    exact hsame (fun _ _ => id) rfl

end Marked

structure Engine (pending : List Nat) (σ : State V) : Prop where
  consistent : Consistent pending σ
  tombstones : Tombstones σ
  queued : Queued σ
  marked : Marked σ

namespace Engine

theorem init (junk : TupleSlot → ColId → Option V) : Engine [] (State.init junk) :=
  ⟨Consistent.init junk, Tombstones.init junk, Queued.init junk, Marked.init junk⟩

theorem serializedTxn_logRecord (op : WriteOp V) (t : Nat) (slot : TupleSlot) :
    (op.logRecord t slot).serializedTxn = none := by
  cases op <;> rfl

/-- Every step of a transaction and of the log serializer keeps the invariant,
also in the middle of a garbage collection pass. -/
theorem transition (h : Engine pending σ) {e : Event V} (hstep : Transition cfg σ e σ')
    (hgc : e ≠ .performGarbageCollection) : Engine pending σ' := by
  obtain ⟨hcons, htomb, hqueued, hmarked⟩ := h
  cases hstep with
  | begin =>
    exact ⟨hcons.beginTransaction, htomb.beginTransaction, hqueued.beginTransaction,
      hmarked.beginTransaction⟩
  | write hact hwrite =>
    exact ⟨hcons.written hact hwrite, htomb.written hcons hact hwrite,
      hqueued.stage hact (serializedTxn_logRecord _ _ _) rfl (txns_written ..) rfl,
      hmarked.append hcons hact (txns_written ..) (undo_written ..) rfl rfl
        fun hmust => ⟨hmust, rfl⟩⟩
  | refuse hact href =>
    refine ⟨hcons.refused hact _ _ _, htomb.refused hcons hact _ _ _, ?_,
      hmarked.append hcons hact (txns_refused ..) (undo_refused ..) rfl rfl
        fun hmust => by cases hmust⟩
    rw [refused_eq]
    exact hqueued.stage hact (serializedTxn_logRecord _ _ _) rfl rfl rfl
  | select => exact ⟨hcons, htomb, hqueued, hmarked⟩
  | commit hact hmust =>
    obtain ⟨done, hsame, -, hended⟩ := commit_ended cfg σ _ _
    exact ⟨hcons.commit hact, htomb.commit hact, hqueued.commit hcons hact,
      hmarked.ended (activeTxn_eq_some_iff.mp hact).1 hended hsame (fun _ => hmust)⟩
  | abort hact =>
    obtain ⟨done, hsame, habort, hended⟩ := abort_ended cfg σ _ _
    exact ⟨hcons.abort hact, htomb.abort hcons hact, hqueued.abort hcons hact,
      hmarked.ended (activeTxn_eq_some_iff.mp hact).1 hended hsame
        (fun hne => by simp [habort] at hne)⟩
  | performGarbageCollection => exact absurd rfl hgc
  | process =>
    exact ⟨hcons.process (fun r hr t ht => (hqueued.flushed r hr t ht).2), htomb,
      hqueued.process, ⟨hmarked.installed, hmarked.committed⟩⟩

theorem performGarbageCollection (h : Engine [] σ) : Engine [] σ.performGarbageCollection where
  consistent := (Collecting.performGarbageCollection ⟨h.consistent, trivial⟩).consistent
  tombstones :=
    h.consistent.collectedRun.invariant (fun _ => Tombstones.collected) h.tombstones
  queued := h.consistent.collectedRun.invariant (fun _ => Queued.collected) h.queued
  marked := h.consistent.collectedRun.invariant (fun _ => Marked.collected) h.marked

theorem step (h : Engine [] σ) {e : Event V} (hstep : Transition cfg σ e σ') : Engine [] σ' := by
  by_cases hgc : e = .performGarbageCollection
  · subst hgc
    cases hstep
    exact h.performGarbageCollection
  · exact h.transition hstep hgc

end Engine

/-- Who is running after a step: a transaction that has just begun, one that
has just written, or one that was running before. -/
theorem Transition.activeTxn {e : Event V} (hstep : Transition cfg σ e σ') (hcons : Consistent [] σ)
    {u : Nat} {y : TransactionContext V} (hu : σ'.activeTxn u = some y) :
    (e = .begin u ∧ u = σ.time ∧ y = ⟨.txnId u, [], RedoBuffer.empty, false, false⟩) ∨
      ((∀ slot op result, e ≠ .write u slot op result) ∧ σ.activeTxn u = some y) ∨
      ∃ x slot op result, σ.activeTxn u = some x ∧ e = .write u slot op result ∧
        y = x.afterWrite cfg (op.logRecord u slot) σ.nextUndo (x.mustAbort || !result) := by
  have hwrit : ∀ {t : Nat} {txn : TransactionContext V} {slot : TupleSlot} {op : WriteOp V}
      {result : Bool}, σ.activeTxn t = some txn →
      σ'.txns = Function.update σ.txns t (some (txn.afterWrite cfg (op.logRecord t slot)
        σ.nextUndo (txn.mustAbort || !result))) →
      ((∀ s o r, Event.write t slot op result ≠ .write u s o r) ∧ σ.activeTxn u = some y) ∨
        ∃ x s o r, σ.activeTxn u = some x ∧ Event.write t slot op result = .write u s o r ∧
        y = x.afterWrite cfg (o.logRecord u s) σ.nextUndo (x.mustAbort || !r) := by
    intro t txn slot op result hact htxns
    obtain ⟨rfl, rfl⟩ | ⟨hut, hold⟩ := activeTxn_update htxns hu
    · exact .inr ⟨txn, slot, op, result, hact, rfl, rfl⟩
    · refine Or.inl ⟨?_, hold⟩
      rintro s o r ⟨⟩
      exact hut rfl
  cases hstep with
  | begin =>
    obtain ⟨rfl, rfl⟩ | ⟨-, hold⟩ := activeTxn_update rfl hu
    · exact .inl ⟨rfl, rfl, rfl⟩
    · exact .inr (.inl ⟨by simp, hold⟩)
  | write hact hwrite =>
    exact .inr (hwrit hact (by simp [txns_written]))
  | refuse hact href =>
    exact .inr (hwrit hact (by simp [txns_refused]))
  | select | process => exact .inr (.inl ⟨by simp, hu⟩)
  | commit hact hmust =>
    obtain ⟨done, -, -, hended⟩ := commit_ended cfg σ _ _
    exact .inr (.inl ⟨by simp, (hended.activeTxn.mp hu).2⟩)
  | abort hact =>
    obtain ⟨done, -, -, hended⟩ := abort_ended cfg σ _ _
    exact .inr (.inl ⟨by simp, (hended.activeTxn.mp hu).2⟩)
  | performGarbageCollection =>
    exact .inr (.inl ⟨by simp, (hcons.collectedRun.running_eq.2 u).symm.trans hu⟩)

theorem Run.engine {junk : TupleSlot → ColId → Option V} {h : List (Event V)}
    (hrun : Run cfg junk h σ) : Engine [] σ :=
  Run.invariant (I := fun _ σ => Engine [] σ) (Engine.init junk)
    (fun _ _ _ _ heng hstep => heng.step hstep) hrun

end Terrier
