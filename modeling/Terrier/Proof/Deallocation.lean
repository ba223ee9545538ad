import Terrier.Proof.Concurrent
import Terrier.Proof.CollectorUnseen

/-!
When contexts of finished transactions are deleted. The collector keeps one timestamp for its
queue. The records of a queued transaction were in chains only before that moment, and a context
is deleted only when every running transaction began after it.
-/

namespace Terrier

open List State

variable {V : Type} {cfg : Config} {σ σ' : State V}

/-- The pass under way has put transactions into the deallocation queue and has
not yet taken the timestamp for them. -/
def Collector.Unmarked : Collector → Prop
  | .unlink _ pass => 0 < pass.txnsProcessed
  | .records _ pass _ _ _ => 0 < pass.txnsProcessed
  | .mark txnsUnlinked => 0 < txnsUnlinked
  | .idle => False
  | .readHorizon => False
  | .deallocate _ => False
  | .splice _ => False

/-- The address `a` belonged to transaction `t`, and was still in a chain, when
the clock stood at `moment`. -/
structure LastSeen (moment t a : Nat) (σ : State V) (pc : Collector) : Prop where
  past : moment ≤ σ.time
  used : a < σ.nextUndo
  owner : ∀ ⦃u txn⦄, σ.txns u = some txn → a ∈ txn.undoBuffer → u = t
  marked : t ∈ σ.txnsToDeallocate → moment ≤ σ.lastUnlinked ∨ pc.Unmarked

namespace LastSeen

variable {moment t a : Nat} {pc : Collector}

theorem start (heng : ConcurrentEngine σ pc) {slot : TupleSlot}
    (ha : a ∈ (σ.tuples slot).chain) : ∃ t, LastSeen σ.time t a σ pc := by
  have hcons := heng.engine.consistent
  obtain ⟨t, txn, ht, hbuf, -⟩ := hcons.chain_owner ha
  refine ⟨t, le_rfl, hcons.buffer_lt ht hbuf, ?_, ?_⟩
  · intro u y hu hau
    exact hcons.buffer_unique hu ht hau hbuf
  · intro hqueue
    exact absurd ha (hcons.deallocated_unreachable hqueue ht hbuf slot)

theorem client (h : LastSeen moment t a σ pc) (hstep : ClientStep σ σ') :
    LastSeen moment t a σ' pc := by
  refine ⟨h.past.trans hstep.time, h.used.trans_le hstep.nextUndo, ?_, ?_⟩
  · intro u txn hu ha
    rcases hstep.buffer hu ha with hge | ⟨x, hx, hax⟩
    · exact absurd h.used (not_lt.mpr hge)
    · exact h.owner hx hax
  · rw [hstep.deallocate, hstep.lastUnlinked]
    exact h.marked

theorem keep {pc' : Collector} (h : LastSeen moment t a σ pc) (htime : σ.time ≤ σ'.time)
    (hnext : σ'.nextUndo = σ.nextUndo) (htxns : ∀ u txn, σ'.txns u = some txn → σ.txns u = some txn)
    (hmark : t ∈ σ'.txnsToDeallocate → moment ≤ σ'.lastUnlinked ∨ pc'.Unmarked) :
    LastSeen moment t a σ' pc' :=
  ⟨h.past.trans htime, by rw [hnext]; exact h.used, fun u txn hu => h.owner (htxns u txn hu), hmark⟩

theorem popTxn {oldest u : Nat} {pass : UnlinkPass}
    (h : LastSeen moment t a σ (.unlink oldest pass)) :
    LastSeen moment t a (popTxn oldest pass u σ).1 (popTxn oldest pass u σ).2 := by
  unfold Terrier.popTxn
  cases σ.txns u with
  | none => exact h
  | some txn =>
    dsimp only
    split_ifs
    · refine h.keep le_rfl rfl ?_ (fun hqueue => Or.inr (Nat.succ_pos _))
      intro v x hv
      by_cases hvu : v = u
      · simp [deleteTxn, hvu] at hv
      · simpa [deleteTxn, hvu] using hv
    · exact h.keep le_rfl rfl (fun _ _ => id) h.marked
    · exact h.keep le_rfl rfl (fun _ _ => id) h.marked

theorem collector (h : LastSeen moment t a σ pc) :
    LastSeen moment t a (collectStep σ pc).1 (collectStep σ pc).2 := by
  cases pc with
  | idle => exact h.keep (Nat.le_succ _) rfl (fun _ _ => id) h.marked
  | readHorizon => exact h.keep le_rfl rfl (fun _ _ => id) h.marked
  | deallocate oldest =>
    simp only [collectStep, processDeallocateQueue]
    split_ifs
    · refine h.keep le_rfl rfl ?_ (fun hqueue => by simp at hqueue)
      intro u txn hu
      by_cases hmem : u ∈ σ.txnsToDeallocate
      · simp [hmem] at hu
      · simpa [hmem] using hu
    · exact h.keep le_rfl rfl (fun _ _ => id) h.marked
  | splice oldest =>
    refine h.keep le_rfl rfl (fun _ _ => id) (fun hqueue => ?_)
    rcases h.marked hqueue with hle | hfalse
    · exact .inl hle
    · exact hfalse.elim
  | unlink oldest pass =>
    simp only [collectStep]
    cases σ.txnsToUnlink with
    | nil => exact h.keep le_rfl rfl (fun _ _ => id) h.marked
    | cons u queue =>
      have hpopped : LastSeen moment t a { σ with txnsToUnlink := queue }
          (.unlink oldest pass) := h.keep le_rfl rfl (fun _ _ => id) h.marked
      exact hpopped.popTxn
  | records oldest pass u aborted rest =>
    cases rest with
    | nil => exact h.keep le_rfl rfl (fun _ _ => id) (fun _ => Or.inr (Nat.succ_pos _))
    | cons b rest =>
      have hsame := unlinkRecord_same oldest aborted (σ, pass.visitedSlots) b
      simp only [collectStep]
      rw [hsame]
      exact h.keep le_rfl rfl (fun _ _ => id) h.marked
  | mark txnsUnlinked =>
    simp only [collectStep]
    split_ifs with hpos
    · exact h.keep (Nat.le_succ _) rfl (fun _ _ => id) (fun _ => Or.inl h.past)
    · refine h.keep le_rfl rfl (fun _ _ => id) (fun hqueue => ?_)
      rcases h.marked hqueue with hle | hunmarked
      · exact .inl hle
      · exact absurd hunmarked hpos

theorem steps {s s' : State V × Collector} (hsteps : ConcurrentSteps cfg s s')
    (heng : ConcurrentEngine s.1 s.2) (h : LastSeen moment t a s.1 s.2) :
    LastSeen moment t a s'.1 s'.2 := by
  have hboth := hsteps.invariant
    (I := fun σ pc => ConcurrentEngine σ pc ∧ LastSeen moment t a σ pc) ?_ ?_ ⟨heng, h⟩
  · exact hboth.2
  · rintro σ pc e σ' ⟨heng, h⟩ hstep hclient
    exact ⟨heng.client hstep hclient,
      h.client (.of_transition heng.engine.consistent hstep hclient)⟩
  · rintro σ pc ⟨heng, h⟩
    exact ⟨heng.collector, h.collector⟩

end LastSeen

/-- Who is in the set of running transactions: those that run, and those whose
last log record waits to be serialized. -/
structure Waiting (σ : State V) : Prop where
  running : ∀ r ∈ σ.currRunningTxns, (∃ txn, σ.activeTxn r = some txn) ∨
    ∃ record ∈ σ.flushQueue.flatten, record.serializedTxn = some r
  last_le : σ.lastUnlinked ≤ σ.time

variable {txn : TransactionContext V}

namespace Waiting

variable {pending : List Nat} {pc : Collector}

theorem step (h : Waiting σ) (hlast : σ'.lastUnlinked ≤ σ'.time)
    (hrunning : ∀ r ∈ σ'.currRunningTxns, r ∈ σ.currRunningTxns ∨ ∃ txn, σ'.activeTxn r = some txn)
    (hact : ∀ r txn, r ∈ σ'.currRunningTxns → σ.activeTxn r = some txn →
      (∃ x, σ'.activeTxn r = some x) ∨
        ∃ record ∈ σ'.flushQueue.flatten, record.serializedTxn = some r)
    (hflush : ∀ record ∈ σ.flushQueue.flatten, ∀ r ∈ σ'.currRunningTxns,
      record.serializedTxn = some r → record ∈ σ'.flushQueue.flatten) : Waiting σ' := by
  refine ⟨fun r hr => ?_, hlast⟩
  rcases hrunning r hr with hold | hnew
  · rcases h.running r hold with ⟨txn, htxn⟩ | ⟨record, hrec, hser⟩
    · exact hact r txn hr htxn
    · exact .inr ⟨record, hflush record hrec r hr hser, hser⟩
  · exact .inl hnew

theorem init (junk : TupleSlot → ColId → Option V) : Waiting (State.init junk) :=
  ⟨by simp [State.init], le_rfl⟩

theorem beginTransaction (hcons : Consistent pending σ) (h : Waiting σ) :
    Waiting σ.beginTransaction := by
  refine h.step (h.last_le.trans (Nat.le_succ _)) ?_ ?_ (fun _ hr _ _ _ => hr)
  · intro r hr
    rcases mem_cons.mp hr with rfl | hr
    · exact .inr ⟨⟨.txnId σ.time, [], RedoBuffer.empty, false, false⟩,
        State.activeTxn_eq_some_iff.mpr ⟨by simp [State.beginTransaction], rfl⟩⟩
    · exact .inl hr
  · intro r txn _ hr
    obtain ⟨ht, hid⟩ := State.activeTxn_eq_some_iff.mp hr
    refine Or.inl ⟨txn, State.activeTxn_eq_some_iff.mpr ⟨?_, hid⟩⟩
    simpa [State.beginTransaction, (hcons.txn_lt ht).ne] using ht

theorem write (h : Waiting σ) {t : Nat}
    (hact : σ.activeTxn t = some txn) {record : LogRecord V} {mustAbort : Bool}
    {segments : List (Segment V)} (htime : σ'.time = σ.time)
    (hlast : σ'.lastUnlinked = σ.lastUnlinked)
    (hrunning : σ'.currRunningTxns = σ.currRunningTxns)
    (hflush : σ'.flushQueue = σ.flushQueue ++ segments)
    (htxns : σ'.txns =
      Function.update σ.txns t (some (txn.afterWrite cfg record σ.nextUndo mustAbort))) :
    Waiting σ' := by
  have hid := (activeTxn_eq_some_iff.mp hact).2
  refine h.step (by rw [hlast, htime]; exact h.last_le)
    (fun r hr => Or.inl (hrunning ▸ hr)) ?_ (fun record hr _ _ _ => by simp_all)
  intro r x _ hr
  obtain ⟨hx, hxid⟩ := activeTxn_eq_some_iff.mp hr
  left
  by_cases hrt : r = t
  · subst hrt
    exact ⟨txn.afterWrite cfg record σ.nextUndo mustAbort,
      activeTxn_eq_some_iff.mpr ⟨by simp [htxns], hid⟩⟩
  · exact ⟨x, activeTxn_eq_some_iff.mpr ⟨by simpa [htxns, hrt] using hx, hxid⟩⟩

/-- The end of a transaction: its last log record is on its way, or it leaves
the set of running transactions at once. -/
theorem ended (h : Waiting σ) {t : Nat} {done : TransactionContext V}
    {tuples : TupleSlot → Tuple V} (hended : Ended σ t txn done tuples σ')
    {records : List (LogRecord V)} (hover : HandsOver σ t records σ')
    (hlast : ∃ record ∈ records, record.serializedTxn = some t) : Waiting σ' := by
  have htime : σ.time ≤ σ'.time := by
    rw [hended.time]
    exact Nat.le_succ _
  refine h.step (by rw [hended.lastUnlinked]; exact h.last_le.trans htime)
    (fun r hr => Or.inl ?_) ?_ (fun record hr _ _ _ => ?_)
  · cases hover with
    | flushed hrunning => exact hrunning ▸ hr
    | removed hrunning => exact (hrunning r hr).1
  · intro r x hr hx
    by_cases hrt : r = t
    · subst hrt
      cases hover with
      | flushed _ _ hflush =>
        obtain ⟨record, hrec, hser⟩ := hlast
        exact .inr ⟨record, hflush ▸ mem_append_right _ hrec, hser⟩
      | removed hrunning => exact absurd rfl (hrunning r hr).2
    · exact .inl ⟨x, hended.activeTxn.mpr ⟨hrt, hx⟩⟩
  · cases hover with
    | flushed _ _ hflush => exact hflush ▸ mem_append_left _ hr
    | removed _ _ hflush => exact hflush ▸ hr

theorem commit (h : Waiting σ) (t : Nat) (txn : TransactionContext V) :
    Waiting (σ.commit cfg t txn) := by
  obtain ⟨done, -, -, hended⟩ := commit_ended cfg σ t txn
  exact h.ended hended (commit_handsOver cfg σ t txn) ⟨_, mem_append_right _ mem_cons_self, rfl⟩

theorem abort (h : Waiting σ) (t : Nat) (txn : TransactionContext V) :
    Waiting (σ.abort cfg t txn) := by
  obtain ⟨done, -, -, hended⟩ := abort_ended cfg σ t txn
  exact h.ended hended (abort_handsOver cfg σ t txn) ⟨_, mem_cons_self, rfl⟩

theorem process (h : Waiting σ) : Waiting σ.process := by
  refine h.step h.last_le ?_ (fun _ txn _ htxn => Or.inl ⟨txn, htxn⟩) ?_
  · intro r hr
    exact .inl (mem_filter.mp hr).1
  · intro record hrec r hr hser
    have hgone := (mem_filter.mp hr).2
    rw [decide_eq_true_eq] at hgone
    exact absurd (mem_filterMap.mpr ⟨record, hrec, hser⟩) hgone

theorem client (hcons : Consistent pending σ) (h : Waiting σ) {e : Event V}
    (hstep : Transition cfg σ e σ') (hclient : e ≠ .performGarbageCollection) : Waiting σ' := by
  cases hstep with
  | begin => exact h.beginTransaction hcons
  | write hact hwrite => exact h.write hact rfl rfl rfl rfl (txns_written ..)
  | refuse hact href =>
    rw [refused_eq]
    exact h.write hact rfl rfl rfl rfl rfl
  | select => exact h
  | commit hact hmust => exact h.commit _ _
  | abort hact => exact h.abort _ _
  | performGarbageCollection => exact absurd rfl hclient
  | process => exact h.process

theorem popTxn_frame (oldest : Nat) (pass : UnlinkPass) (t : Nat) (σ : State V) :
    (popTxn oldest pass t σ).1.currRunningTxns = σ.currRunningTxns ∧
      (popTxn oldest pass t σ).1.flushQueue = σ.flushQueue ∧
      (popTxn oldest pass t σ).1.lastUnlinked = σ.lastUnlinked ∧
      (popTxn oldest pass t σ).1.time = σ.time := by
  unfold popTxn
  cases σ.txns t with
  | none => exact ⟨rfl, rfl, rfl, rfl⟩
  | some txn =>
    dsimp only
    split_ifs <;> exact ⟨rfl, rfl, rfl, rfl⟩

theorem collectStep_frame (σ : State V) (pc : Collector) :
    (collectStep σ pc).1.currRunningTxns = σ.currRunningTxns ∧
      (collectStep σ pc).1.flushQueue = σ.flushQueue ∧
      (σ.lastUnlinked ≤ σ.time →
        (collectStep σ pc).1.lastUnlinked ≤ (collectStep σ pc).1.time) := by
  cases pc with
  | idle => exact ⟨rfl, rfl, fun hle => hle.trans (Nat.le_succ _)⟩
  | readHorizon | splice oldest => exact ⟨rfl, rfl, id⟩
  | deallocate oldest =>
    simp only [collectStep, processDeallocateQueue]
    split_ifs <;> exact ⟨rfl, rfl, id⟩
  | unlink oldest pass =>
    simp only [collectStep]
    cases σ.txnsToUnlink with
    | nil => exact ⟨rfl, rfl, id⟩
    | cons t queue =>
      obtain ⟨hrunning, hflush, hlast, htime⟩ :=
        popTxn_frame oldest pass t { σ with txnsToUnlink := queue }
      exact ⟨hrunning, hflush, fun hle => by rwa [hlast, htime]⟩
  | records oldest pass t aborted rest =>
    cases rest with
    | nil => exact ⟨rfl, rfl, id⟩
    | cons a rest =>
      simp only [collectStep]
      rw [unlinkRecord_same]
      exact ⟨rfl, rfl, id⟩
  | mark txnsUnlinked =>
    simp only [collectStep]
    split_ifs
    · exact ⟨rfl, rfl, fun _ => Nat.le_succ _⟩
    · exact ⟨rfl, rfl, id⟩

theorem collector (hcoll : Collecting σ pc) (h : Waiting σ) : Waiting (collectStep σ pc).1 := by
  have hact := hcoll.collected.running_eq.2
  obtain ⟨hrunning, hflush, hlast⟩ := collectStep_frame σ pc
  refine h.step (hlast h.last_le) (fun r hr => Or.inl (hrunning ▸ hr)) ?_
    (fun record hrec _ _ _ => by rwa [hflush])
  intro r txn _ htxn
  exact .inl ⟨txn, (hact r).trans htxn⟩

/-- When no transaction runs and the flush queue is empty, nobody is left in
the set of running transactions. -/
theorem currRunningTxns_eq_nil (h : Waiting σ) (hidle : ∀ t, σ.activeTxn t = none)
    (hflushed : σ.flushQueue = []) : σ.currRunningTxns = [] := by
  rw [eq_nil_iff_forall_not_mem]
  intro r hr
  rcases h.running r hr with ⟨txn, htxn⟩ | ⟨record, hrec, -⟩
  · simp [hidle r] at htxn
  · simp [hflushed] at hrec

end Waiting

theorem ConcurrentRun.waiting {junk : TupleSlot → ColId → Option V} {pc : Collector}
    (hrun : ConcurrentRun cfg junk σ pc) : Waiting σ := by
  have hboth := ConcurrentSteps.invariant
    (I := fun σ pc => ConcurrentEngine σ pc ∧ Waiting σ) ?_ ?_ hrun
    ⟨ConcurrentEngine.init junk, Waiting.init junk⟩
  · exact hboth.2
  · rintro σ pc e σ' ⟨heng, h⟩ hstep hclient
    exact ⟨heng.client hstep hclient, h.client heng.engine.consistent hstep hclient⟩
  · rintro σ pc ⟨heng, h⟩
    exact ⟨heng.collector, h.collector ⟨heng.engine.consistent, heng.valid⟩⟩

structure Unlinked (σ σ' : State V) : Prop where
  completed : σ'.completedTxns = σ.completedTxns
  running : σ'.currRunningTxns = σ.currRunningTxns
  lastUnlinked : σ'.lastUnlinked = σ.lastUnlinked
  time : σ'.time = σ.time

namespace Unlinked

theorem records (oldest : Nat) (aborted : Bool) (buffer : List Nat) (s : State V × List TupleSlot) :
    State.SameButTuples s.1 (buffer.foldl (State.unlinkRecord oldest aborted) s).1 := by
  induction buffer generalizing s with
  | nil => rfl
  | cons a buffer ih =>
    exact (unlinkRecord_same oldest aborted s a).trans (ih _)

theorem unlinkTxn {oldest t f : Nat} (pass : UnlinkPass) (ht : σ.txns t = some txn)
    (hfin : txn.finishTime = .time f) (hlt : f < oldest) :
    Unlinked σ (State.unlinkTxn oldest (σ, pass) t).1 ∧
      (State.unlinkTxn oldest (σ, pass) t).2.requeue = pass.requeue ∧
      ∀ u, u ≠ t → (State.unlinkTxn oldest (σ, pass) t).1.txns u = σ.txns u := by
  have hold : (Timestamp.time oldest).newerThan txn.finishTime = true := by
    simpa [hfin] using hlt
  simp only [State.unlinkTxn, ht, hold, if_true]
  split_ifs with hro
  · exact ⟨⟨rfl, rfl, rfl, rfl⟩, rfl, fun u hu => by simp [State.deleteTxn, hu]⟩
  · have hsame := records oldest txn.aborted txn.undoBuffer (σ, pass.visitedSlots)
    rw [hsame]
    exact ⟨⟨rfl, rfl, rfl, rfl⟩, rfl, fun _ _ => rfl⟩

theorem unlinkLoop {oldest : Nat} {queue : List Nat} (pass : UnlinkPass) (hnodup : queue.Nodup)
    {σ : State V}
    (hold : ∀ t ∈ queue, ∃ txn f, σ.txns t = some txn ∧ txn.finishTime = .time f ∧ f < oldest) :
    Unlinked σ (State.unlinkLoop oldest queue (σ, pass)).1 ∧
      (State.unlinkLoop oldest queue (σ, pass)).2.requeue = pass.requeue := by
  induction queue generalizing σ pass with
  | nil => exact ⟨⟨rfl, rfl, rfl, rfl⟩, rfl⟩
  | cons t queue ih =>
    obtain ⟨hnot, hnodup⟩ := nodup_cons.mp hnodup
    obtain ⟨txn, f, ht, hfin, hlt⟩ := hold t mem_cons_self
    obtain ⟨hone, hrequeue, hoth⟩ :=
      unlinkTxn (σ := { σ with txnsToUnlink := queue }) pass ht hfin hlt
    have hrest : ∀ u ∈ queue, ∃ txn f, (State.unlinkTxn oldest
        ({ σ with txnsToUnlink := queue }, pass) t).1.txns u = some txn ∧
        txn.finishTime = .time f ∧ f < oldest := by
      intro u hu
      obtain ⟨x, g, hx, hg⟩ := hold u (mem_cons_of_mem t hu)
      have hut : u ≠ t := fun heq => hnot (heq ▸ hu)
      exact ⟨x, g, (hoth u hut).trans hx, hg⟩
    obtain ⟨hloop, hrequeue'⟩ := ih _ hnodup hrest
    exact ⟨⟨hloop.completed.trans hone.completed, hloop.running.trans hone.running,
      hloop.lastUnlinked.trans hone.lastUnlinked, hloop.time.trans hone.time⟩,
      hrequeue'.trans hrequeue⟩

end Unlinked

/-- Without running transactions the horizon of a pass is the current time, so
that the whole deallocation queue goes. -/
theorem deallocates_all (hrunning : σ.currRunningTxns = []) (hlast : σ.lastUnlinked ≤ σ.time) :
    σ.checkOutTimestamp.cacheOldest.cachedOldestTxnStartTime = σ.time + 1 ∧
      σ.checkOutTimestamp.cacheOldest.processDeallocateQueue (σ.time + 1) =
        { σ.checkOutTimestamp.cacheOldest with
          txns := fun t => if t ∈ σ.txnsToDeallocate then none else σ.txns t
          txnsToDeallocate := [] } := by
  constructor
  · simp [cacheOldest, oldestTransactionStartTime, checkOutTimestamp, hrunning]
  · have hnewer : (Timestamp.time (σ.time + 1)).newerThan (.time σ.lastUnlinked) = true := by
      simp only [Timestamp.newerThan_time_time, decide_eq_true_eq]
      omega
    have hsame : σ.checkOutTimestamp.cacheOldest.lastUnlinked = σ.lastUnlinked := rfl
    simp only [processDeallocateQueue, hsame, hnewer, if_true]
    rfl

/-- One pass without running transactions unlinks everything, and deallocates
everything that was unlinked before. -/
theorem performGarbageCollection_drains (hcons : Consistent [] σ)
    (hrunning : σ.currRunningTxns = []) (hlast : σ.lastUnlinked ≤ σ.time) :
    σ.performGarbageCollection.txnsToUnlink = [] ∧ σ.performGarbageCollection.completedTxns = [] ∧
      σ.performGarbageCollection.currRunningTxns = [] ∧
      σ.performGarbageCollection.lastUnlinked ≤ σ.performGarbageCollection.time ∧
      (σ.completedTxns = [] → σ.txnsToUnlink = [] →
        σ.performGarbageCollection.txnsToDeallocate = []) := by
  obtain ⟨holdest, hdealloc⟩ := deallocates_all hrunning hlast
  have hcons' := hcons.checkOutTimestamp.cacheOldest.processDeallocateQueue (σ.time + 1)
  simp only [performGarbageCollection, holdest]
  set start := σ.checkOutTimestamp.cacheOldest.processDeallocateQueue (σ.time + 1) with hstart
  have htime : start.time = σ.time + 1 := by
    rw [hdealloc]
    rfl
  have hnodup : start.spliceCompleted.txnsToUnlink.Nodup :=
    (nodup_append.mp (nodup_append.mp hcons'.queues_nodup).1).1
  have hold : ∀ t ∈ start.spliceCompleted.txnsToUnlink, ∃ txn f,
      start.spliceCompleted.txns t = some txn ∧ txn.finishTime = .time f ∧ f < σ.time + 1 := by
    intro t ht
    obtain ⟨txn, f, htxn, hfin⟩ := hcons'.queues_finished t
      (mem_append_left _ (mem_append_left _ ht))
    refine ⟨txn, f, htxn, hfin, ?_⟩
    rcases hcons'.finish htxn with hid | ⟨g, hg, -, hlt⟩
    · rw [hfin] at hid
      cases hid
    · obtain rfl := Timestamp.time.inj (hfin.symm.trans hg)
      exact hlt.trans_eq htime
  obtain ⟨hloop, hrequeue⟩ := Unlinked.unlinkLoop UnlinkPass.start hnodup hold
  have hrunning' : start.spliceCompleted.currRunningTxns = [] := by
    rw [hdealloc]
    exact hrunning
  have hlast' : start.spliceCompleted.lastUnlinked ≤ start.spliceCompleted.time := by
    rw [hdealloc]
    exact hlast.trans (Nat.le_succ _)
  have hempty : σ.completedTxns = [] → σ.txnsToUnlink = [] →
      (unlinkLoop (σ.time + 1) start.spliceCompleted.txnsToUnlink
        (start.spliceCompleted, UnlinkPass.start)).1.txnsToDeallocate = [] := by
    intro hcompl hunlink
    have hqueue : start.spliceCompleted.txnsToUnlink = [] := by
      rw [hdealloc]
      simp [spliceCompleted, cacheOldest, checkOutTimestamp, hcompl, hunlink]
    rw [hqueue, hdealloc]
    rfl
  simp only [processUnlinkQueue, hrequeue]
  split_ifs
  · exact ⟨rfl, hloop.completed, hloop.running.trans hrunning', Nat.le_succ _, hempty⟩
  · refine ⟨rfl, hloop.completed, hloop.running.trans hrunning', ?_, hempty⟩
    rw [hloop.lastUnlinked, hloop.time]
    exact hlast'

/-- Whenever `ProcessDeallocateQueue` deletes a context, every running transaction began after its
undo records had left the version chains. And when no transaction runs and nothing waits to be
serialized, two passes empty the queues. -/
theorem safe_deallocation {junk : TupleSlot → ColId → Option V} {pc : Collector}
    (hrun : ConcurrentRun cfg junk σ pc) :
    (∀ ⦃τ oldest t txn r a slot⦄, ConcurrentSteps cfg (σ, pc) (τ, .deallocate oldest) →
      τ.txns t = some txn → (collectStep τ (.deallocate oldest)).1.txns t = none →
      a ∈ txn.undoBuffer → a ∈ (σ.tuples slot).chain → r ∈ τ.currRunningTxns → σ.time < r) ∧
    (pc = .idle → (∀ t, σ.activeTxn t = none) → σ.flushQueue = [] →
      σ.performGarbageCollection.performGarbageCollection.txnsToUnlink = [] ∧
        σ.performGarbageCollection.performGarbageCollection.txnsToDeallocate = []) := by
  have hengine := hrun.engine
  constructor
  · intro τ oldest t txn r a slot hsteps ht hdeleted ha hchain hr
    obtain ⟨u, hseen⟩ := LastSeen.start hengine hchain
    have hlater := LastSeen.steps hsteps hengine hseen
    obtain rfl := hlater.owner ht ha
    have hengine' := hsteps.engine hengine
    have hcached : oldest = τ.cachedOldestTxnStartTime := hengine'.valid
    have hle := hengine'.engine.consistent.cached_le_running r hr
    simp only [collectStep, State.processDeallocateQueue] at hdeleted
    split_ifs at hdeleted with hnewer
    · by_cases hqueue : t ∈ τ.txnsToDeallocate
      · rcases hlater.marked hqueue with hmarked | hfalse
        · have hmarked : σ.time ≤ τ.lastUnlinked := hmarked
          have hlt : τ.lastUnlinked < oldest := by simpa using hnewer
          change τ.cachedOldestTxnStartTime ≤ r at hle
          omega
        · exact hfalse.elim
      · simp [hqueue, ht] at hdeleted
    · rw [ht] at hdeleted
      cases hdeleted
  · rintro rfl hidle hflushed
    have hwaiting := hrun.waiting
    have hrunning := hwaiting.currRunningTxns_eq_nil hidle hflushed
    obtain ⟨hunlink, hcompleted, hrunning', hlast', -⟩ :=
      performGarbageCollection_drains hengine.engine.consistent hrunning hwaiting.last_le
    have hcons' := hengine.engine.performGarbageCollection.consistent
    obtain ⟨hunlink', -, -, -, hdeallocate⟩ :=
      performGarbageCollection_drains hcons' hrunning' hlast'
    exact ⟨hunlink', hdeallocate hcompleted hunlink⟩

def committedInsert : List (Action Nat) :=
  [.begin, .insert 0 0 (oneValue (some 10)), .commit 0, .process]

theorem committedInsert_runs : (execute oneColumn committedInsert
    (State.init (fun _ _ => none))).isSome = true := by
  decide

/-- The context of the insert is unlinked by one pass and, after transaction 4
has begun, deleted by the next. -/
theorem safe_deallocation_of_insert : ∃ (σ τ : State Nat) (txn : TransactionContext Nat),
      ConcurrentRun oneColumn (fun _ _ => none) σ .idle ∧
      ConcurrentSteps oneColumn (σ, .idle) (τ, .deallocate 4) ∧ τ.txns 0 = some txn ∧
      txn.undoBuffer = [0] ∧ (σ.tuples ⟨0, 0, 0⟩).chain = [0] ∧
      (collectStep τ (.deallocate 4)).1.txns 0 = none ∧ τ.currRunningTxns = [4] ∧ σ.time < 4 ∧
      σ.performGarbageCollection.performGarbageCollection.txnsToDeallocate = [] := by
  have hrun := (execute_run committedInsert_runs).concurrent
  obtain ⟨hsafe, hdrains⟩ := safe_deallocation hrun
  have hpass : ConcurrentSteps oneColumn _ _ :=
    (Collects.performGarbageCollection ((execute oneColumn committedInsert
      (State.init (fun _ _ => none))).get committedInsert_runs).1).concurrent
  have hsteps := ((hpass.tail (.client (a := .begin) .idle rfl (by simp))).tail
    (.collector _ _)).tail (.collector _ _)
  refine ⟨_, _, _, hrun, hsteps, rfl, rfl, rfl, rfl, rfl, ?_, ?_⟩
  · exact @hsafe _ 4 0 _ 4 0 ⟨0, 0, 0⟩ hsteps rfl rfl (mem_singleton_self 0)
      (mem_singleton_self 0) (mem_singleton_self 4)
  · exact (hdrains rfl (fun t => by cases t <;> rfl) rfl).2

end Terrier
