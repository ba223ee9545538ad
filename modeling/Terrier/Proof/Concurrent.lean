import Terrier.ConcurrentSystem
import Terrier.Proof.Engine

/-!
The invariant of the engine with a concurrent collector. A step of a client
leaves alone what a collection pass has established: contexts of finished
transactions, the horizon, and the cut of the chains the pass has visited.
-/

namespace Terrier

open State

variable {V : Type} {cfg : Config} {pending : List Nat} {σ σ' : State V}

structure ClientStep (σ σ' : State V) : Prop where
  time : σ.time ≤ σ'.time
  cached : σ'.cachedOldestTxnStartTime = σ.cachedOldestTxnStartTime
  nextUndo : σ.nextUndo ≤ σ'.nextUndo
  deallocate : σ'.txnsToDeallocate = σ.txnsToDeallocate
  lastUnlinked : σ'.lastUnlinked = σ.lastUnlinked
  finished : ∀ ⦃t txn f⦄, σ.txns t = some txn → txn.finishTime = .time f → σ'.txns t = some txn
  buffer : ∀ ⦃t txn a⦄, σ'.txns t = some txn → a ∈ txn.undoBuffer → σ.nextUndo ≤ a ∨
    ∃ x, σ.txns t = some x ∧ a ∈ x.undoBuffer
  record : ∀ ⦃a⦄, a < σ.nextUndo → (σ'.undo a).slot = (σ.undo a).slot ∧
    (σ'.undo a).table = (σ.undo a).table ∧
    ((σ'.undo a).timestamp = (σ.undo a).timestamp ∨ (σ'.undo a).timestamp = .time σ.time)
  chain : ∀ ⦃slot a⦄, a ∈ (σ'.tuples slot).chain → a ∈ (σ.tuples slot).chain ∨
    ∃ t, (σ'.undo a).timestamp = .txnId t

namespace ClientStep

theorem beginTransaction (hcons : Consistent pending σ) : ClientStep σ σ.beginTransaction where
  time := Nat.le_succ _
  cached := rfl
  nextUndo := le_rfl
  deallocate := rfl
  lastUnlinked := rfl
  finished t txn f ht _ := by
    simpa [State.beginTransaction, (hcons.txn_lt ht).ne] using ht
  buffer t txn a ht ha := by
    obtain ⟨-, rfl⟩ | ⟨-, hold⟩ := State.update_eq_some ht
    · simp at ha
    · exact .inr ⟨txn, hold, ha⟩
  record a _ := ⟨rfl, rfl, .inl rfl⟩
  chain slot a ha := Or.inl ha

theorem write {t : Nat} {txn : TransactionContext V} (hact : σ.activeTxn t = some txn)
    {record : LogRecord V} {undoRecord : UndoRecord V} {mustAbort : Bool}
    (htime : σ'.time = σ.time)
    (hcache : σ'.cachedOldestTxnStartTime = σ.cachedOldestTxnStartTime)
    (hnext : σ'.nextUndo = σ.nextUndo + 1)
    (hdeallocate : σ'.txnsToDeallocate = σ.txnsToDeallocate)
    (hlast : σ'.lastUnlinked = σ.lastUnlinked)
    (htxns : σ'.txns =
      Function.update σ.txns t (some (txn.afterWrite cfg record σ.nextUndo mustAbort)))
    (hundo : σ'.undo = Function.update σ.undo σ.nextUndo undoRecord)
    (hstamp : undoRecord.timestamp = .txnId t)
    (hchain : ∀ slot, ∀ a ∈ (σ'.tuples slot).chain, a = σ.nextUndo ∨
      a ∈ (σ.tuples slot).chain) : ClientStep σ σ' := by
  obtain ⟨ht, hid⟩ := activeTxn_eq_some_iff.mp hact
  refine ⟨htime.ge, hcache, by omega, hdeallocate, hlast, ?_, ?_, ?_, ?_⟩
  · intro u x f hu hfin
    have hut : u ≠ t := by
      rintro rfl
      rw [Option.some.inj (hu.symm.trans ht), hid] at hfin
      cases hfin
    rwa [htxns, Function.update_of_ne hut]
  · intro u y a hu ha
    rw [htxns] at hu
    obtain ⟨rfl, rfl⟩ | ⟨-, hold⟩ := update_eq_some hu
    · rcases List.mem_append.mp ha with ha | ha
      · exact .inr ⟨txn, ht, ha⟩
      · exact .inl (List.mem_singleton.mp ha).ge
    · exact .inr ⟨y, hold, ha⟩
  · intro a ha
    rw [hundo, Function.update_of_ne ha.ne]
    exact ⟨rfl, rfl, .inl rfl⟩
  · intro slot a ha
    rcases hchain slot a ha with rfl | hmem
    · exact .inr ⟨t, by rw [hundo, Function.update_self, hstamp]⟩
    · exact .inl hmem

theorem ended {t : Nat} {txn done : TransactionContext V} {tuples : TupleSlot → Tuple V}
    (hact : σ.activeTxn t = some txn) (hended : Ended σ t txn done tuples σ')
    (hchain : ∀ slot, (tuples slot).chain = (σ.tuples slot).chain) : ClientStep σ σ' := by
  obtain ⟨ht, hid⟩ := activeTxn_eq_some_iff.mp hact
  refine ⟨by rw [hended.time]; exact Nat.le_succ _, hended.cached, hended.nextUndo.ge,
    hended.deallocate, hended.lastUnlinked, ?_, ?_, ?_, ?_⟩
  · intro u x f hu hfin
    have hut : u ≠ t := by
      rintro rfl
      rw [Option.some.inj (hu.symm.trans ht), hid] at hfin
      cases hfin
    rwa [hended.txns, Function.update_of_ne hut]
  · intro u y a hu ha
    rw [hended.txns] at hu
    obtain ⟨rfl, rfl⟩ | ⟨-, hold⟩ := update_eq_some hu
    · exact .inr ⟨txn, ht, hended.undoBuffer ▸ ha⟩
    · exact .inr ⟨y, hold, ha⟩
  · intro a _
    rw [hended.undo]
    refine ⟨undo_finished_slot .., undo_finished_table .., ?_⟩
    rw [undo_finished]
    split_ifs
    · exact .inr rfl
    · exact .inl rfl
  · intro slot a ha
    rw [hended.tuples, hchain] at ha
    exact .inl ha

theorem of_transition (hcons : Consistent pending σ) {e : Event V}
    (hstep : Transition cfg σ e σ') (hclient : e ≠ .performGarbageCollection) :
    ClientStep σ σ' := by
  cases hstep with
  | begin => exact beginTransaction hcons
  | write hact hwrite =>
    next t txn s _ _ _ _ =>
    refine write hact rfl rfl rfl rfl rfl (txns_written ..) (undo_written ..)
      (activeTxn_eq_some_iff.mp hact).2 ?_
    intro slot a ha
    rw [tuples_written] at ha
    by_cases hs : slot = s
    · subst hs
      simpa [hwrite.chain_eq hcons] using ha
    · exact .inr (by simpa [hs] using ha)
  | refuse hact href =>
    rw [refused_eq]
    exact write hact rfl rfl rfl rfl rfl rfl rfl (activeTxn_eq_some_iff.mp hact).2
      (fun slot a ha => Or.inr ha)
  | select | process =>
    exact ⟨le_rfl, rfl, le_rfl, rfl, rfl, fun _ _ _ ht _ => ht, fun _ txn _ ht ha =>
      Or.inr ⟨txn, ht, ha⟩, fun _ _ => ⟨rfl, rfl, .inl rfl⟩, fun _ _ ha => Or.inl ha⟩
  | commit hact hmust =>
    obtain ⟨done, -, -, hended⟩ := commit_ended cfg σ _ _
    exact ended hact hended (fun _ => rfl)
  | abort hact =>
    obtain ⟨done, -, -, hended⟩ := abort_ended cfg σ _ _
    exact ended hact hended (restored_chain σ _)
  | performGarbageCollection => exact absurd rfl hclient

/-- Chains that were cut at the horizon stay cut: what is new in them is not
committed or was committed now. -/
theorem swept (hcons : Consistent pending σ) (hstep : ClientStep σ σ')
    {visited : List TupleSlot} (hswept : Swept σ.cachedOldestTxnStartTime visited σ) :
    Swept σ.cachedOldestTxnStartTime visited σ' := by
  intro slot hslot a ha
  rcases hstep.chain ha with hold | ⟨t, hts⟩
  · have hneeded := hswept slot hslot a hold
    obtain ⟨t, txn, ht, hbuf, -⟩ := hcons.chain_owner hold
    rcases (hstep.record (hcons.buffer_lt ht hbuf)).2.2 with hsame | hnow
    · simpa [stillNeeded, hsame] using hneeded
    · have hle := hcons.cached_le_time
      simp only [stillNeeded, hnow, Timestamp.newerThan_time_time, Bool.not_eq_true',
        decide_eq_false_iff_not]
      omega
  · simp [stillNeeded, hts]

theorem valid (hcons : Consistent pending σ) (hstep : ClientStep σ σ') {pc : Collector}
    (hvalid : pc.Valid σ) : pc.Valid σ' := by
  cases pc with
  | idle => trivial
  | readHorizon => trivial
  | mark txnsUnlinked => trivial
  | deallocate oldest | splice oldest => exact hvalid.trans hstep.cached.symm
  | unlink oldest pass =>
    obtain ⟨rfl, hswept⟩ := hvalid
    exact ⟨hstep.cached.symm, hstep.swept hcons hswept⟩
  | records oldest pass t aborted rest =>
    obtain ⟨rfl, hswept, txn, done, f, ht, hab, hbuf, hfin, hlt, hdone⟩ := hvalid
    refine ⟨hstep.cached.symm, hstep.swept hcons hswept, txn, done, f, hstep.finished ht hfin, hab,
      hbuf, hfin, hlt, ?_⟩
    intro a ha hsome
    have hmem : a ∈ txn.undoBuffer := by simp [hbuf, ha]
    obtain ⟨hslot, htable, -⟩ := hstep.record (hcons.buffer_lt ht hmem)
    rw [hslot]
    exact hdone a ha (htable ▸ hsome)

end ClientStep

structure ConcurrentEngine (σ : State V) (pc : Collector) : Prop where
  engine : Engine pc.pending σ
  valid : pc.Valid σ

namespace ConcurrentEngine

theorem init (junk : TupleSlot → ColId → Option V) : ConcurrentEngine (State.init junk) .idle :=
  ⟨Engine.init junk, trivial⟩

theorem client {pc : Collector} (h : ConcurrentEngine σ pc) {e : Event V}
    (hstep : Transition cfg σ e σ') (hclient : e ≠ .performGarbageCollection) :
    ConcurrentEngine σ' pc :=
  ⟨h.engine.transition hstep hclient,
    (ClientStep.of_transition h.engine.consistent hstep hclient).valid h.engine.consistent h.valid⟩

theorem collector {pc : Collector} (h : ConcurrentEngine σ pc) :
    ConcurrentEngine (collectStep σ pc).1 (collectStep σ pc).2 := by
  have hcoll : Collecting σ pc := ⟨h.engine.consistent, h.valid⟩
  have hnext := hcoll.collectStep
  have hrun := hcoll.collected
  exact ⟨⟨hnext.consistent, hrun.invariant (fun _ => Tombstones.collected) h.engine.tombstones,
    hrun.invariant (fun _ => Queued.collected) h.engine.queued,
    hrun.invariant (fun _ => Marked.collected) h.engine.marked⟩, hnext.valid⟩

end ConcurrentEngine

theorem ConcurrentSteps.engine {s s' : State V × Collector} (hsteps : ConcurrentSteps cfg s s')
    (heng : ConcurrentEngine s.1 s.2) : ConcurrentEngine s'.1 s'.2 :=
  hsteps.invariant (fun _ _ _ _ h hstep hclient => h.client hstep hclient)
    (fun _ _ h => h.collector) heng

theorem ConcurrentRun.engine {junk : TupleSlot → ColId → Option V} {pc : Collector}
    (hrun : ConcurrentRun cfg junk σ pc) : ConcurrentEngine σ pc :=
  ConcurrentSteps.engine hrun (ConcurrentEngine.init junk)

end Terrier
