import Terrier.Proof.Engine

/-!
What the read path computes, in one expression: the tuple in place, with the
records that are too new for the reader undone. `Select` and `IsVisible` are
two loops over the same chain; both are reduced to it here.
-/

namespace Terrier

open List

variable {V : Type} {pending : List Nat} {σ σ' : State V} {slot : TupleSlot}

namespace State

def tooNew (σ : State V) (time : Nat) (a : Nat) : Bool :=
  (σ.undo a).timestamp.newerThan (.time time)

/-- Chains in which everything in front of a record that is too new is too
new as well. Sorted chains are of this kind, for every reader. -/
def Readable (σ : State V) (slot : TupleSlot) : Prop :=
  ∀ time, SortedPrefix.FrontClosed (σ.tooNew time) (σ.tuples slot).chain

def readAt (σ : State V) (time : Nat) (slot : TupleSlot) : TupleView V :=
  undoAll (((σ.tuples slot).chain.filter (σ.tooNew time)).map (fun a => (σ.undo a).delta))
    (σ.tuples slot).view

/-- What the walk down the chain arrives at: the tuple in place under a head of the reader's own,
and otherwise the records undone up to the first one that is old enough. -/
def seen (σ : State V) (start : Nat) (finishTime : Timestamp) (slot : TupleSlot) : TupleView V :=
  if σ.headTimestamp slot = some finishTime then (σ.tuples slot).view
  else
    undoAll (((σ.tuples slot).chain.takeWhile (σ.tooNew start)).map (fun a => (σ.undo a).delta))
      (σ.tuples slot).view

/-- The version a transaction sees: its own writes in place, or the version at
its start. -/
def version (σ : State V) (start : Nat) (finishTime : Timestamp) (slot : TupleSlot) : TupleView V :=
  if σ.headTimestamp slot = some finishTime then (σ.tuples slot).view else σ.readAt start slot

theorem applyDeltas_eq (σ : State V) (start : Nat) (chain : List Nat) (view : TupleView V)
    (buffer : List (ColId × Option V)) (hbuf : (buffer.map Prod.fst).Pairwise (· < ·)) :
    σ.applyDeltas start chain view.visible (ProjectedRow.loadAttrs view.attrs buffer) =
      let seen := undoAll ((chain.takeWhile (σ.tooNew start)).map (fun a => (σ.undo a).delta)) view
      (seen.visible, ProjectedRow.loadAttrs seen.attrs buffer) := by
  induction chain generalizing view with
  | nil => rfl
  | cons a chain ih =>
    by_cases hnew : σ.tooNew start a = true
    · have hcond : (σ.undo a).timestamp.newerThan (.time start) = true := hnew
      rw [takeWhile_cons_of_pos hnew, map_cons, undoAll_cons]
      simp only [applyDeltas, hcond, if_true]
      cases hdelta : (σ.undo a).delta with
      | update before =>
        have := ih ⟨view.visible, Overwrite.apply before.overwrite view.attrs⟩
        simpa [ProjectedRow.applyDelta_loadAttrs before buffer hbuf, UndoDelta.undo] using this
      | insert => exact ih ⟨false, view.attrs⟩
      | delete => exact ih ⟨true, view.attrs⟩
    · have hcond : ¬ (σ.undo a).timestamp.newerThan (.time start) = true := hnew
      rw [takeWhile_cons_of_neg hnew]
      simp [applyDeltas, hcond]

theorem applyDeltas_visible (σ : State V) (start : Nat) (chain : List Nat) (visible : Bool)
    (buffer : List (ColId × Option V)) :
    (σ.applyDeltas start chain visible buffer).1 = σ.visibilityWalk start chain visible := by
  induction chain generalizing visible buffer with
  | nil => rfl
  | cons a chain ih =>
    rw [applyDeltas, visibilityWalk]
    split
    · split <;> exact ih _ _
    · rfl

/-- A slot without versions is read in place, and so are a transaction's own writes. -/
theorem seen_of_inPlace {σ : State V} {finishTime : Timestamp}
    (h : σ.headTimestamp slot = none ∨ σ.headTimestamp slot = some finishTime) (start : Nat) :
    σ.seen start finishTime slot = (σ.tuples slot).view := by
  obtain hnone | hown := h
  · have hnil : (σ.tuples slot).chain = [] := by
      cases hchain : (σ.tuples slot).chain with
      | nil => rfl
      | cons a rest => simp [headTimestamp, hchain] at hnone
    simp [seen, hnil]
  · rw [seen, if_pos hown]

theorem selectIntoBuffer_eq (σ : State V) (start : Nat) (finishTime : Timestamp) (slot : TupleSlot)
    (outBuffer : ProjectedRow V) :
    σ.selectIntoBuffer start finishTime slot outBuffer = if (σ.tuples slot).allocated then
        ((σ.seen start finishTime slot).visible,
          ProjectedRow.loadAttrs (σ.seen start finishTime slot).attrs outBuffer.entries)
      else (false, outBuffer.entries) := by
  by_cases halloc : (σ.tuples slot).allocated = true
  · simp only [selectIntoBuffer, halloc, if_true]
    split
    case isTrue hplace =>
      rw [seen_of_inPlace hplace]
      rfl
    case isFalse hold =>
      rw [seen, if_neg (not_or.mp hold).2]
      exact applyDeltas_eq σ start (σ.tuples slot).chain (σ.tuples slot).view
        outBuffer.entries outBuffer.sorted
  · simp [selectIntoBuffer, halloc]

theorem isVisible_eq (σ : State V) (start : Nat) (finishTime : Timestamp) (slot : TupleSlot) :
    σ.isVisible start finishTime slot = (σ.seen start finishTime slot).visible := by
  rw [isVisible]
  split
  case isTrue hplace =>
    rw [seen_of_inPlace hplace]
    rfl
  case isFalse hold =>
    rw [seen, if_neg (not_or.mp hold).2, ← applyDeltas_visible _ _ _ _ []]
    exact congrArg Prod.fst (applyDeltas_eq σ start _ (σ.tuples slot).view [] .nil)

theorem seen_eq_version {σ : State V} (hread : σ.Readable slot) (start : Nat)
    (finishTime : Timestamp) : σ.seen start finishTime slot = σ.version start finishTime slot := by
  unfold seen version readAt
  rw [SortedPrefix.takeWhile_eq_filter (hread start)]

end State

theorem Consistent.readable (h : Consistent pending σ) (slot : TupleSlot) : σ.Readable slot := by
  intro time
  refine (h.chain_sorted slot).imp ?_
  intro a b hab hb
  by_contra ha
  simp only [State.tooNew, Bool.not_eq_true] at ha hb
  rw [Timestamp.newerThan_of_precedes hab ha] at hb
  cases hb

/-- The records of a running transaction are at the front of a chain. -/
theorem Consistent.own_frontClosed (hcons : Consistent pending σ) (t : Nat) (slot : TupleSlot) :
    SortedPrefix.FrontClosed (fun a => decide ((σ.undo a).timestamp = .txnId t))
      (σ.tuples slot).chain := by
  refine (hcons.chain_sorted slot).imp ?_
  intro a b hab hb
  rw [decide_eq_true_eq] at hb ⊢
  cases hts : (σ.undo a).timestamp with
  | time c => simp [hts, hb] at hab
  | txnId u =>
    rw [hts, hb, Timestamp.precedes_txnId_txnId] at hab
    rw [hab]

theorem State.headTimestamp_eq_iff {timestamp : Timestamp}
    (hclose : SortedPrefix.FrontClosed (fun a => decide ((σ.undo a).timestamp = timestamp))
      (σ.tuples slot).chain) :
    σ.headTimestamp slot = some timestamp ↔
      ∃ a ∈ (σ.tuples slot).chain, (σ.undo a).timestamp = timestamp := by
  have hhead := SortedPrefix.exists_mem_iff_head hclose
  simp only [decide_eq_true_eq] at hhead
  rw [hhead, State.headTimestamp, Option.map_eq_some_iff]

/-- Two states in which a transaction reads the same from a slot. The buffer of
a `Select` that returns false is not looked at. -/
structure SameReads (σ σ' : State V) (start : Nat) (finishTime : Timestamp) (slot : TupleSlot) :
    Prop where
  select : ∀ outBuffer, (σ'.selectIntoBuffer start finishTime slot outBuffer).1 =
        (σ.selectIntoBuffer start finishTime slot outBuffer).1 ∧
      ((σ.selectIntoBuffer start finishTime slot outBuffer).1 = true →
        σ'.selectIntoBuffer start finishTime slot outBuffer =
          σ.selectIntoBuffer start finishTime slot outBuffer)
  isVisible : σ'.isVisible start finishTime slot = σ.isVisible start finishTime slot

theorem SameReads.of_seen {start : Nat} {finishTime : Timestamp}
    (hvis : (σ'.seen start finishTime slot).visible = (σ.seen start finishTime slot).visible)
    (hattrs : (σ.seen start finishTime slot).visible = true →
      (σ'.seen start finishTime slot).attrs = (σ.seen start finishTime slot).attrs)
    (halloc : (σ.seen start finishTime slot).visible = true →
      (σ'.tuples slot).allocated = (σ.tuples slot).allocated) :
    SameReads σ σ' start finishTime slot := by
  refine ⟨fun outBuffer => ?_, ?_⟩
  · rw [State.selectIntoBuffer_eq, State.selectIntoBuffer_eq]
    cases hseen : (σ.seen start finishTime slot).visible with
    | false =>
      rw [hseen] at hvis
      split_ifs <;> simp [hvis]
    | true =>
      rw [hseen] at hvis
      rw [hattrs hseen, halloc hseen, hvis]
      exact ⟨rfl, fun _ => rfl⟩
  · rw [State.isVisible_eq, State.isVisible_eq, hvis]

namespace SameReads

theorem refl (σ : State V) (start : Nat) (finishTime : Timestamp) (slot : TupleSlot) :
    SameReads σ σ start finishTime slot :=
  ⟨fun _ => ⟨rfl, fun _ => rfl⟩, rfl⟩

theorem trans {σ'' : State V} {start : Nat} {finishTime : Timestamp}
    (hfirst : SameReads σ σ' start finishTime slot)
    (hsnd : SameReads σ' σ'' start finishTime slot) : SameReads σ σ'' start finishTime slot := by
  refine ⟨fun outBuffer => ?_, hsnd.isVisible.trans hfirst.isVisible⟩
  obtain ⟨hflag, hsame⟩ := hfirst.select outBuffer
  obtain ⟨hflag', hsame'⟩ := hsnd.select outBuffer
  exact ⟨hflag'.trans hflag, fun hvis =>
    (hsame' (hflag.trans hvis)).trans (hsame hvis)⟩

end SameReads

theorem State.seen_congr (htuple : σ'.tuples slot = σ.tuples slot)
    (hundo : ∀ a ∈ (σ.tuples slot).chain, σ'.undo a = σ.undo a) (start : Nat)
    (finishTime : Timestamp) : σ'.seen start finishTime slot = σ.seen start finishTime slot := by
  have hhead : σ'.headTimestamp slot = σ.headTimestamp slot := by
    unfold State.headTimestamp
    rw [htuple]
    cases hchain : (σ.tuples slot).chain with
    | nil => rfl
    | cons a rest => simp [hundo a (by simp [hchain])]
  have hwalk : (σ.tuples slot).chain.takeWhile (σ'.tooNew start) =
      (σ.tuples slot).chain.takeWhile (σ.tooNew start) :=
    SortedPrefix.takeWhile_congr (fun a ha => by simp [State.tooNew, hundo a ha])
  unfold State.seen
  rw [hhead, htuple, hwalk]
  congr 2
  refine map_congr_left (fun a ha => ?_)
  rw [hundo a (takeWhile_subset _ ha)]

theorem SameReads.congr (htuple : σ'.tuples slot = σ.tuples slot)
    (hundo : ∀ a ∈ (σ.tuples slot).chain, σ'.undo a = σ.undo a) (start : Nat)
    (finishTime : Timestamp) : SameReads σ σ' start finishTime slot := by
  have hseen := State.seen_congr htuple hundo start finishTime
  exact .of_seen (by rw [hseen]) (fun _ => by rw [hseen]) (fun _ => by rw [htuple])

theorem State.readAt_congr {time : Nat} (hview : (σ'.tuples slot).view = (σ.tuples slot).view)
    (hnew : (σ'.tuples slot).chain.filter (σ'.tooNew time) =
      (σ.tuples slot).chain.filter (σ.tooNew time))
    (hdelta : ∀ a ∈ (σ.tuples slot).chain, (σ'.undo a).delta = (σ.undo a).delta) :
    σ'.readAt time slot = σ.readAt time slot := by
  unfold State.readAt
  rw [hview, hnew]
  congr 1
  refine map_congr_left ?_
  intro a ha
  exact hdelta a (mem_of_mem_filter ha)

theorem State.readAt_of_forall {time : Nat}
    (hold : ∀ a ∈ (σ.tuples slot).chain, σ.tooNew time a = false) :
    σ.readAt time slot = (σ.tuples slot).view := by
  have hnil : (σ.tuples slot).chain.filter (σ.tooNew time) = [] := by
    rw [filter_eq_nil_iff]
    intro a ha
    simp [hold a ha]
  simp [State.readAt, hnil]

def State.Settled (σ : State V) (slot : TupleSlot) : Prop :=
  ∀ a ∈ (σ.tuples slot).chain, ∃ c, (σ.undo a).timestamp = .time c ∧ c < σ.cachedOldestTxnStartTime

/-- What the garbage collector may do to the versions of tuples: drop records
that no reader above the horizon undoes, and free slots whose tuple is deleted
for all of them. -/
structure KeepsReads (σ σ' : State V) : Prop where
  undo : σ'.undo = σ.undo
  activeTxn : ∀ t, σ'.activeTxn t = σ.activeTxn t
  cached : σ.cachedOldestTxnStartTime ≤ σ'.cachedOldestTxnStartTime
  sublist : ∀ slot, (σ'.tuples slot).chain.Sublist (σ.tuples slot).chain
  running : ∀ slot, ∀ a ∈ (σ.tuples slot).chain, ∀ t, (σ.undo a).timestamp = .txnId t →
    a ∈ (σ'.tuples slot).chain
  view : ∀ slot, (σ'.tuples slot).view = (σ.tuples slot).view
  readAt : ∀ ⦃time⦄ slot, σ.cachedOldestTxnStartTime ≤ time →
    σ'.readAt time slot = σ.readAt time slot
  freed : ∀ slot, (σ'.tuples slot).allocated = (σ.tuples slot).allocated ∨
    (σ.Settled slot ∧ (σ.tuples slot).notNull = false)

namespace KeepsReads

theorem truncateVersionChain (hcons : Consistent pending σ) (slot : TupleSlot) :
    KeepsReads σ (σ.truncateVersionChain slot σ.cachedOldestTxnStartTime) := by
  have htup := fun s => hcons.truncateVersionChain_tuples slot s σ.cachedOldestTxnStartTime
  have hview : ∀ s, ((σ.truncateVersionChain slot σ.cachedOldestTxnStartTime).tuples s).view =
      (σ.tuples s).view := by
    intro s
    rw [htup]
    split_ifs <;> rfl
  refine ⟨rfl, fun _ => rfl, le_rfl, ?_, ?_, hview, ?_, ?_⟩
  · intro s
    rw [htup]
    split_ifs
    · exact filter_sublist
    · exact List.Sublist.refl _
  · intro s a ha t hts
    rw [htup]
    split_ifs
    · exact mem_filter.mpr ⟨ha, by simp [State.stillNeeded, hts]⟩
    · exact ha
  · intro time s hle
    refine State.readAt_congr (hview s) ?_ (fun _ _ => rfl)
    -- a record that a reader above the horizon undoes is not cut
    rw [htup]
    split_ifs
    · rw [List.filter_filter]
      refine filter_congr (fun a _ => ?_)
      change (σ.tooNew time a && σ.stillNeeded _ a) = σ.tooNew time a
      cases hts : (σ.undo a).timestamp with
      | txnId u => simp [State.tooNew, State.stillNeeded, hts]
      | time c =>
        simp only [State.tooNew, State.stillNeeded, hts, Timestamp.newerThan_time_time,
          Bool.and_eq_left_iff_imp, decide_eq_true_eq, Bool.not_eq_true',
          decide_eq_false_iff_not]
        omega
    · rfl
  · intro s
    left
    rw [htup]
    split_ifs <;> rfl

/-- The tombstone that the collector finds is the last word on its slot. -/
theorem reclaimSlotIfDeleted (hcons : Consistent pending σ) (htomb : Tombstones σ)
    (hmark : Marked σ) {t : Nat} {txn : TransactionContext V} {a f : Nat}
    (ht : σ.txns t = some txn) (habort : txn.aborted = false) (ha : a ∈ txn.undoBuffer)
    (hfin : txn.finishTime = .time f) (hlt : f < σ.cachedOldestTxnStartTime) :
    KeepsReads σ (σ.reclaimSlotIfDeleted (σ.undo a)) := by
  have hrefl : KeepsReads σ σ :=
    ⟨rfl, fun _ => rfl, le_rfl, fun _ => List.Sublist.refl _, fun _ _ ha _ _ => ha, fun _ => rfl,
      fun _ _ _ => rfl, fun _ => Or.inl rfl⟩
  unfold State.reclaimSlotIfDeleted
  split
  next hdel =>
    have hsome := hmark.installed ht (hmark.committed ht hfin habort) ha
    obtain ⟨hnull, hhead⟩ := htomb ht habort ha hsome hdel
    set slot := (σ.undo a).slot with hslot
    have hview : ∀ s, ((σ.setTuple slot { σ.tuples slot with allocated := false }).tuples
        s).view = (σ.tuples s).view := by
      intro s
      by_cases hs : s = slot
      · simp [State.setTuple, hs, Tuple.view, Tuple.visible, hnull]
      · simp [State.setTuple, hs]
    have hchain : ∀ s, ((σ.setTuple slot { σ.tuples slot with allocated := false }).tuples
        s).chain = (σ.tuples s).chain := by
      intro s
      by_cases hs : s = slot <;> simp [State.setTuple, hs]
    have hts : (σ.undo a).timestamp = .time f := (hcons.buffer_timestamp ht ha).trans hfin
    have hsettle : σ.Settled slot := by
      intro b hb
      cases hc : (σ.tuples slot).chain with
      | nil => simp [hc] at hb
      | cons d rest =>
        obtain rfl : d = a := hhead d (by simp [hc])
        rw [hc] at hb
        rcases mem_cons.mp hb with rfl | hb
        · exact ⟨f, hts, hlt⟩
        · have hsort := hcons.chain_sorted slot
          rw [hc] at hsort
          have hbehind := (pairwise_cons.mp hsort).1 b hb
          cases hbts : (σ.undo b).timestamp with
          | txnId u => simp [hts, hbts] at hbehind
          | time c =>
            simp only [hts, hbts, Timestamp.precedes_time_time] at hbehind
            exact ⟨c, rfl, hbehind.trans_lt hlt⟩
    refine ⟨rfl, fun _ => rfl, le_rfl, fun s => by rw [hchain], fun s b hb _ _ => by rwa [hchain],
      hview, fun time s _ => ?_, fun s => ?_⟩
    · refine State.readAt_congr (hview s) ?_ (fun _ _ => rfl)
      rw [hchain]
      rfl
    · by_cases hs : s = slot
      · exact .inr ⟨hs ▸ hsettle, hs ▸ hnull⟩
      · exact .inl (by simp [State.setTuple, hs])
  · exact hrefl
  · exact hrefl

theorem of_collected (hcons : Consistent pending σ) (htomb : Tombstones σ) (hmark : Marked σ)
    (hstep : Collected σ σ') : KeepsReads σ σ' := by
  cases hstep with
  | administer htup hundo _ _ hcache _ hact =>
    refine ⟨hundo, hact, hcache, fun s => by rw [htup], fun s a ha _ _ => by rwa [htup],
      fun s => by rw [htup], fun time s _ => ?_, fun s => by simp [htup]⟩
    refine State.readAt_congr (by rw [htup]) ?_ (fun _ _ => by rw [hundo])
    rw [htup]
    exact filter_congr (fun a _ => by simp [State.tooNew, hundo])
  | truncate slot => exact truncateVersionChain hcons slot
  | reclaim ht habort ha hfin hlt =>
    exact reclaimSlotIfDeleted hcons htomb hmark ht habort ha hfin hlt

end KeepsReads

/-- A slot that may be freed is read as deleted by everybody above the horizon. -/
theorem State.Settled.readAt_eq {time : Nat} (hsettle : σ.Settled slot)
    (hle : σ.cachedOldestTxnStartTime ≤ time) : σ.readAt time slot = (σ.tuples slot).view := by
  refine State.readAt_of_forall (fun a ha => ?_)
  obtain ⟨c, hc, hlt⟩ := hsettle a ha
  simp only [State.tooNew, hc, Timestamp.newerThan_time_time, decide_eq_false_iff_not]
  omega

/-- A running transaction cannot tell that the collector was there. -/
theorem KeepsReads.sameReads (hcons : Consistent pending σ) (hstep : KeepsReads σ σ') {t : Nat}
    {txn : TransactionContext V} (hact : σ.activeTxn t = some txn) (slot : TupleSlot) :
    SameReads σ σ' t (.txnId t) slot := by
  obtain ⟨ht, hid⟩ := State.activeTxn_eq_some_iff.mp hact
  have hle := hcons.cached_le_running t (hcons.running_of_active ht hid)
  have hread : σ'.Readable slot := by
    intro time
    have hsub := (hcons.readable slot time).sublist (hstep.sublist slot)
    simpa only [SortedPrefix.FrontClosed, State.tooNew, hstep.undo] using hsub
  have hhead : σ'.headTimestamp slot = some (.txnId t) ↔
      σ.headTimestamp slot = some (.txnId t) := by
    have hclose := hcons.own_frontClosed t slot
    rw [State.headTimestamp_eq_iff hclose, State.headTimestamp_eq_iff
      (by rw [hstep.undo]; exact hclose.sublist (hstep.sublist slot)), hstep.undo]
    constructor
    · rintro ⟨a, ha, hts⟩
      exact ⟨a, (hstep.sublist slot).subset ha, hts⟩
    · rintro ⟨a, ha, hts⟩
      exact ⟨a, hstep.running slot a ha t hts, hts⟩
  have hseen : σ'.seen t (.txnId t) slot = σ.seen t (.txnId t) slot := by
    rw [State.seen_eq_version hread, State.seen_eq_version (hcons.readable slot)]
    unfold State.version
    rw [hstep.view, hstep.readAt slot hle]
    exact if_congr hhead rfl rfl
  refine .of_seen (by rw [hseen]) (fun _ => by rw [hseen]) (fun hvis => ?_)
  rcases hstep.freed slot with hsame | ⟨hsettle, hnull⟩
  · exact hsame
  · have hforeign : σ.headTimestamp slot ≠ some (.txnId t) := by
      rw [Ne, State.headTimestamp_eq_iff (hcons.own_frontClosed t slot)]
      rintro ⟨a, ha, hts⟩
      obtain ⟨c, hc, -⟩ := hsettle a ha
      simp [hts] at hc
    rw [State.seen_eq_version (hcons.readable slot), State.version, if_neg hforeign,
      hsettle.readAt_eq hle] at hvis
    simp [Tuple.view, Tuple.visible, hnull] at hvis

end Terrier
