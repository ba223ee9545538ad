import Terrier.Proof.Consistent
import Terrier.Storage.GarbageCollectorSteps
import Terrier.Lib.SortedPrefix

/-!
The bookkeeping invariant through a garbage collection pass, step by step. A pass truncates the
chain of every slot that a processed transaction wrote, at one horizon above the transaction's
finish time; what remains in such a chain is newer than the horizon.
-/

namespace Terrier

open List

variable {V : Type} {pending : List Nat} {σ : State V}

namespace Consistent

section

variable (h : Consistent pending σ)
include h

theorem checkOutTimestamp : Consistent pending σ.checkOutTimestamp :=
  h.tick (Nat.le_succ _)

theorem markUnlinked : Consistent pending σ.markUnlinked :=
  { h.checkOutTimestamp with }

theorem cacheOldest : Consistent pending σ.cacheOldest :=
  { h with
    cached_le_time := by
      rcases σ.oldestTransactionStartTime_cases with heq | hmem
      · exact heq.le
      · exact (h.running_lt _ hmem).le
    cached_le_running := fun _ hr => State.oldestTransactionStartTime_le hr }

/-- Contexts in the deallocation queue own nothing in any chain. -/
theorem processDeallocateQueue (oldest : Nat) :
    Consistent pending (σ.processDeallocateQueue oldest) := by
  unfold State.processDeallocateQueue
  split_ifs with hhorizon
  · have hback : ∀ {u y}, (if u ∈ σ.txnsToDeallocate then none else σ.txns u) = some y →
        σ.txns u = some y := by
      intro u y hu
      split_ifs at hu
      exact hu
    have hforth : ∀ {u x}, u ∉ σ.txnsToDeallocate → σ.txns u = some x →
        (if u ∈ σ.txnsToDeallocate then none else σ.txns u) = some x := by
      intro u x hnot hu
      rwa [if_neg hnot]
    have hsplit := nodup_append.mp h.queues_nodup
    refine { h with
      txn_lt := fun u y hu => h.txn_lt (hback hu)
      finish := fun u y hu => h.finish (hback hu)
      running_of_active := fun u y hu => h.running_of_active (hback hu)
      buffer_lt := fun u y a hu => h.buffer_lt (hback hu)
      buffer_timestamp := fun u y a hu => h.buffer_timestamp (hback hu)
      buffer_unique := fun u v y z a hu hv => h.buffer_unique (hback hu) (hback hv)
      buffer_used := fun u y a hu => h.buffer_used (hback hu)
      chain_owner := ?_
      installed_of_active := fun u y a hu => h.installed_of_active (hback hu)
      queues_nodup := by simpa using hsplit.1
      queues_finished := ?_ }
    · intro slot a ha
      obtain ⟨u, x, hx, hax, hwhere⟩ := h.chain_owner ha
      refine ⟨u, x, hforth ?_ hx, hax, hwhere⟩
      intro hmem
      rcases hwhere with hid | hwhere
      · exact h.active_notMem_queues (State.activeTxn_eq_some_iff.mpr ⟨hx, hid⟩)
          (mem_append_right _ hmem)
      · exact hsplit.2.2 u (by simpa [or_assoc] using hwhere) u hmem rfl
    · intro u hu
      have hu' : u ∈ σ.completedTxns ++ σ.txnsToUnlink ++ pending := by simpa using hu
      obtain ⟨x, f, hx, hxf⟩ := h.queues_finished u (mem_append_left _ hu')
      exact ⟨x, f, hforth (fun hmem => hsplit.2.2 u hu' u hmem rfl) hx, hxf⟩
  · exact h

theorem moveQueues {pending' completed unlink deallocate : List Nat}
    (hperm : (completed ++ unlink ++ pending' ++ deallocate).Perm
      (σ.completedTxns ++ σ.txnsToUnlink ++ pending ++ σ.txnsToDeallocate))
    (howner : ∀ ⦃slot a t txn⦄, a ∈ (σ.tuples slot).chain → σ.txns t = some txn →
      a ∈ txn.undoBuffer → t ∈ σ.completedTxns ∨ t ∈ σ.txnsToUnlink ∨ t ∈ pending →
      t ∈ completed ∨ t ∈ unlink ∨ t ∈ pending') :
    Consistent pending' { σ with
      completedTxns := completed, txnsToUnlink := unlink, txnsToDeallocate := deallocate } :=
  { h with
    chain_owner := fun slot a ha => by
      obtain ⟨u, x, hx, hax, hwhere⟩ := h.chain_owner ha
      refine ⟨u, x, hx, hax, ?_⟩
      rcases hwhere with hid | hwhere
      · exact .inl hid
      · exact .inr (howner ha hx hax hwhere)
    queues_nodup := hperm.nodup_iff.mpr h.queues_nodup
    queues_finished := fun u hu => h.queues_finished u (hperm.mem_iff.mp hu) }

theorem spliceCompleted : Consistent pending σ.spliceCompleted := by
  refine h.moveQueues (List.Perm.of_eq (by simp)) ?_
  intro slot a t txn _ _ _ hwhere
  simpa [or_assoc] using hwhere

theorem popUnlink {t : Nat} {queue : List Nat} (hqueue : σ.txnsToUnlink = t :: queue) :
    Consistent (t :: pending) { σ with txnsToUnlink := queue } := by
  refine h.moveQueues ?_ ?_
  · rw [hqueue]
    simp only [append_assoc, cons_append]
    exact List.Perm.append_left _ perm_middle
  · intro slot a u txn _ _ _ hwhere
    rw [hqueue] at hwhere
    simp only [mem_cons] at hwhere ⊢
    tauto

/-- The end of the pass: what was popped and must wait becomes the queue. -/
theorem requeue (hempty : σ.txnsToUnlink = []) :
    Consistent [] { σ with txnsToUnlink := pending } := by
  refine h.moveQueues (List.Perm.of_eq (by simp [hempty])) ?_
  intro slot a t txn _ _ _ hwhere
  simpa [hempty] using hwhere

end

variable {t : Nat}

theorem pushDeallocate (h : Consistent (t :: pending) σ)
    (hclear : ∀ slot, ∀ a ∈ (σ.tuples slot).chain, ∀ txn, σ.txns t = some txn →
      a ∉ txn.undoBuffer) : Consistent pending (σ.pushDeallocate t) := by
  refine h.moveQueues ?_ ?_
  · simp only [append_assoc, cons_append]
    exact List.Perm.append_left _ (List.Perm.append_left _ perm_middle)
  · intro slot a u txn ha hu hau hwhere
    have hne : u ≠ t := by
      rintro rfl
      exact hclear slot a ha txn hu hau
    simpa [hne] using hwhere

/-- A read-only transaction has no records, so it can be deleted at once. -/
theorem deleteReadOnly {txn : TransactionContext V} (h : Consistent (t :: pending) σ)
    (ht : σ.txns t = some txn) (hro : txn.isReadOnly = true) :
    Consistent pending (σ.deleteTxn t) := by
  have hnil : txn.undoBuffer = [] := by simpa [TransactionContext.isReadOnly] using hro
  have hback : ∀ {u y}, (σ.deleteTxn t).txns u = some y → u ≠ t ∧ σ.txns u = some y := by
    intro u y hu
    by_cases hut : u = t
    · subst hut
      simp [State.deleteTxn] at hu
    · exact ⟨hut, by simpa [State.deleteTxn, hut] using hu⟩
  have hforth : ∀ {u x}, u ≠ t → σ.txns u = some x → (σ.deleteTxn t).txns u = some x := by
    intro u x hut hu
    simpa [State.deleteTxn, hut] using hu
  have hnodup := h.queues_nodup
  refine { h with
    txn_lt := fun u y hu => h.txn_lt (hback hu).2
    finish := fun u y hu => h.finish (hback hu).2
    running_of_active := fun u y hu => h.running_of_active (hback hu).2
    buffer_lt := fun u y a hu => h.buffer_lt (hback hu).2
    buffer_timestamp := fun u y a hu => h.buffer_timestamp (hback hu).2
    buffer_unique := fun u v y z a hu hv => h.buffer_unique (hback hu).2 (hback hv).2
    buffer_used := fun u y a hu => h.buffer_used (hback hu).2
    chain_owner := ?_
    installed_of_active := fun u y a hu => h.installed_of_active (hback hu).2
    queues_nodup := ?_
    queues_finished := ?_ }
  · intro slot a ha
    obtain ⟨u, x, hx, hax, hwhere⟩ := h.chain_owner ha
    have hut : u ≠ t := by
      rintro rfl
      obtain rfl : txn = x := by simpa [ht] using hx
      simp [hnil] at hax
    refine ⟨u, x, hforth hut hx, hax, ?_⟩
    simpa [State.deleteTxn, hut] using hwhere
  · have hsub : (σ.completedTxns ++ σ.txnsToUnlink ++ pending ++ σ.txnsToDeallocate).Sublist
        (σ.completedTxns ++ σ.txnsToUnlink ++ (t :: pending) ++ σ.txnsToDeallocate) :=
      List.Sublist.append_right (List.Sublist.append_left (sublist_cons_self t pending) _) _
    exact hnodup.sublist hsub
  · intro u hu
    have hperm : (σ.completedTxns ++ σ.txnsToUnlink ++ (t :: pending) ++ σ.txnsToDeallocate).Perm
        (t :: (σ.completedTxns ++ σ.txnsToUnlink ++ pending ++ σ.txnsToDeallocate)) := by
      simp only [append_assoc, cons_append]
      exact (List.Perm.append_left _ perm_middle).trans perm_middle
    have hne : u ≠ t := by
      rintro rfl
      exact (nodup_cons.mp (hperm.nodup_iff.mp hnodup)).1 hu
    obtain ⟨x, f, hx, hxf⟩ :=
      h.queues_finished u (hperm.mem_iff.mpr (mem_cons_of_mem _ hu))
    exact ⟨x, f, hforth hne hx, hxf⟩

section

variable (h : Consistent pending σ)
include h

/-- The condition of the truncation loop is inherited towards the head. -/
theorem frontClosed_horizon (slot : TupleSlot) (oldest : Nat) :
    SortedPrefix.FrontClosed (σ.stillNeeded oldest) (σ.tuples slot).chain := by
  refine (h.chain_sorted slot).imp ?_
  intro a b hab hb
  by_contra ha
  simp only [State.stillNeeded, Bool.not_eq_true', Bool.not_eq_false] at ha hb
  rw [Timestamp.newerThan_horizon_of_precedes hab ha] at hb
  cases hb

/-- Truncation keeps exactly the records that are not below the horizon. -/
theorem truncateVersionChain_tuples (slot s : TupleSlot) (oldest : Nat) :
    (σ.truncateVersionChain slot oldest).tuples s = if s = slot then
        { σ.tuples s with chain := (σ.tuples s).chain.filter (σ.stillNeeded oldest) }
      else σ.tuples s := by
  by_cases hs : s = slot
  · subst hs
    simp [State.truncateVersionChain, State.setTuple,
      SortedPrefix.takeWhile_eq_filter (h.frontClosed_horizon s oldest)]
  · simp [State.truncateVersionChain, State.setTuple, hs]

theorem truncateVersionChain (slot : TupleSlot) (oldest : Nat) :
    Consistent pending (σ.truncateVersionChain slot oldest) := by
  have htup := fun s => h.truncateVersionChain_tuples slot s oldest
  have hsub : ∀ s, ((σ.truncateVersionChain slot oldest).tuples s).chain.Sublist
      (σ.tuples s).chain := by
    intro s
    rw [htup]
    split_ifs
    · exact filter_sublist
    · exact List.Sublist.refl _
  refine { h with
    chain_record := fun s a ha => h.chain_record ((hsub s).subset ha)
    chain_owner := fun s a ha => h.chain_owner ((hsub s).subset ha)
    chain_sorted := fun s => (h.chain_sorted s).sublist (hsub s)
    installed_of_active := ?_
    unused_free := ?_ }
  · intro t txn a ht hid ha hsome
    have hmem := h.installed_of_active ht hid ha hsome
    rw [show (σ.truncateVersionChain slot oldest).undo = σ.undo from rfl, htup]
    split_ifs
    · refine mem_filter.mpr ⟨hmem, ?_⟩
      simp [State.stillNeeded, h.buffer_timestamp ht ha, hid]
    · exact hmem
  · intro s hunused
    obtain ⟨hnil, hfree⟩ := h.unused_free hunused
    rw [htup]
    split_ifs
    · exact ⟨by simp [hnil], hfree⟩
    · exact ⟨hnil, hfree⟩

theorem reclaimSlotIfDeleted (record : UndoRecord V) :
    Consistent pending (σ.reclaimSlotIfDeleted record) := by
  unfold State.reclaimSlotIfDeleted
  split
  · refine h.setData ?_ ?_
    · intro slot
      by_cases hs : slot = record.slot <;> simp [hs]
    · intro slot halloc
      by_cases hs : slot = record.slot
      · simp [hs] at halloc
      · simpa [hs] using halloc
  · exact h
  · exact h

end

end Consistent

/-- Every chain in `visited` has been cut at the horizon of the pass. -/
def Swept (oldest : Nat) (visited : List TupleSlot) (σ : State V) : Prop :=
  ∀ slot ∈ visited, ∀ a ∈ (σ.tuples slot).chain, σ.stillNeeded oldest a = true

variable {σ' : State V}

namespace State

theorem reclaimSlotIfDeleted_chain (σ : State V) (record : UndoRecord V) (slot : TupleSlot) :
    ((σ.reclaimSlotIfDeleted record).tuples slot).chain = (σ.tuples slot).chain := by
  unfold reclaimSlotIfDeleted
  split
  · by_cases hs : slot = record.slot <;> simp [setTuple, hs]
  · rfl
  · rfl

def SameButTuples (σ σ' : State V) : Prop :=
  σ' = { σ with tuples := σ'.tuples }

theorem SameButTuples.trans {σ'' : State V} (h : SameButTuples σ σ') (h' : SameButTuples σ' σ'') :
    SameButTuples σ σ'' := by
  rw [h] at h'
  exact h'

theorem reclaimSlotIfDeleted_same (σ : State V) (record : UndoRecord V) :
    SameButTuples σ (σ.reclaimSlotIfDeleted record) := by
  unfold reclaimSlotIfDeleted
  split <;> rfl

theorem truncateOnce_same (oldest : Nat) (s : State V × List TupleSlot) (record : UndoRecord V) :
    SameButTuples s.1 (truncateOnce oldest s record).1 := by
  unfold truncateOnce
  split_ifs <;> rfl

theorem unlinkRecord_fst (oldest : Nat) (aborted : Bool) (s : State V × List TupleSlot) (a : Nat) :
    (unlinkRecord oldest aborted s a).1 = if aborted then (truncateOnce oldest s (s.1.undo a)).1
      else (truncateOnce oldest s (s.1.undo a)).1.reclaimSlotIfDeleted (s.1.undo a) := rfl

theorem unlinkRecord_same (oldest : Nat) (aborted : Bool) (s : State V × List TupleSlot) (a : Nat) :
    SameButTuples s.1 (unlinkRecord oldest aborted s a).1 := by
  rw [unlinkRecord_fst]
  split_ifs
  · exact truncateOnce_same oldest s _
  · exact (truncateOnce_same oldest s _).trans (reclaimSlotIfDeleted_same _ _)

end State

variable {oldest t : Nat} {visited : List TupleSlot} {pc : Collector}

theorem Swept.truncateOnce (h : Consistent pending σ) (hswept : Swept oldest visited σ)
    (record : UndoRecord V) : Consistent pending (State.truncateOnce oldest (σ, visited) record).1 ∧
      Swept oldest (State.truncateOnce oldest (σ, visited) record).2
        (State.truncateOnce oldest (σ, visited) record).1 ∧
      (record.table.isSome → record.slot ∈ (State.truncateOnce oldest (σ, visited) record).2) ∧
      ∀ slot ∈ visited, slot ∈ (State.truncateOnce oldest (σ, visited) record).2 := by
  unfold State.truncateOnce
  split_ifs with hcond
  · refine ⟨h.truncateVersionChain _ _, ?_, fun _ => mem_cons_self,
      fun slot hslot => mem_cons_of_mem _ hslot⟩
    intro slot hslot b hb
    rw [h.truncateVersionChain_tuples] at hb
    split_ifs at hb with hs
    · exact (mem_filter.mp hb).2
    · rcases mem_cons.mp hslot with rfl | hslot
      · exact absurd rfl hs
      · exact hswept slot hslot b hb
  · refine ⟨h, hswept, fun hsome => ?_, fun slot hslot => hslot⟩
    simpa [hsome] using hcond

theorem Swept.unlinkRecord (aborted : Bool) (h : Consistent pending σ)
    (hswept : Swept oldest visited σ) (a : Nat) :
    Consistent pending (State.unlinkRecord oldest aborted (σ, visited) a).1 ∧
      Swept oldest (State.unlinkRecord oldest aborted (σ, visited) a).2
        (State.unlinkRecord oldest aborted (σ, visited) a).1 ∧
      ((σ.undo a).table.isSome →
        (σ.undo a).slot ∈ (State.unlinkRecord oldest aborted (σ, visited) a).2) ∧
      ∀ slot ∈ visited, slot ∈ (State.unlinkRecord oldest aborted (σ, visited) a).2 := by
  obtain ⟨hcons, hswept', hvisit, hkeep⟩ := Swept.truncateOnce h hswept (σ.undo a)
  refine ⟨?_, ?_, hvisit, hkeep⟩
  · rw [State.unlinkRecord_fst]
    split_ifs
    · exact hcons
    · exact hcons.reclaimSlotIfDeleted _
  · intro slot hslot b hb
    have hundo := State.unlinkRecord_same oldest aborted (σ, visited) a
    have htruncate := State.truncateOnce_same oldest (σ, visited) (σ.undo a)
    have hb' : b ∈ ((State.truncateOnce oldest (σ, visited) (σ.undo a)).1.tuples slot).chain := by
      rw [State.unlinkRecord_fst] at hb
      split_ifs at hb
      · exact hb
      · rwa [State.reclaimSlotIfDeleted_chain] at hb
    have hneeded := hswept' slot hslot b hb'
    rw [htruncate] at hneeded
    rw [hundo]
    exact hneeded

def Collector.Valid (σ : State V) : Collector → Prop
  | .idle => True
  | .readHorizon => True
  | .deallocate oldest => oldest = σ.cachedOldestTxnStartTime
  | .splice oldest => oldest = σ.cachedOldestTxnStartTime
  | .unlink oldest pass =>
    oldest = σ.cachedOldestTxnStartTime ∧ Swept oldest pass.visitedSlots σ
  | .records oldest pass t aborted rest =>
    oldest = σ.cachedOldestTxnStartTime ∧ Swept oldest pass.visitedSlots σ ∧
    ∃ txn done f, σ.txns t = some txn ∧ txn.aborted = aborted ∧
      txn.undoBuffer = done ++ rest ∧ txn.finishTime = .time f ∧ f < oldest ∧
      ∀ a ∈ done, (σ.undo a).table.isSome → (σ.undo a).slot ∈ pass.visitedSlots
  | .mark _ => True

structure Collecting (σ : State V) (pc : Collector) : Prop where
  consistent : Consistent pc.pending σ
  valid : pc.Valid σ

theorem Collecting.popTxn {pass : UnlinkPass} (h : Consistent (t :: pass.requeue) σ)
    (hcache : oldest = σ.cachedOldestTxnStartTime) (hswept : Swept oldest pass.visitedSlots σ) :
    Collecting (popTxn oldest pass t σ).1 (popTxn oldest pass t σ).2 := by
  obtain ⟨txn, f, ht, hfin⟩ := h.queues_finished t (by simp)
  unfold Terrier.popTxn
  rw [ht]
  dsimp only
  split_ifs with hro hold
  · exact ⟨h.deleteReadOnly ht hro, hcache, hswept⟩
  · refine ⟨h, hcache, hswept, txn, [], f, ht, rfl, rfl, hfin, ?_, by simp⟩
    simpa [hfin] using hold
  · exact ⟨h, hcache, hswept⟩

theorem Collecting.collectStep (h : Collecting σ pc) :
    Collecting (collectStep σ pc).1 (collectStep σ pc).2 := by
  obtain ⟨hcons, hvalid⟩ := h
  cases pc with
  | idle => exact ⟨hcons.checkOutTimestamp, trivial⟩
  | readHorizon => exact ⟨hcons.cacheOldest, rfl⟩
  | deallocate oldest =>
    refine ⟨hcons.processDeallocateQueue oldest, hvalid.trans ?_⟩
    simp only [Terrier.collectStep, State.processDeallocateQueue]
    split_ifs <;> rfl
  | splice oldest => exact ⟨hcons.spliceCompleted, hvalid, by simp [Swept, UnlinkPass.start]⟩
  | unlink oldest pass =>
    cases hqueue : σ.txnsToUnlink with
    | nil =>
      simp only [Terrier.collectStep, hqueue]
      exact ⟨hcons.requeue hqueue, trivial⟩
    | cons t queue =>
      simp only [Terrier.collectStep, hqueue]
      exact Collecting.popTxn (hcons.popUnlink hqueue) hvalid.1 hvalid.2
  | records oldest pass t aborted rest =>
    obtain ⟨hcache, hswept, txn, done, f, ht, hab, hbuf, hfin, hlt, hdone⟩ := hvalid
    cases rest with
    | nil =>
      -- all records are done, so every chain they could be in has been cut
      refine ⟨hcons.pushDeallocate ?_, hcache, hswept⟩
      intro slot a ha x hx hax
      obtain rfl : txn = x := by simpa [ht] using hx
      obtain ⟨hslot, hsome⟩ := hcons.chain_record ha
      have hvis := hdone a (by simpa [hbuf] using hax) hsome
      have hneeded := hswept slot (hslot ▸ hvis) a ha
      simp [State.stillNeeded, hcons.buffer_timestamp ht hax, hfin] at hneeded
      omega
    | cons a rest =>
      obtain ⟨hcons', hswept', hvisit, hkeep⟩ :=
        Swept.unlinkRecord aborted hcons hswept a
      have heq := State.unlinkRecord_same oldest aborted (σ, pass.visitedSlots) a
      refine ⟨hcons', ?_, hswept', txn, done ++ [a], f, ?_, hab, by simp [hbuf], hfin, hlt, ?_⟩
      · simp only [Terrier.collectStep]
        rw [heq]
        exact hcache
      · simp only [Terrier.collectStep]
        rw [heq]
        exact ht
      · intro b hb hsome
        simp only [Terrier.collectStep] at hsome ⊢
        rw [heq] at hsome ⊢
        rcases mem_append.mp hb with hb | hb
        · exact hkeep _ (hdone b hb hsome)
        · obtain rfl := mem_singleton.mp hb
          exact hvisit hsome
  | mark txnsUnlinked =>
    refine ⟨?_, trivial⟩
    simp only [Terrier.collectStep]
    split_ifs
    · exact hcons.markUnlinked
    · exact hcons

/-- What a step of the collector can do to what other invariants look at: administer queues,
clocks and contexts of finished transactions; cut a chain at the horizon; or free the slot of a
delete that committed before it. -/
inductive Collected (σ : State V) : State V → Prop where
  | administer {σ' : State V} (htuples : σ'.tuples = σ.tuples) (hundo : σ'.undo = σ.undo)
      (htables : σ'.tables = σ.tables) (htime : σ.time ≤ σ'.time)
      (hcached : σ.cachedOldestTxnStartTime ≤ σ'.cachedOldestTxnStartTime)
      (htxns : ∀ t txn, σ'.txns t = some txn → σ.txns t = some txn)
      (hactive : ∀ t, σ'.activeTxn t = σ.activeTxn t)
      (hflush : σ'.flushQueue = σ.flushQueue) (hlog : σ'.log = σ.log) : Collected σ σ'
  | truncate (slot : TupleSlot) :
      Collected σ (σ.truncateVersionChain slot σ.cachedOldestTxnStartTime)
  | reclaim {t : Nat} {txn : TransactionContext V} {a f : Nat} (ht : σ.txns t = some txn)
      (haborted : txn.aborted = false) (ha : a ∈ txn.undoBuffer)
      (hfin : txn.finishTime = .time f) (hlt : f < σ.cachedOldestTxnStartTime) :
      Collected σ (σ.reclaimSlotIfDeleted (σ.undo a))

/-- The collector changes neither an undo record nor a running transaction. -/
theorem Collected.running_eq (h : Collected σ σ') :
    σ'.undo = σ.undo ∧ ∀ t, σ'.activeTxn t = σ.activeTxn t := by
  cases h with
  | administer _ hundo _ _ _ _ hact => exact ⟨hundo, hact⟩
  | truncate slot => exact ⟨rfl, fun _ => rfl⟩
  | reclaim =>
    rw [State.reclaimSlotIfDeleted_same]
    exact ⟨rfl, fun _ => rfl⟩

def CollectedRun : State V → State V → Prop :=
  Relation.ReflTransGen (fun σ σ' => (∃ pending, Consistent pending σ) ∧ Collected σ σ')

/-- An invariant that every effect keeps, provided the state is consistent,
is kept by a sequence of effects. -/
theorem CollectedRun.invariant {I : State V → Prop}
    (hkeep : ∀ {pending σ σ'}, Consistent pending σ → Collected σ σ' → I σ → I σ')
    (hrun : CollectedRun σ σ') (hbase : I σ) : I σ' := by
  induction hrun with
  | refl => exact hbase
  | tail _ hstep ih =>
    obtain ⟨⟨pending, hcons⟩, hcollected⟩ := hstep
    exact hkeep hcons hcollected ih

theorem CollectedRun.running_eq (hrun : CollectedRun σ σ') :
    σ'.undo = σ.undo ∧ ∀ t, σ'.activeTxn t = σ.activeTxn t := by
  refine hrun.invariant (I := fun τ => τ.undo = σ.undo ∧ ∀ t, τ.activeTxn t = σ.activeTxn t)
    ?_ ⟨rfl, fun _ => rfl⟩
  intro pending τ τ' _ hstep hsame
  obtain ⟨hundo, hact⟩ := hstep.running_eq
  exact ⟨hundo.trans hsame.1, fun t => (hact t).trans (hsame.2 t)⟩

private theorem CollectedRun.one (hcons : Consistent pending σ) (h : Collected σ σ') :
    CollectedRun σ σ' :=
  Relation.ReflTransGen.single ⟨⟨pending, hcons⟩, h⟩

theorem Collecting.deleteTxn_activeTxn (h : Consistent (t :: pending) σ) (u : Nat) :
    (σ.deleteTxn t).activeTxn u = σ.activeTxn u := by
  by_cases hut : u = t
  · subst hut
    obtain ⟨txn, f, ht, hfin⟩ := h.queues_finished u (by simp)
    have hnone : σ.activeTxn u = none := by
      rw [State.activeTxn_eq_none_iff]
      intro x hx
      obtain rfl : txn = x := by simpa [ht] using hx
      simp [hfin]
    rw [hnone]
    simp [State.activeTxn, State.deleteTxn]
  · simp [State.activeTxn, State.deleteTxn, hut]

theorem Consistent.processDeallocateQueue_activeTxn (h : Consistent pending σ) (oldest t : Nat) :
    (σ.processDeallocateQueue oldest).activeTxn t = σ.activeTxn t := by
  unfold State.processDeallocateQueue
  split_ifs
  · by_cases hmem : t ∈ σ.txnsToDeallocate
    · have hnone : σ.activeTxn t = none := by
        by_contra hne
        obtain ⟨txn, htxn⟩ := Option.ne_none_iff_exists'.mp hne
        exact h.active_notMem_queues htxn (mem_append_right _ hmem)
      rw [hnone]
      simp [State.activeTxn, hmem]
    · simp [State.activeTxn, hmem]
  · rfl

theorem Collecting.collected (h : Collecting σ pc) :
    CollectedRun σ (Terrier.collectStep σ pc).1 := by
  have hcons := h.consistent
  cases pc with
  | idle =>
    exact .one hcons (.administer rfl rfl rfl (Nat.le_succ _) le_rfl (fun _ _ => id)
      (fun _ => rfl) rfl rfl)
  | readHorizon =>
    refine .one hcons (.administer rfl rfl rfl le_rfl ?_ (fun _ _ => id) (fun _ => rfl) rfl rfl)
    rcases σ.oldestTransactionStartTime_cases with heq | hmem
    · exact hcons.cached_le_time.trans heq.ge
    · exact hcons.cached_le_running _ hmem
  | deallocate oldest =>
    have hact := hcons.processDeallocateQueue_activeTxn oldest
    simp only [Terrier.collectStep]
    unfold State.processDeallocateQueue at hact ⊢
    split_ifs at hact ⊢
    · refine .one hcons (.administer rfl rfl rfl le_rfl le_rfl ?_ hact rfl rfl)
      intro t txn ht
      dsimp only at ht
      split_ifs at ht
      exact ht
    · exact Relation.ReflTransGen.refl
  | splice oldest =>
    exact .one hcons (.administer rfl rfl rfl le_rfl le_rfl (fun _ _ => id) (fun _ => rfl) rfl rfl)
  | unlink oldest pass =>
    cases hqueue : σ.txnsToUnlink with
    | nil =>
      simp only [Terrier.collectStep, hqueue]
      exact .one hcons (.administer rfl rfl rfl le_rfl le_rfl (fun _ _ => id)
        (fun _ => rfl) rfl rfl)
    | cons t queue =>
      have hpop := hcons.popUnlink hqueue
      have hquiet : CollectedRun σ { σ with txnsToUnlink := queue } :=
        .one hcons (.administer rfl rfl rfl le_rfl le_rfl (fun _ _ => id) (fun _ => rfl) rfl rfl)
      simp only [Terrier.collectStep, hqueue, Terrier.popTxn]
      split
      · exact hquiet
      · split_ifs
        · refine hquiet.trans (CollectedRun.one hpop (.administer rfl rfl rfl le_rfl le_rfl ?_
            (Collecting.deleteTxn_activeTxn hpop) rfl rfl))
          intro u txn hu
          by_cases hut : u = t
          · simp [State.deleteTxn, hut] at hu
          · simpa [State.deleteTxn, hut] using hu
        · exact hquiet
        · exact hquiet
  | records oldest pass t aborted rest =>
    obtain ⟨hcache, hswept, txn, done, f, ht, hab, hbuf, hfin, hlt, -⟩ := h.valid
    cases rest with
    | nil =>
      exact .one hcons (.administer rfl rfl rfl le_rfl le_rfl (fun _ _ => id)
        (fun _ => rfl) rfl rfl)
    | cons a rest =>
      subst hcache
      have hsame := State.truncateOnce_same σ.cachedOldestTxnStartTime
        (σ, pass.visitedSlots) (σ.undo a)
      have honce : CollectedRun σ (State.truncateOnce σ.cachedOldestTxnStartTime
          (σ, pass.visitedSlots) (σ.undo a)).1 := by
        unfold State.truncateOnce
        split_ifs
        · exact .one hcons (.truncate _)
        · exact Relation.ReflTransGen.refl
      have hcons' := (Swept.truncateOnce hcons hswept (σ.undo a)).1
      simp only [Terrier.collectStep, State.unlinkRecord_fst]
      generalize (State.truncateOnce σ.cachedOldestTxnStartTime
        (σ, pass.visitedSlots) (σ.undo a)).1 = τ at hsame honce hcons' ⊢
      split_ifs with habort
      · exact honce
      · have hundo : σ.undo a = τ.undo a := by rw [hsame]
        have ht' : τ.txns t = some txn := by rw [hsame, ht]
        have hlt' : f < τ.cachedOldestTxnStartTime := by rwa [hsame]
        have ha : a ∈ txn.undoBuffer := by simp [hbuf]
        have hcomm : txn.aborted = false := by simpa [hab] using habort
        rw [hundo]
        exact honce.trans (CollectedRun.one hcons' (.reclaim ht' hcomm ha hfin hlt'))
  | mark txnsUnlinked =>
    simp only [Terrier.collectStep]
    split_ifs
    · exact .one hcons (.administer rfl rfl rfl (Nat.le_succ _) le_rfl (fun _ _ => id)
        (fun _ => rfl) rfl rfl)
    · exact Relation.ReflTransGen.refl

theorem Consistent.collectedRun (h : Consistent [] σ) :
    CollectedRun σ σ.performGarbageCollection := by
  have hpass : ∀ τ pc, Collecting τ pc ∧ CollectedRun σ τ →
      Collecting (Terrier.collectStep τ pc).1 (Terrier.collectStep τ pc).2 ∧
        CollectedRun σ (Terrier.collectStep τ pc).1 := by
    rintro τ pc ⟨hcoll, hrun⟩
    exact ⟨hcoll.collectStep, hrun.trans hcoll.collected⟩
  exact (Collects.invariant (I := fun τ pc => Collecting τ pc ∧ CollectedRun σ τ) hpass
    (Collects.performGarbageCollection σ) ⟨⟨h, trivial⟩, Relation.ReflTransGen.refl⟩).2

theorem Collecting.performGarbageCollection (h : Collecting σ .idle) :
    Collecting σ.performGarbageCollection .idle :=
  Collects.invariant (I := Collecting) (fun _ _ h => h.collectStep)
    (Collects.performGarbageCollection σ) h

end Terrier
