import Terrier.Proof.Reading

/-!
Garbage collection is invisible. A pass changes nothing that a running transaction can read, and
what it has handed over for deallocation hangs on no version chain any more, whatever the
clients do after a refused write.
-/

namespace Terrier

variable {V : Type} {cfg : Config} {pending : List Nat} {σ σ' : State V} {h : List (Event V)}

/-- The records of a transaction that waits for deallocation are in no chain. -/
theorem Consistent.deallocated_unreachable (hcons : Consistent pending σ) {t : Nat}
    {txn : TransactionContext V} (hqueue : t ∈ σ.txnsToDeallocate) (ht : σ.txns t = some txn)
    {a : Nat} (ha : a ∈ txn.undoBuffer) (slot : TupleSlot) : a ∉ (σ.tuples slot).chain := by
  intro hchain
  obtain ⟨u, y, hu, hau, howner⟩ := hcons.chain_owner hchain
  obtain rfl := hcons.buffer_unique ht hu ha hau
  obtain ⟨x, f, hx, hfin⟩ := hcons.queues_finished t (List.mem_append_right _ hqueue)
  have hnodup := List.disjoint_of_nodup_append hcons.queues_nodup
  rcases howner with hid | hcompl | hunlink | hpend
  · rw [Option.some.inj (hu.symm.trans hx), hfin] at hid
    cases hid
  · exact hnodup (by simp [hcompl]) hqueue
  · exact hnodup (by simp [hunlink]) hqueue
  · exact hnodup (by simp [hpend]) hqueue

theorem Engine.sameReads (heng : Engine [] σ) {t : Nat} {txn : TransactionContext V}
    (hact : σ.activeTxn t = some txn) (slot : TupleSlot) :
    SameReads σ σ.performGarbageCollection t (.txnId t) slot := by
  have hall := heng.consistent.collectedRun.invariant
    (I := fun τ => Tombstones τ ∧ Marked τ ∧ τ.activeTxn t = some txn ∧
      SameReads σ τ t (.txnId t) slot) ?_
    ⟨heng.tombstones, heng.marked, hact, .refl σ t _ slot⟩
  · exact hall.2.2.2
  · rintro pending τ τ' hcons hstep ⟨htomb, hmark, hτ, hreads⟩
    have hkeeps := KeepsReads.of_collected hcons htomb hmark hstep
    exact ⟨htomb.collected hstep, hmark.collected hstep, (hkeeps.activeTxn t).trans hτ,
      hreads.trans (hkeeps.sameReads hcons hτ slot)⟩

/-- In every reachable state timestamps do not increase along a chain, a garbage collection pass
changes no result of `Select` or `IsVisible`, and after it no record of a transaction in the
deallocation queue can be reached from a slot. -/
theorem garbage_collection_unseen {junk : TupleSlot → ColId → Option V} (hrun : Run cfg junk h σ) :
    (∀ slot, (σ.tuples slot).chain.Pairwise
      (fun a b => (σ.undo b).timestamp.newerThan (σ.undo a).timestamp = false)) ∧
    (∀ t txn slot, σ.activeTxn t = some txn →
      SameReads σ σ.performGarbageCollection t txn.finishTime slot) ∧
    ∀ t ∈ σ.performGarbageCollection.txnsToDeallocate, ∀ txn,
      σ.performGarbageCollection.txns t = some txn → ∀ a ∈ txn.undoBuffer, ∀ slot,
        a ∉ (σ.performGarbageCollection.tuples slot).chain := by
  have hengine := hrun.engine
  refine ⟨?_, ?_, ?_⟩
  · intro slot
    exact (hengine.consistent.chain_sorted slot).imp Timestamp.newerThan_of_precedes_self
  · intro t txn slot hactive
    rw [(State.activeTxn_eq_some_iff.mp hactive).2]
    exact hengine.sameReads hactive slot
  · intro t hqueue txn ht a ha slot
    exact hengine.performGarbageCollection.consistent.deallocated_unreachable hqueue ht ha slot

def oldVersions : List (Action Nat) :=
  [.begin, .insert 0 0 (oneValue (some 10)), .commit 0, .begin,
    .update 2 ⟨0, 0, 0⟩ (oneValue (some 11)), .commit 2, .process, .begin]

theorem oldVersions_runs : (execute oneColumn oldVersions
    (State.init (fun _ _ => none))).isSome = true := by
  decide

theorem garbage_collection_unseen_of_old_versions :
    ∃ (h : List (Event Nat)) (σ : State Nat), Run oneColumn (fun _ _ => none) h σ ∧
      (σ.tuples ⟨0, 0, 0⟩).chain = [1, 0] ∧
      (σ.performGarbageCollection.tuples ⟨0, 0, 0⟩).chain = [] ∧
      σ.performGarbageCollection.txnsToDeallocate = [0, 2] ∧
      SameReads σ σ.performGarbageCollection 4 (.txnId 4) ⟨0, 0, 0⟩ := by
  have hrun := execute_run oldVersions_runs
  exact ⟨_, _, hrun, rfl, rfl, rfl, (garbage_collection_unseen hrun).2.1 4 _ ⟨0, 0, 0⟩ rfl⟩

end Terrier
