import Terrier.Proof.Writers

/-!
Write-write conflicts. A transaction is kept from a slot by the timestamp at the head of its
version chain. A head that has once stopped a transaction keeps stopping it: every timestamp it
can get is above the start of the transaction.
-/

namespace Terrier

open State

variable {V : Type} {cfg : Config} {pending : List Nat} {σ σ' : State V} {h : List (Event V)}
  {t : Nat} {slot : TupleSlot}

/-- Timestamps that keep the transaction that began at `t` from writing. -/
def Timestamp.blocks (t : Nat) : Timestamp → Prop
  | .txnId u => u ≠ t
  | .time c => t < c

theorem State.hasConflict_iff {txn : TransactionContext V} (hact : σ.activeTxn t = some txn) :
    σ.hasConflict t txn slot = true ↔
      ∃ timestamp, σ.headTimestamp slot = some timestamp ∧ timestamp.blocks t := by
  have hid := (activeTxn_eq_some_iff.mp hact).2
  unfold hasConflict
  rw [hid]
  cases σ.headTimestamp slot with
  | none => simp [hasConflictWith]
  | some timestamp =>
    cases timestamp with
    | time c | txnId u => simp [hasConflictWith, Timestamp.blocks]

structure Blocked (t : Nat) (slot : TupleSlot) (σ : State V) : Prop where
  lt : t < σ.time
  head : ∀ ⦃txn⦄, σ.activeTxn t = some txn →
    ∃ timestamp, σ.headTimestamp slot = some timestamp ∧ timestamp.blocks t

theorem State.headTimestamp_congr (hchain : (σ'.tuples slot).chain = (σ.tuples slot).chain)
    (hundo : ∀ a ∈ (σ.tuples slot).chain, (σ'.undo a).timestamp = (σ.undo a).timestamp) :
    σ'.headTimestamp slot = σ.headTimestamp slot := by
  unfold headTimestamp
  rw [hchain]
  cases hc : (σ.tuples slot).chain with
  | nil => rfl
  | cons a rest => simp [hundo a (by simp [hc])]

namespace Blocked

theorem mono (hblock : Blocked t slot σ) (htime : σ.time ≤ σ'.time)
    (hact : ∀ x, σ'.activeTxn t = some x → ∃ y, σ.activeTxn t = some y)
    (hhead : σ'.headTimestamp slot = σ.headTimestamp slot) : Blocked t slot σ' := by
  refine ⟨hblock.lt.trans_le htime, fun x hx => ?_⟩
  obtain ⟨y, hy⟩ := hact x hx
  rw [hhead]
  exact hblock.head hy

theorem beginTransaction (hblock : Blocked t slot σ) : Blocked t slot σ.beginTransaction := by
  refine hblock.mono (Nat.le_succ _) (fun x hx => ⟨x, ?_⟩) rfl
  obtain ⟨ht, hid⟩ := State.activeTxn_eq_some_iff.mp hx
  refine State.activeTxn_eq_some_iff.mpr ⟨?_, hid⟩
  simpa [State.beginTransaction, hblock.lt.ne] using ht

variable {u : Nat} {txn : TransactionContext V}

/-- Whoever gets a write through on the slot is another transaction, and its
record is the new head. -/
theorem written (hcons : Consistent pending σ) (hblock : Blocked t slot σ) {s : TupleSlot}
    {op : WriteOp V} {delta : UndoDelta V} {tuple : Tuple V} {tables : Nat → DataTable}
    (hact : σ.activeTxn u = some txn) (hwrite : Write cfg σ u txn s op delta tuple tables) :
    Blocked t slot (σ.written cfg u txn s op delta tuple tables) ∧ ¬ (u = t ∧ s = slot) := by
  have hid := (activeTxn_eq_some_iff.mp hact).2
  have hother : ¬ (u = t ∧ s = slot) := by
    rintro ⟨rfl, rfl⟩
    obtain ⟨timestamp, hhead, hblocks⟩ := hblock.head hact
    have hconf := (hasConflict_iff hact).mpr ⟨timestamp, hhead, hblocks⟩
    cases hwrite with
    | insert hcols hslot htabs =>
      simp [headTimestamp, (hcons.unused_free hslot.le).1] at hhead
    | update hcols href | delete href => simp [refuses, hconf] at href
  refine ⟨?_, hother⟩
  have hrunning : ∀ x, (σ.written cfg u txn s op delta tuple tables).activeTxn t = some x →
      ∃ y, σ.activeTxn t = some y := by
    intro x hx
    obtain ⟨y, hy, -⟩ := Writers.activeTxn_afterWrite hcons hact (txns_written ..)
      (undo_written ..) hx
    exact ⟨y, hy⟩
  by_cases hs : s = slot
  · subst hs
    refine ⟨hblock.lt, fun x hx => ⟨.txnId u, ?_, fun hut => hother ⟨hut, rfl⟩⟩⟩
    simp [headTimestamp, tuples_written, undo_written, hid]
  · have hs : slot ≠ s := Ne.symm hs
    refine hblock.mono le_rfl hrunning (headTimestamp_congr ?_ ?_)
    · rw [tuples_written, Function.update_of_ne hs]
    · intro a ha
      rw [undo_written, Function.update_of_ne (hcons.ne_nextUndo_of_chain ha)]

theorem refused (hcons : Consistent pending σ) (hblock : Blocked t slot σ)
    (hact : σ.activeTxn u = some txn) (s : TupleSlot) (op : WriteOp V) (delta : UndoDelta V) :
    Blocked t slot (σ.refused cfg u txn s op delta) := by
  refine hblock.mono (time_refused ..).ge ?_ (headTimestamp_congr ?_ ?_)
  · intro x hx
    obtain ⟨y, hy, -⟩ := Writers.activeTxn_afterWrite hcons hact (txns_refused ..)
      (undo_refused ..) hx
    exact ⟨y, hy⟩
  · rw [tuples_refused]
  · intro a ha
    rw [undo_refused, Function.update_of_ne (hcons.ne_nextUndo_of_chain ha)]

/-- Commit and abort store the current time, which is above the start of every
running transaction. -/
theorem ended (hblock : Blocked t slot σ) {done : TransactionContext V}
    {tuples : TupleSlot → Tuple V} (hended : Ended σ u txn done tuples σ')
    (hchain : ∀ s, (tuples s).chain = (σ.tuples s).chain) : Blocked t slot σ' := by
  refine ⟨hblock.lt.trans_le (by rw [hended.time]; exact Nat.le_succ _), fun x hx => ?_⟩
  obtain ⟨timestamp, hhead, hblocks⟩ := hblock.head (hended.activeTxn.mp hx).2
  cases hc : (σ.tuples slot).chain with
  | nil => simp [headTimestamp, hc] at hhead
  | cons a rest =>
    have hts : (σ.undo a).timestamp = timestamp := by
      simpa [headTimestamp, hc] using hhead
    have hhead' : σ'.headTimestamp slot = some (σ'.undo a).timestamp := by
      simp [headTimestamp, hended.tuples, hchain, hc]
    refine ⟨_, hhead', ?_⟩
    rw [hended.undo, undo_finished]
    split_ifs
    · exact hblock.lt
    · rwa [hts]

/-- The collector cuts chains below the horizon, which a running transaction
keeps at or below its start. -/
theorem collected (hcons : Consistent pending σ) (hstep : Collected σ σ')
    (hblock : Blocked t slot σ) : Blocked t slot σ' := by
  cases hstep with
  | administer htup hundo _ htime _ _ hact =>
    exact hblock.mono htime (fun x hx => ⟨x, (hact t).symm.trans hx⟩)
      (headTimestamp_congr (by rw [htup]) (fun _ _ => by rw [hundo]))
  | truncate s =>
    refine ⟨hblock.lt, fun x hx => ?_⟩
    obtain ⟨timestamp, hhead, hblocks⟩ := hblock.head (show σ.activeTxn t = some x from hx)
    obtain ⟨ht, hid⟩ := activeTxn_eq_some_iff.mp (show σ.activeTxn t = some x from hx)
    have hle := hcons.cached_le_running t (hcons.running_of_active ht hid)
    refine ⟨timestamp, ?_, hblocks⟩
    rw [← hhead]
    unfold headTimestamp
    rw [hcons.truncateVersionChain_tuples]
    split_ifs with hs
    · cases hc : (σ.tuples slot).chain with
      | nil => rfl
      | cons a rest =>
        have hts : (σ.undo a).timestamp = timestamp := by
          simpa [headTimestamp, hc] using hhead
        have hneeded : σ.stillNeeded σ.cachedOldestTxnStartTime a = true := by
          unfold stillNeeded
          rw [hts]
          cases timestamp with
          | txnId u => rfl
          | time c =>
            have hlt : t < c := hblocks
            simp only [Timestamp.newerThan_time_time, Bool.not_eq_true', decide_eq_false_iff_not]
            omega
        simp [hneeded]
        rfl
    · rfl
  | reclaim =>
    next a _ _ _ _ _ _ =>
    have hsame := reclaimSlotIfDeleted_same σ (σ.undo a)
    refine hblock.mono (by rw [hsame]) (fun x hx => ⟨x, ?_⟩) (headTimestamp_congr ?_ ?_)
    · rw [hsame] at hx
      exact hx
    · rw [reclaimSlotIfDeleted_chain]
    · intro b _
      rw [hsame]

/-- One step: the conflict stays, and the step is no accepted write of the
transaction to the slot. -/
theorem step (heng : Engine [] σ) (hblock : Blocked t slot σ) {e : Event V}
    (hstep : Transition cfg σ e σ') :
    Blocked t slot σ' ∧ ∀ op result, e = .write t slot op result → result = false := by
  have hcons := heng.consistent
  cases hstep with
  | begin => exact ⟨hblock.beginTransaction, by simp⟩
  | write hact hwrite =>
    obtain ⟨hnext, hother⟩ := hblock.written hcons hact hwrite
    refine ⟨hnext, fun op result heq => ?_⟩
    obtain ⟨hu, hs, -, -⟩ := Event.write.inj heq
    exact absurd ⟨hu, hs⟩ hother
  | refuse hact href =>
    refine ⟨hblock.refused hcons hact _ _ _, fun op result heq => ?_⟩
    exact (Event.write.inj heq).2.2.2.symm
  | select => exact ⟨hblock, by simp⟩
  | commit hact hmust =>
    obtain ⟨done, -, -, hended⟩ := commit_ended cfg σ _ _
    exact ⟨hblock.ended hended (fun _ => rfl), by simp⟩
  | abort hact =>
    obtain ⟨done, -, -, hended⟩ := abort_ended cfg σ _ _
    exact ⟨hblock.ended hended (restored_chain σ _), by simp⟩
  | performGarbageCollection =>
    exact ⟨hcons.collectedRun.invariant (fun hcons => collected hcons) hblock, by simp⟩
  | process => exact ⟨hblock.mono le_rfl (fun x hx => ⟨x, hx⟩) rfl, by simp⟩

/-- Whole runs: no later write of the transaction to the slot is accepted. -/
theorem steps {k : List (Event V)} (heng : Engine [] σ) (hblock : Blocked t slot σ)
    (hsteps : Steps cfg σ k σ') :
    ∀ op result, Event.write t slot op result ∈ k → result = false := by
  have hall : Engine [] σ' ∧ Blocked t slot σ' ∧
      ∀ op result, Event.write t slot op result ∈ k → result = false := by
    induction hsteps with
    | nil => exact ⟨heng, hblock, by simp⟩
    | snoc _ hstep ih =>
      obtain ⟨heng, hblock, hbef⟩ := ih
      have htrans := step_transition hstep
      obtain ⟨hnext, hlast⟩ := hblock.step heng htrans
      refine ⟨heng.step htrans, hnext, fun op result hmem => ?_⟩
      rcases List.mem_append.mp hmem with hmem | hmem
      · exact hbef op result hmem
      · exact hlast op result (List.mem_singleton.mp hmem).symm
  exact hall.2.2

end Blocked

/-- No lost update. Two transactions that both committed a write of one slot did not overlap, and
a transaction that met a conflict on a slot never writes it later. -/
theorem no_lost_update {junk : TupleSlot → ColId → Option V} (hrun : Run cfg junk h σ) :
    (∀ ⦃t c u d slot⦄, (t, c) ∈ commitsOf h → (u, d) ∈ commitsOf h → t ≠ u →
      writesOf h t slot ≠ [] → writesOf h u slot ≠ [] → c < u ∨ d < t) ∧
    ∀ ⦃t txn slot action op σ₁ k σ₂⦄, σ.activeTxn t = some txn → σ.hasConflict t txn slot = true →
      step cfg σ action = some (σ₁, .write t slot op false) → Steps cfg σ₁ k σ₂ →
      ∀ op' result, Event.write t slot op' result ∈ k → result = false := by
  refine ⟨hrun.writers.committed_apart, ?_⟩
  intro t txn slot action op σ₁ k σ₂ hactive hconflict hstep hsteps
  have hengine := hrun.engine
  have hlt := hengine.consistent.txn_lt (State.activeTxn_eq_some_iff.mp hactive).1
  have hblocked : Blocked t slot σ :=
    ⟨hlt, fun x hx => (State.hasConflict_iff hx).mp
      (by rwa [Option.some.inj (hx.symm.trans hactive)])⟩
  have htransition := step_transition hstep
  exact (hblocked.step hengine htransition).1.steps (hengine.step htransition) hsteps

/-- Transactions 2 and 5 commit updates of one row while transaction 3, which
began before the first of them committed, is still running. -/
def updatedByTwo : List (Action Nat) :=
  [.begin, .insert 0 0 (oneValue (some 10)), .commit 0, .begin, .begin,
    .update 2 ⟨0, 0, 0⟩ (oneValue (some 11)), .commit 2, .begin,
    .update 5 ⟨0, 0, 0⟩ (oneValue (some 12)), .commit 5]

theorem updatedByTwo_runs : (execute oneColumn updatedByTwo
    (State.init (fun _ _ => none))).isSome = true := by
  decide

theorem no_lost_update_of_late_writer :
    ∃ (h k : List (Event Nat)) (σ σ₁ σ₂ : State Nat) (txn : TransactionContext Nat),
      Run oneColumn (fun _ _ => none) h σ ∧ commitsOf h = [(0, 1), (2, 4), (5, 6)] ∧
      (4 < 5 ∨ 6 < 2) ∧ σ.activeTxn 3 = some txn ∧
      step oneColumn σ (.update 3 ⟨0, 0, 0⟩ (oneValue (some 13))) =
        some (σ₁, .write 3 ⟨0, 0, 0⟩ (.update (oneValue (some 13))) false) ∧
      execute oneColumn [.performGarbageCollection, .delete 3 ⟨0, 0, 0⟩] σ₁ = some (σ₂, k) ∧
      ∀ op result, Event.write 3 ⟨0, 0, 0⟩ op result ∈ k → result = false := by
  have hrun := execute_run updatedByTwo_runs
  obtain ⟨hapart, hrefused⟩ := no_lost_update hrun
  obtain ⟨σ₁, hstep, hlater⟩ : ∃ σ₁, step oneColumn ((execute oneColumn updatedByTwo
      (State.init (fun _ _ => none))).get updatedByTwo_runs).1
      (.update 3 ⟨0, 0, 0⟩ (oneValue (some 13))) =
        some (σ₁, .write 3 ⟨0, 0, 0⟩ (.update (oneValue (some 13))) false) ∧
      (execute oneColumn [.performGarbageCollection, .delete 3 ⟨0, 0, 0⟩] σ₁).isSome = true :=
    ⟨_, rfl, by decide⟩
  obtain ⟨⟨σ₂, k⟩, hexec⟩ := Option.isSome_iff_exists.mp hlater
  refine ⟨_, k, _, σ₁, σ₂, _, hrun, rfl, ?_, rfl, hstep, hexec, ?_⟩
  · exact @hapart 2 4 5 6 ⟨0, 0, 0⟩ (by decide) (by decide) (by decide) (by decide) (by decide)
  · exact hrefused rfl rfl hstep (execute_steps hexec)

end Terrier
