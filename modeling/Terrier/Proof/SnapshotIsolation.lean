import Terrier.Proof.Versions

/-!
Reads are snapshot reads. The version that `Select` and `IsVisible` arrive at
represents the row that the specification assigns to the reader, in every run
under the contract of `SqlTable`.
-/

namespace Terrier

variable {V : Type} {cfg : Config} {pending : List Nat} {σ σ' : State V} {h : List (Event V)}

namespace Versions

variable {t : Nat} {txn : TransactionContext V}

theorem version (hcons : Consistent pending σ) (hw : Writers h σ) (hv : Versions cfg h σ)
    (hact : σ.activeTxn t = some txn) (slot : TupleSlot) :
    Represents cfg slot.table (σ.version t txn.finishTime slot) (snapshot h t slot) := by
  have hid := (State.activeTxn_eq_some_iff.mp hact).2
  have hhead : σ.headTimestamp slot = some (.txnId t) ↔ σ.HasRecord txn slot := by
    rw [State.headTimestamp_eq_iff (hcons.own_frontClosed t slot)]
    constructor
    · rintro ⟨a, ha, hts⟩
      exact ⟨a, hcons.mem_buffer_of_chain hact ha hts, hcons.chain_record ha⟩
    · rintro ⟨a, ha, hslot, hsome⟩
      obtain ⟨ht, -⟩ := State.activeTxn_eq_some_iff.mp hact
      have hmem := hcons.installed_of_active ht hid ha hsome
      exact ⟨a, hslot ▸ hmem, (hcons.buffer_timestamp ht ha).trans hid⟩
  unfold State.version
  rw [hid]
  split_ifs with hown
  · exact (hv.own hact (hhead.mp hown)).1
  · refine hv.atStart hcons hw hact ?_
    by_contra hne
    exact hown (hhead.mpr ((hw.active_writes slot hact).mp hne))

theorem snapshot_of_free (hcons : Consistent pending σ) (hw : Writers h σ) (hv : Versions cfg h σ)
    (hact : σ.activeTxn t = some txn) {slot : TupleSlot}
    (hfree : (σ.tuples slot).allocated = false) : snapshot h t slot = none := by
  obtain ⟨ht, hid⟩ := State.activeTxn_eq_some_iff.mp hact
  have hnil : writesOf h t slot = [] := by
    by_contra hne
    have halloc := (hv.own hact ((hw.active_writes slot hact).mp hne)).2
    simp [hfree] at halloc
  have hle := hcons.cached_le_running t (hcons.running_of_active ht hid)
  rw [snapshot, hnil, ← committedBefore_start hw hact]
  exact hv.free hfree hle

end Versions

variable {t : Nat} {txn : TransactionContext V}

/-- `Select` of a running transaction, whatever else has happened so far. -/
theorem Refines.selectIntoBuffer (href : Refines cfg h σ) (hact : σ.activeTxn t = some txn)
    {slot : TupleSlot} {outBuffer : ProjectedRow V}
    (hcols : cfg.ValidColumns slot.table outBuffer) :
    ((σ.selectIntoBuffer t txn.finishTime slot outBuffer).1 = true ↔ (snapshot h t slot).isSome) ∧
      ∀ row, snapshot h t slot = some row → (σ.selectIntoBuffer t txn.finishTime slot outBuffer).2 =
          outBuffer.entries.map (fun entry => (entry.1, row entry.1)) := by
  obtain ⟨⟨hcons, -, -, -⟩, hw, -, hv⟩ := href
  rw [State.selectIntoBuffer_eq, State.seen_eq_version (hcons.readable slot)]
  have hrep := hv.version hcons hw hact slot
  by_cases halloc : (σ.tuples slot).allocated = true
  · rw [if_pos halloc]
    refine ⟨hrep.visible_iff, fun row hrow => ?_⟩
    rw [hrow] at hrep
    refine List.map_congr_left (fun entry hentry => ?_)
    have hmem : entry.1 ∈ outBuffer.columnIds := List.mem_map_of_mem hentry
    rw [hrep.2 entry.1 (outBuffer.noVersionPointer _ hmem) (hcols.2 _ hmem)]
  · rw [if_neg halloc, hv.snapshot_of_free hcons hw hact (by simpa using halloc)]
    simp

theorem Refines.isVisible (href : Refines cfg h σ) (hact : σ.activeTxn t = some txn)
    (slot : TupleSlot) : σ.isVisible t txn.finishTime slot = true ↔ (snapshot h t slot).isSome := by
  obtain ⟨⟨hcons, -, -, -⟩, hw, -, hv⟩ := href
  rw [State.isVisible_eq, State.seen_eq_version (hcons.readable slot)]
  exact (hv.version hcons hw hact slot).visible_iff

/-- Snapshot isolation: after any run under the contract, `Select` returns
true exactly for the tuples of the reader's snapshot, and then with the values
of the snapshot in every column that was asked for. -/
theorem select_eq_snapshot {junk : TupleSlot → ColId → Option V} (hrun : Run cfg junk h σ)
    (hcontract : MustAbortContract h) {t : Nat} {slot : TupleSlot} {outBuffer : ProjectedRow V}
    {e : Event V} (hstep : step cfg σ (.select t slot outBuffer) = some (σ', e)) :
    ∃ visible buffer, e = .select t slot visible buffer ∧
      (visible = true ↔ (snapshot h t slot).isSome) ∧
      ∀ row, snapshot h t slot = some row →
        buffer = outBuffer.entries.map (fun entry => (entry.1, row entry.1)) := by
  simp only [step] at hstep
  split at hstep
  · cases hstep
  next txn hactive =>
    split_ifs at hstep with hcols
    obtain ⟨-, rfl⟩ := Prod.mk.inj (Option.some.inj hstep)
    exact ⟨_, _, rfl, (hrun.refines hcontract).selectIntoBuffer hactive hcols⟩

/-- A row is committed and then overwritten by another transaction, while a
reader that began in between is still running. -/
def overwrittenWhileReading : List (Action Nat) :=
  [.begin, .insert 0 0 (oneValue (some 10)), .commit 0, .begin, .begin,
    .update 3 ⟨0, 0, 0⟩ (oneValue (some 11)), .commit 3, .process, .performGarbageCollection]

theorem overwrittenWhileReading_runs : (execute oneColumn overwrittenWhileReading
    (State.init (fun _ _ => none))).isSome = true := by
  decide

theorem select_eq_snapshot_of_old_version :
    ∃ (h : List (Event Nat)) (σ : State Nat), Run oneColumn (fun _ _ => none) h σ ∧
      MustAbortContract h ∧
      step oneColumn σ (.select 2 ⟨0, 0, 0⟩ (oneValue none)) =
        some (σ, .select 2 ⟨0, 0, 0⟩ true [(1, some 10)]) ∧
      (snapshot h 2 ⟨0, 0, 0⟩).isSome ∧
      ∀ row, snapshot h 2 ⟨0, 0, 0⟩ = some row → row 1 = some 10 := by
  have hrun := execute_run overwrittenWhileReading_runs
  have hcontract : MustAbortContract ((execute oneColumn overwrittenWhileReading
      (State.init (fun _ _ => none))).get overwrittenWhileReading_runs).2 := by decide
  refine ⟨_, _, hrun, hcontract, rfl, ?_⟩
  obtain ⟨visible, buffer, he, hvisible, hrow⟩ := select_eq_snapshot hrun hcontract
    (show step oneColumn _ (.select 2 ⟨0, 0, 0⟩ (oneValue none)) =
      some (_, .select 2 ⟨0, 0, 0⟩ true [(1, some 10)]) from rfl)
  obtain ⟨-, -, rfl, rfl⟩ := Event.select.inj he
  refine ⟨hvisible.mp rfl, fun row hsnapshot => ?_⟩
  have hbuffer := hrow row hsnapshot
  simp only [oneValue, List.map_cons, List.map_nil, List.cons.injEq, Prod.mk.injEq] at hbuffer
  exact hbuffer.1.2.symm

end Terrier
