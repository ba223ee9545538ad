import Terrier.Proof.Operations

/-!
Deleted slots stay deleted. Once a delete has been installed, no write is accepted on the slot
before that delete is rolled back. The garbage collector relies on it when it frees the slot.
-/

namespace Terrier

open State Function

variable {V : Type} {cfg : Config} {pending : List Nat} {σ σ' : State V}

/-- A delete that was not rolled back: the tuple is marked deleted and nothing
has been installed on top of it. -/
def Tombstones (σ : State V) : Prop :=
  ∀ ⦃t txn a⦄, σ.txns t = some txn → txn.aborted = false → a ∈ txn.undoBuffer →
    (σ.undo a).table.isSome → (σ.undo a).delta = .delete →
    (σ.tuples (σ.undo a).slot).notNull = false ∧
      ∀ b, (σ.tuples (σ.undo a).slot).chain.head? = some b → b = a

theorem State.rolledBack_eq_of_head {finishTime : Timestamp} {slot : TupleSlot}
    (hhead : ∀ b, (σ.tuples slot).chain.head? = some b → (σ.undo b).timestamp ≠ finishTime) :
    σ.rolledBack finishTime slot = σ.tuples slot := by
  unfold rolledBack
  cases hchain : (σ.tuples slot).chain with
  | nil => rfl
  | cons b rest =>
    have hne := hhead b (by simp [hchain])
    simp [rollbackChain, hne]

/-- The records of another transaction do not carry the identity of `t`. -/
theorem Consistent.buffer_timestamp_ne (hcons : Consistent pending σ) {t u a : Nat}
    {x : TransactionContext V} (hu : σ.txns u = some x) (ha : a ∈ x.undoBuffer) (hut : u ≠ t) :
    (σ.undo a).timestamp ≠ .txnId t := by
  rw [hcons.buffer_timestamp hu ha]
  rcases hcons.finish hu with hid | ⟨f, hf, -, -⟩
  · simp [hid, hut]
  · simp [hf]

namespace Tombstones

theorem init (junk : TupleSlot → ColId → Option V) : Tombstones (State.init junk) := by
  intro t txn a ht
  simp [State.init] at ht

theorem congr (h : Tombstones σ)
    (htxns : ∀ t txn, σ'.txns t = some txn → txn.undoBuffer = [] ∨ ∃ x, σ.txns t = some x ∧
      x.aborted = txn.aborted ∧ x.undoBuffer = txn.undoBuffer)
    (hundo : σ'.undo = σ.undo)
    (htup : ∀ slot, ((σ.tuples slot).notNull = false → (σ'.tuples slot).notNull = false) ∧
      ∀ b, (σ'.tuples slot).chain.head? = some b → (σ.tuples slot).chain.head? = some b) :
    Tombstones σ' := by
  intro t txn a ht hab ha hsome hdel
  rw [hundo] at hsome hdel ⊢
  rcases htxns t txn ht with hnil | ⟨x, hx, hxab, hxbuf⟩
  · simp [hnil] at ha
  · obtain ⟨hnull, hhead⟩ := h hx (hxab.trans hab) (hxbuf ▸ ha) hsome hdel
    exact ⟨(htup _).1 hnull, fun b hb => hhead b ((htup _).2 b hb)⟩

theorem collected (hstep : Collected σ σ') (h : Tombstones σ) : Tombstones σ' := by
  cases hstep with
  | administer htup hundo _ _ _ htxns =>
    refine h.congr (fun t txn ht => Or.inr ⟨txn, htxns t txn ht, rfl, rfl⟩) hundo ?_
    intro slot
    rw [htup]
    exact ⟨id, fun b => id⟩
  | truncate slot =>
    refine h.congr (fun t txn ht => Or.inr ⟨txn, ht, rfl, rfl⟩) rfl ?_
    intro s
    by_cases hs : s = slot
    · subst hs
      simp only [truncateVersionChain, setTuple, update_self, imp_self, true_and]
      intro b hb
      cases hchain : (σ.tuples s).chain with
      | nil => simp [hchain] at hb
      | cons c rest =>
        rw [hchain, List.takeWhile_cons] at hb
        split_ifs at hb
        · simpa using hb
        · simp at hb
    · simp [truncateVersionChain, setTuple, hs]
  | reclaim ht habort ha hfin hlt =>
    next a _ =>
    have hsame := reclaimSlotIfDeleted_same σ (σ.undo a)
    refine h.congr (fun t txn ht => ?_) (by rw [hsame]) ?_
    · rw [hsame] at ht
      exact .inr ⟨txn, ht, rfl, rfl⟩
    · intro s
      refine ⟨fun hnull => ?_, by simp [reclaimSlotIfDeleted_chain]⟩
      unfold reclaimSlotIfDeleted
      split
      · by_cases hs : s = (σ.undo a).slot
        · simpa [setTuple, hs] using hs ▸ hnull
        · simpa [setTuple, hs] using hnull
      · exact hnull
      · exact hnull

theorem beginTransaction (h : Tombstones σ) : Tombstones σ.beginTransaction := by
  refine h.congr (fun t txn ht => ?_) rfl (fun s => ⟨id, fun b => id⟩)
  obtain ⟨-, rfl⟩ | ⟨-, hold⟩ := update_eq_some ht
  · exact .inl rfl
  · exact .inr ⟨txn, hold, rfl, rfl⟩

theorem setMustAbort (h : Tombstones σ) (t : Nat) : Tombstones (σ.setMustAbort t) := by
  unfold State.setMustAbort
  split
  · exact h
  next txn ht =>
    refine h.congr (fun u x hu => Or.inr ?_) rfl (fun s => ⟨id, fun b => id⟩)
    obtain ⟨rfl, rfl⟩ | ⟨-, hold⟩ := State.update_eq_some hu
    · exact ⟨txn, ht, rfl, rfl⟩
    · exact ⟨x, hold, rfl, rfl⟩

section

variable {t : Nat} {txn : TransactionContext V} (hcons : Consistent pending σ) (h : Tombstones σ)
    (hact : σ.activeTxn t = some txn)
include hcons h hact

/-- A new undo record: its slot must not be a deleted one, unless it is never
installed, and if it is a delete it must have marked its tuple. -/
theorem write (staged : TransactionContext V) (hbuf : staged.undoBuffer = txn.undoBuffer)
    (habort : staged.aborted = txn.aborted) (record : UndoRecord V)
    {tuples : TupleSlot → Tuple V}
    (hsame : ∀ slot, (record.table.isSome → slot ≠ record.slot) → tuples slot = σ.tuples slot)
    (hclear : record.table.isSome → ∀ ⦃u x a⦄, σ.txns u = some x → x.aborted = false →
      a ∈ x.undoBuffer → (σ.undo a).table.isSome → (σ.undo a).delta = .delete →
      (σ.undo a).slot ≠ record.slot)
    (hnew : record.table.isSome → record.delta = .delete → (tuples record.slot).notNull = false ∧
        (tuples record.slot).chain.head? = some σ.nextUndo) :
    Tombstones { σ.newUndo t staged record with tuples := tuples } := by
  obtain ⟨ht, -⟩ := activeTxn_eq_some_iff.mp hact
  have hold : ∀ {u x a}, σ.txns u = some x → x.aborted = false → a ∈ x.undoBuffer →
      (update σ.undo σ.nextUndo record a).table.isSome →
      (update σ.undo σ.nextUndo record a).delta = .delete →
      (tuples (update σ.undo σ.nextUndo record a).slot).notNull = false ∧
        ∀ b, (tuples (update σ.undo σ.nextUndo record a).slot).chain.head? = some b → b = a := by
    intro u x a hu hab ha hsome hdel
    rw [update_of_ne (hcons.ne_nextUndo_of_buffer hu ha)] at hsome hdel ⊢
    rw [hsame _ (fun hrec => hclear hrec hu hab ha hsome hdel)]
    exact h hu hab ha hsome hdel
  intro u y a hu hab ha hsome hdel
  obtain ⟨rfl, rfl⟩ | ⟨-, hu⟩ := update_eq_some hu
  · rcases List.mem_append.mp ha with ha | ha
    · exact hold ht (habort.symm.trans hab) (hbuf ▸ ha) hsome hdel
    · obtain rfl := List.mem_singleton.mp ha
      simp only [newUndo, update_self] at hsome hdel ⊢
      obtain ⟨hnull, hhead⟩ := hnew hsome hdel
      exact ⟨hnull, fun b hb => by simpa [hhead] using hb.symm⟩
  · exact hold hu hab ha hsome hdel

theorem written {slot : TupleSlot} {op : WriteOp V} {delta : UndoDelta V} {tuple : Tuple V}
    {tables : Nat → DataTable} (hwrite : Write cfg σ t txn slot op delta tuple tables) :
    Tombstones (σ.written cfg t txn slot op delta tuple tables) := by
  have hbase := (hcons.setTables hwrite.unused_of_unused).addBuffersToFlushQueue
    (txn.stage cfg (op.logRecord t slot)).2
  refine write hbase h hact (txn.stage cfg (op.logRecord t slot)).1 rfl rfl
    ⟨delta, txn.finishTime, some slot.table, slot⟩ ?_ ?_ ?_
  · intro s hs
    have hne : s ≠ slot := hs rfl
    simp [hne, newUndo, addBuffersToFlushQueue]
  · intro _ u x a hu hab ha hsome hdel hsameSlot
    obtain ⟨hnull, -⟩ := h hu hab ha hsome hdel
    obtain rfl : (σ.undo a).slot = slot := hsameSlot
    cases hwrite with
    | insert hcols hslot htabs =>
      exact hcons.buffer_used hu ha hsome hslot.le
    | update hcols href | delete href =>
      simp [(refuses_eq_false href).2.2] at hnull
  · intro _ hdel
    cases hwrite with
    | insert hcols hslot htabs | update hcols href => cases hdel
    | delete href => simp [addBuffersToFlushQueue]

theorem refused (slot : TupleSlot) (op : WriteOp V) (delta : UndoDelta V) :
    Tombstones (σ.refused cfg t txn slot op delta) := by
  refine setMustAbort ?_ t
  have hbase := hcons.addBuffersToFlushQueue (txn.stage cfg (op.logRecord t slot)).2
  exact write hbase h hact (txn.stage cfg (op.logRecord t slot)).1 rfl rfl
    ⟨delta, txn.finishTime, none, slot⟩ (fun s _ => rfl) (by simp) (by simp)

end

/-- A transaction that ends keeps its tombstones if it commits. When it aborts
they need not survive, but those of the others must. -/
theorem ended (h : Tombstones σ) {t : Nat} {txn done : TransactionContext V}
    (ht : σ.txns t = some txn) {tuples : TupleSlot → Tuple V}
    (hended : Ended σ t txn done tuples σ') (habort : txn.aborted = true → done.aborted = true)
    (htup : ∀ ⦃u x a⦄, σ.txns u = some x → x.aborted = false → a ∈ x.undoBuffer →
      (σ.undo a).table.isSome → (σ.undo a).delta = .delete →
      (u = t → done.aborted = false) →
      tuples (σ.undo a).slot = σ.tuples (σ.undo a).slot) : Tombstones σ' := by
  intro u y a hu hab ha hsome hdel
  simp only [hended.txns, hended.tuples, hended.undo, undo_finished_slot,
    undo_finished_delta, undo_finished_table] at hu hsome hdel ⊢
  obtain ⟨rfl, rfl⟩ | ⟨hut, hu⟩ := update_eq_some hu
  · have habx : txn.aborted = false := by
      by_contra hne
      rw [habort (by simpa using hne)] at hab
      cases hab
    rw [hended.undoBuffer] at ha
    rw [htup ht habx ha hsome hdel (fun _ => hab)]
    exact h ht habx ha hsome hdel
  · rw [htup hu hab ha hsome hdel (fun heq => absurd heq hut)]
    exact h hu hab ha hsome hdel

theorem commit (h : Tombstones σ) {t : Nat} {txn : TransactionContext V}
    (hact : σ.activeTxn t = some txn) : Tombstones (σ.commit cfg t txn) := by
  obtain ⟨done, -, habort, hended⟩ := commit_ended cfg σ t txn
  exact h.ended (activeTxn_eq_some_iff.mp hact).1 hended (fun h => habort ▸ h)
    (fun _ _ _ _ _ _ _ _ _ => rfl)

/-- A rollback finds nothing of its own on a slot that someone else deleted. -/
theorem rolledBack_eq (hcons : Consistent pending σ) (h : Tombstones σ) {t : Nat} {u : Nat}
    {x : TransactionContext V} {a : Nat} (hu : σ.txns u = some x) (hab : x.aborted = false)
    (ha : a ∈ x.undoBuffer) (hsome : (σ.undo a).table.isSome) (hdel : (σ.undo a).delta = .delete)
    (hut : u ≠ t) : σ.rolledBack (.txnId t) (σ.undo a).slot = σ.tuples (σ.undo a).slot := by
  obtain ⟨-, hhead⟩ := h hu hab ha hsome hdel
  apply rolledBack_eq_of_head
  intro b hb
  rw [hhead b hb]
  exact hcons.buffer_timestamp_ne hu ha hut

theorem abort (hcons : Consistent pending σ) (h : Tombstones σ) {t : Nat}
    {txn : TransactionContext V} (hact : σ.activeTxn t = some txn) :
    Tombstones (σ.abort cfg t txn) := by
  obtain ⟨ht, hid⟩ := activeTxn_eq_some_iff.mp hact
  obtain ⟨done, -, habort, hended⟩ := abort_ended cfg σ t txn
  apply h.ended ht hended (fun _ => habort)
  intro u x a hu hab ha hsome hdel hne
  have hut : u ≠ t := fun heq => by simp [habort] at hne; exact hne heq
  rw [restored, hid, rolledBack_eq hcons h hu hab ha hsome hdel hut, ite_self]

end Tombstones

end Terrier
