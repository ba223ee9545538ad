import Terrier.Proof.Rollback

/-!
Abort undoes a transaction. Rolling back the record of a write leaves the tuple the write found;
so rolling back from the front of the chain leads to the tuple before the first write. A slot
that the transaction inserted is given back instead.
-/

namespace Terrier

open List Option Function ProjectedRow State

variable {V : Type} {cfg : Config} {pending : List Nat} {base σ σ' : State V} {t : Nat}
  {txn : TransactionContext V} {slot : TupleSlot} {op : WriteOp V} {delta : UndoDelta V}
  {tuple : Tuple V} {tables : Nat → DataTable}

abbrev Writes (V : Type) := List (TupleSlot × WriteOp V)

def Writes.Inserts (writes : Writes V) (slot : TupleSlot) : Prop :=
  ∃ redo, (slot, WriteOp.insert redo) ∈ writes

variable {writes : Writes V}

theorem Writes.inserts_append {slot other : TupleSlot} {op : WriteOp V} :
    Writes.Inserts (writes ++ [(slot, op)]) other ↔
      writes.Inserts other ∨ other = slot ∧ ∃ redo, op = .insert redo := by
  simp only [Writes.Inserts, mem_append, mem_singleton, Prod.mk.injEq, exists_or,
    exists_and_left, eq_comm]

/-- A slot given back, if it was inserted, and otherwise the data of the old tuple. -/
def Restored (inserted : Prop) (old tuple : Tuple V) : Prop :=
  (inserted → tuple.allocated = false ∧ tuple.notNull = false) ∧
    (¬ inserted → tuple.allocated = old.allocated ∧ tuple.notNull = old.notNull ∧
      tuple.attrs = old.attrs)

theorem Restored.chain {inserted : Prop} {old : Tuple V} (h : Restored inserted old tuple)
    (chain : List Nat) : Restored inserted old { tuple with chain := chain } := h

theorem UndoDelta.rollback_setChain (delta : UndoDelta V) (tuple : Tuple V) (chain : List Nat) :
    delta.rollback { tuple with chain := chain } =
      { delta.rollback tuple with chain := chain } := by
  cases delta <;> rfl

theorem rollbackAll_setChain (deltas : List (UndoDelta V)) (tuple : Tuple V) (chain : List Nat) :
    rollbackAll deltas { tuple with chain := chain } =
      { rollbackAll deltas tuple with chain := chain } := by
  induction deltas generalizing tuple with
  | nil => rfl
  | cons delta rest ih =>
    simp only [rollbackAll, foldl_cons, UndoDelta.rollback_setChain]
    exact ih (delta.rollback tuple)

/-- Rolling back a write leaves the tuple that it found, or gives back a new slot. -/
theorem Write.rollback_eq (hwrite : Write cfg σ t txn slot op delta tuple tables) :
    (∃ redo, op = .insert redo) ∧ σ.Unused slot ∧ (delta.rollback tuple).allocated = false ∧
        (delta.rollback tuple).notNull = false ∨
      (∀ redo, op ≠ .insert redo) ∧ delta.rollback tuple = σ.tuples slot := by
  cases hwrite with
  | @insert redo _ hcols hslot htabs => exact .inl ⟨⟨redo, rfl⟩, hslot.le, rfl, rfl⟩
  | @update redo hcols href =>
    refine .inr ⟨fun _ h => (by cases h), ?_⟩
    have hattrs : storeAttrs (ofColumns redo.projectionList (σ.tuples slot).attrs).entries
        (storeAttrs redo.entries (σ.tuples slot).attrs) =
        (σ.tuples slot).attrs := by
      rw [storeAttrs_eq_apply, storeAttrs_eq_apply]
      funext c
      simp only [Overwrite.apply, ofColumns_overwrite]
      by_cases hc : c ∈ redo.columnIds
      · simp [projectionList, hc]
      · simp [projectionList, hc, (redo.overwrite_eq_none_iff c).mpr hc]
    simp only [UndoDelta.rollback, hattrs]
  | delete href =>
    refine .inr ⟨fun _ h => (by cases h), ?_⟩
    obtain ⟨-, -, hnull⟩ := refuses_eq_false href
    simp only [UndoDelta.rollback]
    rw [← hnull]

theorem ownVersions_written (hcons : Consistent pending σ) (hact : σ.activeTxn t = some txn)
    (hwrite : Write cfg σ t txn slot op delta tuple tables) (other : TupleSlot) :
    (σ.written cfg t txn slot op delta tuple tables).deltas
        ((σ.written cfg t txn slot op delta tuple tables).ownVersions t other) =
      if other = slot then delta :: σ.deltas (σ.ownVersions t slot)
      else σ.deltas (σ.ownVersions t other) := by
  have hid := (activeTxn_eq_some_iff.mp hact).2
  have hold : ∀ a ∈ (σ.tuples other).chain,
      (σ.written cfg t txn slot op delta tuple tables).undo a = σ.undo a := by
    intro a ha
    rw [undo_written, update_of_ne (hcons.ne_nextUndo_of_chain ha)]
  have hsame : ((σ.tuples other).chain.filter fun a => decide
      (((σ.written cfg t txn slot op delta tuple tables).undo a).timestamp = .txnId t)) =
      σ.ownVersions t other := by
    apply filter_congr
    intro a ha
    rw [hold a ha]
  have hdeltas : (σ.written cfg t txn slot op delta tuple tables).deltas (σ.ownVersions t other) =
      σ.deltas (σ.ownVersions t other) := by
    apply map_congr_left
    intro a ha
    rw [hold a (mem_of_mem_filter ha)]
  rw [ownVersions, tuples_written]
  split_ifs with hslot
  · subst hslot
    have hnew : (σ.written cfg t txn other op delta tuple tables).undo σ.nextUndo =
        ⟨delta, txn.finishTime, some other.table, other⟩ := by
      rw [undo_written, update_self]
    rw [update_self, filter_cons_of_pos (by rw [hnew, hid]; simp), hwrite.chain_eq hcons, hsame]
    change ((σ.written cfg t txn other op delta tuple tables).undo σ.nextUndo).delta ::
      (σ.written cfg t txn other op delta tuple tables).deltas _ = _
    rw [hdeltas, hnew]
  · rw [update_of_ne hslot, hsame, hdeltas]

structure Undoable (base : State V) (t : Nat) (writes : Writes V) (σ : State V)
    (txn : TransactionContext V) : Prop where
  active : σ.activeTxn t = some txn
  untouched : ∀ slot, (∀ op, (slot, op) ∉ writes) → σ.tuples slot = base.tuples slot
  records : ∀ slot, σ.HasRecord txn slot ↔ ∃ op, (slot, op) ∈ writes
  installed : ∀ a ∈ txn.undoBuffer, (σ.undo a).table.isSome
  restored : ∀ slot, Restored (writes.Inserts slot) (base.tuples slot)
    (rollbackAll (σ.deltas (σ.ownVersions t slot)) (σ.tuples slot))

namespace Undoable

theorem start (hcons : Consistent pending base) (hact : base.activeTxn t = some txn)
    (hfirst : txn.undoBuffer = []) : Undoable base t [] base txn := by
  refine ⟨hact, fun _ _ => rfl, ?_, by simp [hfirst], fun slot => ?_⟩
  · simp [State.HasRecord, hfirst]
  · have hown : base.ownVersions t slot = [] := by
      apply filter_eq_nil_iff.2
      intro a ha hts
      have hmem := hcons.mem_buffer_of_chain hact ha (of_decide_eq_true hts)
      rw [hfirst] at hmem
      cases hmem
    rw [hown]
    refine ⟨?_, fun _ => ⟨rfl, rfl, rfl⟩⟩
    rintro ⟨_, hmem⟩
    cases hmem

theorem write (hcons : Consistent pending σ) (h : Undoable base t writes σ txn)
    (hwrite : Write cfg σ t txn slot op delta tuple tables) :
    Undoable base t (writes ++ [(slot, op)]) (σ.written cfg t txn slot op delta tuple tables)
      (txn.afterWrite cfg (op.logRecord t slot) σ.nextUndo txn.mustAbort) := by
  obtain ⟨ht, hid⟩ := activeTxn_eq_some_iff.mp h.active
  have hact : (σ.written cfg t txn slot op delta tuple tables).activeTxn t =
      some (txn.afterWrite cfg (op.logRecord t slot) σ.nextUndo txn.mustAbort) := by
    rw [activeTxn_eq_some_iff, txns_written, update_self]
    exact ⟨rfl, hid⟩
  refine ⟨hact, ?_, ?_, ?_, ?_⟩
  · intro other hnot
    have hne : other ≠ slot := by
      rintro rfl
      exact hnot op (by simp)
    rw [tuples_written, update_of_ne hne]
    exact h.untouched other fun op' hmem => hnot op' (mem_append_left _ hmem)
  · intro other
    obtain ⟨x, hx, hrec⟩ := Writers.activeTxn_afterWrite hcons h.active
      (txns_written ..) (undo_written ..) hact
    rw [h.active, some_inj] at hx
    subst hx
    rw [hrec, h.records]
    constructor
    · rintro (⟨op', hmem⟩ | ⟨-, rfl, -⟩)
      · exact ⟨op', mem_append_left _ hmem⟩
      · exact ⟨op, by simp⟩
    · rintro ⟨op', hmem⟩
      rcases mem_append.1 hmem with hmem | hmem
      · exact .inl ⟨op', hmem⟩
      · cases mem_singleton.1 hmem
        exact .inr ⟨rfl, rfl, rfl⟩
  · intro a ha
    rw [undo_written]
    rcases mem_append.1 ha with ha | ha
    · rw [update_of_ne (hcons.ne_nextUndo_of_buffer ht ha)]
      exact h.installed a ha
    · rw [mem_singleton.1 ha, update_self]
      rfl
  · intro other
    rw [ownVersions_written hcons h.active hwrite, tuples_written]
    split_ifs with hslot
    · subst hslot
      have hstep : ∀ deltas : List (UndoDelta V), rollbackAll (delta :: deltas)
          { tuple with chain := σ.nextUndo :: tuple.chain } =
          { rollbackAll deltas (delta.rollback tuple) with
            chain := σ.nextUndo :: tuple.chain } := by
        intro deltas
        rw [← rollbackAll_setChain, ← UndoDelta.rollback_setChain]
        rfl
      rw [update_self, hstep]
      apply Restored.chain
      rcases hwrite.rollback_eq with ⟨⟨redo, rfl⟩, hunused, hfree, hnull⟩ | ⟨hop, heq⟩
      · have hnone : σ.ownVersions t other = [] := by
          rw [ownVersions, (hcons.unused_free hunused).1, filter_nil]
        rw [hnone]
        refine ⟨fun _ => ⟨hfree, hnull⟩, fun hnot => ?_⟩
        exact absurd ⟨redo, by simp⟩ hnot
      · have hinserts : Writes.Inserts (writes ++ [(other, op)]) other ↔ writes.Inserts other := by
          rw [Writes.inserts_append]
          exact or_iff_left fun ⟨_, redo, hins⟩ => hop redo hins
        rw [heq, Restored, hinserts]
        exact h.restored other
    · have hinserts : Writes.Inserts (writes ++ [(slot, op)]) other ↔ writes.Inserts other := by
        rw [Writes.inserts_append]
        exact or_iff_left fun h => hslot h.1
      rw [update_of_ne hslot, Restored, hinserts]
      exact h.restored other

theorem run (heng : Engine [] base) (hact : base.activeTxn t = some txn)
    (hfirst : txn.undoBuffer = [])
    (hsteps : Steps cfg base (writes.map fun w => .write t w.1 w.2 true) σ) :
    Engine [] σ ∧ ∃ last, Undoable base t writes σ last := by
  generalize hevents : writes.map (fun w => Event.write t w.1 w.2 true) = h at hsteps
  induction hsteps generalizing writes with
  | nil =>
    rw [map_eq_nil_iff.1 hevents]
    exact ⟨heng, txn, start heng.consistent hact hfirst⟩
  | snoc hsteps hstep ih =>
    obtain ⟨front, back, rfl, hfront, hback⟩ := map_eq_append_iff.1 hevents
    obtain ⟨w, rfl, rfl⟩ := map_eq_singleton_iff.1 hback
    obtain ⟨heng', last, hundo⟩ := ih hfront
    have htrans := step_transition hstep
    refine ⟨heng'.step htrans, ?_⟩
    cases htrans with
    | write hact' hwrite =>
      rw [hundo.active, some_inj] at hact'
      subst hact'
      exact ⟨_, hundo.write heng'.consistent hwrite⟩

/-- The tuples after the transaction has aborted, with or without a refused write. -/
theorem restored_spec (hcons : Consistent pending σ) (hact : σ.activeTxn t = some txn)
    (hinst : ∀ a ∈ txn.undoBuffer.dropLast, (σ.undo a).table.isSome)
    (hrecs : ∀ slot, σ.HasRecord txn slot ↔ ∃ op, (slot, op) ∈ writes)
    (huntouched : ∀ slot, (∀ op, (slot, op) ∉ writes) → σ.tuples slot = base.tuples slot)
    (hrestored : ∀ slot, Restored (writes.Inserts slot) (base.tuples slot)
      (rollbackAll (σ.deltas (σ.ownVersions t slot)) (σ.tuples slot))) (slot : TupleSlot) :
    Restored (writes.Inserts slot) (base.tuples slot) (σ.restored txn slot) ∧
      ((∀ op, (slot, op) ∉ writes) → σ.restored txn slot = base.tuples slot) := by
  have hid := (State.activeTxn_eq_some_iff.mp hact).2
  have hroll := State.rollsBack_iff hinst slot
  rw [hrecs] at hroll
  rw [State.restored]
  split_ifs with hrolls
  · rw [hid, hcons.rolledBack_eq_rollbackAll]
    refine ⟨hrestored slot, fun hnot => ?_⟩
    obtain ⟨op, hop⟩ := hroll.1 hrolls
    exact absurd hop (hnot op)
  · have hnot : ∀ op, (slot, op) ∉ writes := fun op hop => hrolls (hroll.2 ⟨op, hop⟩)
    rw [huntouched slot hnot]
    refine ⟨⟨?_, fun _ => ⟨rfl, rfl, rfl⟩⟩, fun _ => rfl⟩
    rintro ⟨redo, hmem⟩
    exact absurd hmem (hnot _)

theorem refused (hcons : Consistent pending σ) (h : Undoable base t writes σ txn) (slot : TupleSlot)
    (op : WriteOp V) (delta : UndoDelta V) :
    (σ.refused cfg t txn slot op delta).activeTxn t =
        some (txn.afterWrite cfg (op.logRecord t slot) σ.nextUndo true) ∧
      ∀ other, Restored (writes.Inserts other) (base.tuples other)
          ((σ.refused cfg t txn slot op delta).restored
            (txn.afterWrite cfg (op.logRecord t slot) σ.nextUndo true) other) ∧
        ((∀ op, (other, op) ∉ writes) → (σ.refused cfg t txn slot op delta).restored
          (txn.afterWrite cfg (op.logRecord t slot) σ.nextUndo true) other =
            base.tuples other) := by
  obtain ⟨ht, hid⟩ := activeTxn_eq_some_iff.mp h.active
  have hact : (σ.refused cfg t txn slot op delta).activeTxn t =
      some (txn.afterWrite cfg (op.logRecord t slot) σ.nextUndo true) := by
    rw [activeTxn_eq_some_iff, txns_refused, update_self]
    exact ⟨rfl, hid⟩
  have hold : ∀ other, ∀ a ∈ (σ.tuples other).chain,
      (σ.refused cfg t txn slot op delta).undo a = σ.undo a := by
    intro other a ha
    rw [undo_refused, update_of_ne (hcons.ne_nextUndo_of_chain ha)]
  have hown : ∀ other, (σ.refused cfg t txn slot op delta).deltas
      ((σ.refused cfg t txn slot op delta).ownVersions t other) =
      σ.deltas (σ.ownVersions t other) := by
    intro other
    have hsame : (σ.refused cfg t txn slot op delta).ownVersions t other =
        σ.ownVersions t other := by
      rw [ownVersions, tuples_refused]
      apply filter_congr
      intro a ha
      rw [hold other a ha]
    rw [hsame]
    apply map_congr_left
    intro a ha
    rw [hold other a (mem_of_mem_filter ha)]
  refine ⟨hact, restored_spec (hcons.refused h.active _ _ _) hact ?_ ?_ ?_ ?_⟩
  · intro a ha
    have hmem : a ∈ txn.undoBuffer := by simpa [TransactionContext.afterWrite] using ha
    rw [undo_refused, update_of_ne (hcons.ne_nextUndo_of_buffer ht hmem)]
    exact h.installed a hmem
  · intro other
    obtain ⟨x, hx, hrec⟩ := Writers.activeTxn_afterWrite hcons h.active
      (txns_refused ..) (undo_refused ..) hact
    rw [h.active, some_inj] at hx
    subst hx
    rw [hrec, ← h.records]
    simp
  · intro other hnot
    rw [tuples_refused]
    exact h.untouched other hnot
  · intro other
    rw [hown, tuples_refused]
    exact h.restored other

end Undoable

theorem Steps.last {h : List (Event V)} {e : Event V} (hsteps : Steps cfg base (h ++ [e]) σ) :
    ∃ σ', Steps cfg base h σ' ∧ Transition cfg σ' e σ := by
  generalize hevents : h ++ [e] = events at hsteps
  cases hsteps with
  | nil => simp at hevents
  | snoc hsteps hstep =>
    obtain ⟨rfl, heq⟩ := append_inj' hevents rfl
    cases heq
    exact ⟨_, hsteps, step_transition hstep⟩

/-- Abort leaves every slot that the transaction did not insert as it was before its first
operation, and gives back the slots that it inserted. -/
theorem abort_undoes {junk : TupleSlot → ColId → Option V} {h : List (Event V)}
    (hrun : Run cfg junk h base) (hactive : base.activeTxn t = some txn)
    (hfirst : txn.undoBuffer = []) (writes : Writes V) (refused : Option (TupleSlot × WriteOp V))
    {time : Nat} (hsteps : Steps cfg base (writes.map (fun w => .write t w.1 w.2 true) ++
      refused.toList.map (fun w => .write t w.1 w.2 false) ++ [.abort t time]) σ)
    (slot : TupleSlot) :
    Restored (writes.Inserts slot) (base.tuples slot) (σ.tuples slot) ∧
      ((∀ op, (slot, op) ∉ writes) → σ.tuples slot = base.tuples slot) := by
  obtain ⟨before, hbefore, habort⟩ := hsteps.last
  cases habort with
  | @abort _ last hlast =>
    obtain ⟨done, -, -, hended⟩ := State.abort_ended cfg before t last
    rw [hended.tuples]
    cases refused with
    | none =>
      rw [toList_none, map_nil, append_nil] at hbefore
      obtain ⟨hengine, txn', hundo⟩ := Undoable.run hrun.engine hactive hfirst hbefore
      rw [hundo.active, some_inj] at hlast
      subst hlast
      exact Undoable.restored_spec hengine.consistent hundo.active
        (fun a ha => hundo.installed a (mem_of_mem_dropLast ha)) hundo.records
        hundo.untouched hundo.restored slot
    | some w =>
      obtain ⟨written, hwritten, hrefused⟩ := hbefore.last
      obtain ⟨hengine, txn', hundo⟩ := Undoable.run hrun.engine hactive hfirst hwritten
      cases hrefused with
      | @refuse _ txn'' _ _ delta hactive'' hrefuses =>
        rw [hundo.active, some_inj] at hactive''
        subst hactive''
        obtain ⟨hactive', hrestored⟩ := hundo.refused hengine.consistent w.1 w.2 delta
        rw [hactive', some_inj] at hlast
        subst hlast
        exact hrestored slot

def oneRow : List (Action Nat) :=
  [.begin, .insert 0 0 (oneValue (some 1)), .commit 0, .begin]

/-- Transaction 2 updates and deletes the row, inserts another one, is refused, and aborts. -/
def changesAndAborts : List (Action Nat) :=
  [.update 2 ⟨0, 0, 0⟩ (oneValue none), .delete 2 ⟨0, 0, 0⟩, .insert 2 0 (oneValue (some 3)),
    .update 2 ⟨0, 0, 0⟩ (oneValue (some 4)), .abort 2]

theorem oneRow_runs : (execute oneColumn oneRow (State.init (fun _ _ => none))).isSome = true := by
  decide

theorem abort_undoes_changes :
    ∃ (base σ : State Nat) (txn : TransactionContext Nat) (writes : Writes Nat),
      base.activeTxn 2 = some txn ∧ writes.length = 3 ∧
      Steps oneColumn base (writes.map (fun w => .write 2 w.1 w.2 true) ++
        [.write 2 ⟨0, 0, 0⟩ (.update (oneValue (some 4))) false] ++ [.abort 2 3]) σ ∧
      (σ.tuples ⟨0, 0, 0⟩).attrs = (base.tuples ⟨0, 0, 0⟩).attrs ∧
      (base.tuples ⟨0, 0, 0⟩).attrs 1 = some 1 ∧ (σ.tuples ⟨0, 0, 1⟩).allocated = false := by
  have hrun := execute_run oneRow_runs
  obtain ⟨⟨σ, events⟩, hexec⟩ : ∃ result, execute oneColumn changesAndAborts
      ((execute oneColumn oneRow (State.init (fun _ _ => none))).get oneRow_runs).1 =
        some result := ⟨_, rfl⟩
  have hsteps := execute_steps hexec
  let writes : Writes Nat := [(⟨0, 0, 0⟩, .update (oneValue none)), (⟨0, 0, 0⟩, .delete),
    (⟨0, 0, 1⟩, .insert (oneValue (some 3)))]
  have hevents : events = writes.map (fun w => .write 2 w.1 w.2 true) ++
      [.write 2 ⟨0, 0, 0⟩ (.update (oneValue (some 4))) false] ++ [.abort 2 3] := by
    cases hexec
    rfl
  rw [hevents] at hsteps
  have hundone := abort_undoes hrun rfl rfl writes
    (some (⟨0, 0, 0⟩, .update (oneValue (some 4)))) hsteps
  refine ⟨_, σ, _, writes, rfl, rfl, hsteps, ?_, rfl, ?_⟩
  · exact ((hundone ⟨0, 0, 0⟩).1.2 (by simp [writes, Writes.Inserts])).2.2
  · exact ((hundone ⟨0, 0, 1⟩).1.1 ⟨oneValue (some 3), by simp [writes]⟩).1

end Terrier
