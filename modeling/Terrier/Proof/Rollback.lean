import Terrier.Proof.Reading
import Terrier.Proof.Writers

/-!
What the rollback of an aborting transaction leaves in its slots. Restoring a tuple in place and
walking over the records as a reader come to the same view, as long as the tuple is allocated and
an insert is the oldest record of its chain.
-/

namespace Terrier

open List

variable {V : Type} {cfg : Config} {pending : List Nat} {σ σ' : State V} {h : List (Event V)}

def rollbackAll (deltas : List (UndoDelta V)) (tuple : Tuple V) : Tuple V :=
  deltas.foldl (fun tuple delta => delta.rollback tuple) tuple

variable {delta : UndoDelta V} {tuple : Tuple V} {e : Event V}

theorem UndoDelta.rollback_view (halloc : tuple.allocated = true) :
    (delta.rollback tuple).view = delta.undo tuple.view := by
  cases delta with
  | update before =>
    simp only [UndoDelta.rollback, UndoDelta.undo, Tuple.view, Tuple.visible]
    rw [ProjectedRow.storeAttrs_eq_apply]
  | insert => rfl
  | delete => simp [UndoDelta.rollback, UndoDelta.undo, Tuple.view, Tuple.visible, halloc]

theorem UndoDelta.rollback_allocated (hdelta : delta ≠ .insert) (tuple : Tuple V) :
    (delta.rollback tuple).allocated = tuple.allocated := by
  cases delta with
  | update before => rfl
  | delete => rfl
  | insert => exact absurd rfl hdelta

theorem rollbackAll_allocated (deltas : List (UndoDelta V)) (hins : UndoDelta.insert ∉ deltas) :
    (rollbackAll deltas tuple).allocated = tuple.allocated := by
  induction deltas generalizing tuple with
  | nil => rfl
  | cons delta deltas ih =>
    obtain ⟨hne, hrest⟩ := not_or.mp (mt mem_cons.mpr hins)
    exact (ih hrest).trans (UndoDelta.rollback_allocated (Ne.symm hne) tuple)

theorem rollbackAll_view {deltas : List (UndoDelta V)}
    (hlast : deltas.Pairwise (fun delta _ => delta ≠ .insert)) (halloc : tuple.allocated = true) :
    (rollbackAll deltas tuple).view = undoAll deltas tuple.view := by
  induction deltas generalizing tuple with
  | nil => rfl
  | cons delta deltas ih =>
    obtain ⟨hhead, htail⟩ := pairwise_cons.mp hlast
    rw [undoAll_cons, ← UndoDelta.rollback_view halloc]
    cases deltas with
    | nil => rfl
    | cons next rest =>
      refine ih htail ?_
      rw [UndoDelta.rollback_allocated (hhead next mem_cons_self), halloc]

namespace State

def ownVersions (σ : State V) (t : Nat) (slot : TupleSlot) : List Nat :=
  (σ.tuples slot).chain.filter (fun a => decide ((σ.undo a).timestamp = .txnId t))

def foreignVersions (σ : State V) (t : Nat) (slot : TupleSlot) : List Nat :=
  (σ.tuples slot).chain.filter (fun a => !decide ((σ.undo a).timestamp = .txnId t))

def deltas (σ : State V) (chain : List Nat) : List (UndoDelta V) :=
  chain.map (fun a => (σ.undo a).delta)

theorem rollbackChain_eq (σ : State V) (finishTime : Timestamp) (chain : List Nat)
    (tuple : Tuple V) :
    σ.rollbackChain finishTime chain tuple = rollbackAll (σ.deltas
        (chain.takeWhile (fun a => decide ((σ.undo a).timestamp = finishTime)))) tuple := by
  induction chain generalizing tuple with
  | nil => rfl
  | cons a chain ih =>
    by_cases hown : (σ.undo a).timestamp = finishTime
    · rw [takeWhile_cons_of_pos (by simpa using hown), rollbackChain, if_pos hown, ih]
      rfl
    · rw [takeWhile_cons_of_neg (by simpa using hown), rollbackChain, if_neg hown]
      rfl

end State

namespace Consistent

theorem own_append_foreign (hcons : Consistent pending σ) (t : Nat) (slot : TupleSlot) :
    σ.ownVersions t slot ++ σ.foreignVersions t slot = (σ.tuples slot).chain :=
  SortedPrefix.filter_append_filter_not (hcons.own_frontClosed t slot)

theorem rolledBack_eq_rollbackAll (hcons : Consistent pending σ) (t : Nat) (slot : TupleSlot) :
    σ.rolledBack (.txnId t) slot =
      rollbackAll (σ.deltas (σ.ownVersions t slot)) (σ.tuples slot) := by
  rw [State.rolledBack, State.rollbackChain_eq,
    SortedPrefix.takeWhile_eq_filter (hcons.own_frontClosed t slot)]
  rfl

/-- A reader at any time first undoes what is not committed. -/
theorem readAt_split (hcons : Consistent pending σ) (t time : Nat) (slot : TupleSlot) :
    σ.readAt time slot = undoAll (σ.deltas ((σ.foreignVersions t slot).filter (σ.tooNew time)))
        (undoAll (σ.deltas (σ.ownVersions t slot)) (σ.tuples slot).view) := by
  have hown : (σ.ownVersions t slot).filter (σ.tooNew time) = σ.ownVersions t slot := by
    rw [filter_eq_self]
    intro a ha
    have hts : (σ.undo a).timestamp = .txnId t := by
      simpa using (mem_filter.mp ha).2
    simp [State.tooNew, hts]
  unfold State.readAt
  conv_lhs => rw [← hcons.own_append_foreign t slot]
  rw [filter_append, hown, map_append, undoAll_append]
  rfl

end Consistent

/-- Rollback reaches exactly the slots with an installed record, if only the last record
of the buffer may not be installed. -/
theorem State.rollsBack_iff {txn : TransactionContext V}
    (hinst : ∀ a ∈ txn.undoBuffer.dropLast, (σ.undo a).table.isSome) (slot : TupleSlot) :
    σ.rollsBack txn.undoBuffer slot = true ↔ σ.HasRecord txn slot := by
  unfold State.rollsBack
  cases hfind : txn.undoBuffer.find? (fun a => decide ((σ.undo a).slot = slot)) with
  | none =>
    have hnone := find?_eq_none.mp hfind
    simp only [Option.map_none, Option.getD_none, Bool.false_eq_true, false_iff]
    rintro ⟨a, ha, hslot, -⟩
    exact hnone a ha (by simpa using hslot)
  | some a =>
    obtain ⟨ha, hslot⟩ : a ∈ txn.undoBuffer ∧ (σ.undo a).slot = slot :=
      ⟨mem_of_find?_eq_some hfind, by simpa using find?_some hfind⟩
    refine ⟨fun hsome => ⟨a, ha, hslot, hsome⟩, ?_⟩
    rintro ⟨b, hb, hbslot, hbsome⟩
    -- the only record that may lack a table comes last, so `b` is not behind it
    by_cases hlast : a ∈ txn.undoBuffer.dropLast
    · exact hinst a hlast
    · obtain ⟨front, back, hsplit, hfront⟩ : ∃ front back, txn.undoBuffer = front ++ a :: back ∧
          ∀ x ∈ front, (σ.undo x).slot ≠ slot := by
        obtain ⟨-, front, back, hsplit, hfront⟩ := find?_eq_some_iff_append.mp hfind
        exact ⟨front, back, hsplit, fun x hx => by simpa using hfront x hx⟩
      have hback : back = [] := by
        by_contra hne
        apply hlast
        rw [hsplit, dropLast_append_of_ne_nil (cons_ne_nil a back), dropLast_cons_of_ne_nil hne]
        simp
      rw [hsplit, hback] at hb
      rcases mem_append.mp hb with hb | hb
      · exact absurd hbslot (hfront b hb)
      · rwa [← mem_singleton.mp hb]

/-- Buffers under the contract of `SqlTable`: only the last record of a
running transaction may be a refused write, and then the history tells. -/
structure Disciplined (h : List (Event V)) (σ : State V) : Prop where
  refused : ∀ ⦃t txn⦄, σ.activeTxn t = some txn → txn.mustAbort = true →
    ∃ e ∈ h, e.refusedBy = some t
  installed : ∀ ⦃t txn a⦄, σ.activeTxn t = some txn → a ∈ txn.undoBuffer.dropLast →
    (σ.undo a).table.isSome

theorem MustAbortContract.of_snoc (hcontr : MustAbortContract (h ++ [e])) : MustAbortContract h :=
  (pairwise_append.mp hcontr).1

namespace Disciplined

theorem init (junk : TupleSlot → ColId → Option V) : Disciplined [] (State.init junk) :=
  ⟨by simp [State.init, State.activeTxn], by simp [State.init, State.activeTxn]⟩

theorem mono (hd : Disciplined h σ) (e : Event V) (hact : ∀ t txn, σ'.activeTxn t = some txn →
      (txn.undoBuffer = [] ∧ txn.mustAbort = false) ∨ σ.activeTxn t = some txn)
    (hundo : ∀ t txn a, σ'.activeTxn t = some txn → a ∈ txn.undoBuffer →
      (σ'.undo a).table = (σ.undo a).table) : Disciplined (h ++ [e]) σ' := by
  constructor
  · intro t txn ht hmust
    rcases hact t txn ht with ⟨-, hnot⟩ | hold
    · simp [hnot] at hmust
    · obtain ⟨f, hf, hrefused⟩ := hd.refused hold hmust
      exact ⟨f, mem_append_left _ hf, hrefused⟩
  · intro t txn a ht ha
    rcases hact t txn ht with ⟨hnil, -⟩ | hold
    · simp [hnil] at ha
    · rw [hundo t txn a ht (mem_of_mem_dropLast ha)]
      exact hd.installed hold ha

variable {t : Nat} {txn : TransactionContext V}

/-- A write, accepted or not, finds a buffer of installed records. -/
theorem write (hcons : Consistent pending σ) (hmarked : Marked σ) (hd : Disciplined h σ)
    (hact : σ.activeTxn t = some txn) {e : Event V} (hcontr : MustAbortContract (h ++ [e]))
    (hwriter : e.writer = some t) {record : LogRecord V} {undoRecord : UndoRecord V}
    {mustAbort : Bool} (hmark : mustAbort = true → txn.mustAbort = true ∨ e.refusedBy = some t)
    (htxns : σ'.txns =
      Function.update σ.txns t (some (txn.afterWrite cfg record σ.nextUndo mustAbort)))
    (hundo : σ'.undo = Function.update σ.undo σ.nextUndo undoRecord) :
    Disciplined (h ++ [e]) σ' := by
  have hclean : txn.mustAbort = false := by
    by_contra hmust
    obtain ⟨f, hf, hrefused⟩ := hd.refused hact (by simpa using hmust)
    exact (pairwise_append.mp hcontr).2.2 f hf e mem_cons_self t hrefused hwriter
  have hinst : ∀ {u x a}, σ.txns u = some x → a ∈ x.undoBuffer →
      (σ.undo a).table.isSome → (σ'.undo a).table.isSome := by
    intro u x a hu ha hsome
    rwa [hundo, Function.update_of_ne (hcons.ne_nextUndo_of_buffer hu ha)]
  have ht := (State.activeTxn_eq_some_iff.mp hact).1
  constructor
  · intro u y hu hmust
    obtain ⟨rfl, rfl⟩ | ⟨-, hold⟩ := State.activeTxn_update htxns hu
    · rcases hmark hmust with hold | hrefused
      · simp [hclean] at hold
      · exact ⟨e, by simp, hrefused⟩
    · obtain ⟨f, hf, hrefused⟩ := hd.refused hold hmust
      exact ⟨f, mem_append_left _ hf, hrefused⟩
  · intro u y a hu ha
    obtain ⟨rfl, rfl⟩ | ⟨-, hold⟩ := State.activeTxn_update htxns hu
    · have ha : a ∈ txn.undoBuffer := by
        simpa [TransactionContext.afterWrite] using ha
      exact hinst ht ha (hmarked.installed ht hclean ha)
    · exact hinst (State.activeTxn_eq_some_iff.mp hold).1 (mem_of_mem_dropLast ha)
        (hd.installed hold ha)

theorem rollsBack_iff (hd : Disciplined h σ) (hact : σ.activeTxn t = some txn)
    (slot : TupleSlot) : σ.rollsBack txn.undoBuffer slot = true ↔ σ.HasRecord txn slot :=
  State.rollsBack_iff (fun _ ha => hd.installed hact ha) slot

theorem step (heng : Engine [] σ) (hd : Disciplined h σ) {e : Event V}
    (hcontr : MustAbortContract (h ++ [e])) (hstep : Transition cfg σ e σ') :
    Disciplined (h ++ [e]) σ' := by
  obtain ⟨hcons, -, -, hmarked⟩ := heng
  cases hstep with
  | begin =>
    refine hd.mono _ ?_ (fun _ _ _ _ _ => rfl)
    intro t txn ht
    obtain ⟨-, rfl⟩ | ⟨-, hold⟩ := State.activeTxn_update rfl ht
    · exact .inl ⟨rfl, rfl⟩
    · exact .inr hold
  | write hact hwrite =>
    exact write hcons hmarked hd hact hcontr rfl Or.inl (State.txns_written ..)
      (State.undo_written ..)
  | refuse hact href =>
    exact write hcons hmarked hd hact hcontr rfl (fun _ => Or.inr rfl)
      (State.txns_refused ..) (State.undo_refused ..)
  | select | process => exact hd.mono _ (fun _ _ => Or.inr) (fun _ _ _ _ _ => rfl)
  | commit hact hmust =>
    obtain ⟨done, -, -, hended⟩ := State.commit_ended cfg σ _ _
    exact hd.mono _ (fun u x hu => Or.inr (hended.activeTxn.mp hu).2)
      (fun u x a _ _ => by rw [hended.undo, State.undo_finished_table])
  | abort hact =>
    obtain ⟨done, -, -, hended⟩ := State.abort_ended cfg σ _ _
    exact hd.mono _ (fun u x hu => Or.inr (hended.activeTxn.mp hu).2)
      (fun u x a _ _ => by rw [hended.undo, State.undo_finished_table])
  | performGarbageCollection =>
    obtain ⟨hundo, hact⟩ := hcons.collectedRun.running_eq
    exact hd.mono _ (fun t txn ht => Or.inr ((hact t).symm.trans ht))
      (fun _ _ _ _ _ => by rw [hundo])

end Disciplined

end Terrier
