import Terrier.Proof.Rollback

/-!
The refinement between version chains and histories. For every time not below the horizon of the
collector, undoing the newer records gives the row that the transactions committed by then have
left; and the tuple in place is what its running writer is to see.
-/

namespace Terrier

open List Terrier.Tuple ProjectedRow State

variable {V : Type} {cfg : Config} {pending : List Nat} {σ σ' : State V} {h : List (Event V)}

/-- A tuple view shows a row of the specification, on the columns of the
layout. The other columns, and those of an invisible tuple, hold anything. -/
def Represents (cfg : Config) (table : Nat) (view : TupleView V) : Option (Row V) → Prop
  | none => view.visible = false
  | some row => view.visible = true ∧ ∀ c, 0 < c → c < cfg.numColumns table → view.attrs c = row c

variable {row : Option (Row V)} {table : Nat} {view : TupleView V}

theorem Represents.visible_iff (hrep : Represents cfg table view row) :
    view.visible = true ↔ row.isSome := by
  cases row with
  | none => simp [show view.visible = false from hrep]
  | some r => simp [hrep.1]

theorem Represents.eq_none (hrep : Represents cfg table view row) (hhidden : view.visible = false) :
    row = none := by
  cases row with
  | none => rfl
  | some r => simp [hrep.1] at hhidden

section Write

variable {t : Nat} {txn : TransactionContext V} {slot : TupleSlot} {op : WriteOp V}
  {delta : UndoDelta V} {tuple : Tuple V} {tables : Nat → DataTable}

section

variable (hwrite : Write cfg σ t txn slot op delta tuple tables)
include hwrite

theorem Write.represents (hrep : Represents cfg slot.table (σ.tuples slot).view row) :
    Represents cfg slot.table tuple.view (op.apply row) := by
  cases hwrite with
  | insert hcols hslot htabs =>
    refine ⟨rfl, fun c hpos hlt => ?_⟩
    next redo =>
    have hmem : c ∈ redo.columnIds := by
      rw [hcols, mem_range'_1]
      omega
    have hsome : redo.overwrite c ≠ none := by
      rw [Ne, redo.overwrite_eq_none_iff]
      exact not_not_intro hmem
    obtain ⟨value, hvalue⟩ := Option.ne_none_iff_exists'.mp hsome
    simp only [view]
    rw [storeAttrs_eq_apply, Overwrite.apply_of_some hvalue, Overwrite.apply_of_some hvalue]
  | update hcols hrefuses =>
    obtain ⟨-, halloc, hnull⟩ := refuses_eq_false hrefuses
    have hvis : (σ.tuples slot).view.visible = true := by
      simp [view, visible, halloc, hnull]
    obtain ⟨r, rfl⟩ := Option.isSome_iff_exists.mp (hrep.visible_iff.mp hvis)
    refine ⟨hvis, fun c hpos hlt => ?_⟩
    rw [storeAttrs_eq_apply]
    simp only [Overwrite.apply]
    rw [← hrep.2 c hpos hlt]
    rfl
  | delete hrefuses =>
    simp [WriteOp.apply, Represents, view, visible]

/-- The undo record of an accepted write brings the old tuple back. For an
insert this means that the slot is empty again. -/
theorem Write.undo_view : delta.undo tuple.view = (σ.tuples slot).view ∨
      (σ.Unused slot ∧ (delta.undo tuple.view).visible = false) := by
  cases hwrite with
  | insert hcols hslot htabs => exact .inr ⟨hslot.le, rfl⟩
  | update hcols hrefuses =>
    next redo =>
    left
    simp only [UndoDelta.undo, view, visible, TupleView.mk.injEq, true_and]
    funext c
    rw [storeAttrs_eq_apply]
    simp only [Overwrite.apply, ofColumns_overwrite]
    by_cases hc : c ∈ redo.columnIds
    · simp [projectionList, hc]
    · simp [projectionList, hc, (redo.overwrite_eq_none_iff c).mpr hc]
  | delete hrefuses =>
    obtain ⟨-, halloc, hnull⟩ := refuses_eq_false hrefuses
    simp [UndoDelta.undo, view, visible, halloc, hnull]

theorem Write.allocated : tuple.allocated = true := by
  cases hwrite with
  | insert => rfl
  | update hcols hrefuses | delete hrefuses => exact (refuses_eq_false hrefuses).2.1

end

theorem Write.delta_insert (h : Consistent pending σ)
    (hwrite : Write cfg σ t txn slot op delta tuple tables) (hdelta : delta = .insert) :
    (σ.tuples slot).chain = [] := by
  cases hwrite with
  | insert hcols hslot htabs => exact (h.unused_free hslot.le).1
  | update => cases hdelta
  | delete => cases hdelta

end Write

structure Versions (cfg : Config) (h : List (Event V)) (σ : State V) : Prop where
  committed : ∀ ⦃time⦄ (slot : TupleSlot), σ.cachedOldestTxnStartTime ≤ time →
    Represents cfg slot.table (σ.readAt time slot) (committedBefore h (time + 1) slot)
  free : ∀ ⦃slot time⦄, (σ.tuples slot).allocated = false →
    σ.cachedOldestTxnStartTime ≤ time → committedBefore h (time + 1) slot = none
  own : ∀ ⦃t txn slot⦄, σ.activeTxn t = some txn → σ.HasRecord txn slot →
    Represents cfg slot.table (σ.tuples slot).view (snapshot h t slot) ∧
      (σ.tuples slot).allocated = true
  insert_last : ∀ slot, (σ.tuples slot).chain.Pairwise (fun a _ => (σ.undo a).delta ≠ .insert)

namespace Versions

theorem init (junk : TupleSlot → ColId → Option V) : Versions cfg [] (State.init junk) := by
  constructor
  · simp [committedBefore, commitsOf, effectOf, Represents, State.readAt, State.init, Tuple.view,
      Tuple.visible]
  · simp [committedBefore, commitsOf, effectOf]
  · simp [State.init, State.activeTxn]
  · simp [State.init]

theorem snoc (hv : Versions cfg h σ) {e : Event V} (hwr : ∀ t slot, e.writeTo t slot = none)
    (hcom : e.commitOf = none) : Versions cfg (h ++ [e]) σ := by
  have hB : ∀ time slot, committedBefore (h ++ [e]) time slot = committedBefore h time slot :=
    fun time slot => committedBefore_snoc_of_none hcom (fun t _ _ => hwr t slot) time
  have hS : ∀ t slot, snapshot (h ++ [e]) t slot = snapshot h t slot := by
    intro t slot
    rw [snapshot, hB, writesOf_snoc_of_none h e (hwr t slot), snapshot]
  refine ⟨?_, ?_, ?_, hv.insert_last⟩ <;> simp only [hB, hS]
  · exact hv.committed
  · exact hv.free
  · exact hv.own

/-- State changes that leave the tuples and the records in chains alone. -/
theorem mono (hv : Versions cfg h σ) (htup : σ'.tuples = σ.tuples)
    (hundo : ∀ slot, ∀ a ∈ (σ.tuples slot).chain, σ'.undo a = σ.undo a)
    (hcache : σ.cachedOldestTxnStartTime ≤ σ'.cachedOldestTxnStartTime)
    (hact : ∀ t txn slot, σ'.activeTxn t = some txn → σ'.HasRecord txn slot →
      ∃ x, σ.activeTxn t = some x ∧ σ.HasRecord x slot) : Versions cfg h σ' := by
  constructor
  · intro time slot hle
    rw [readAt_congr (σ := σ)]
    · exact hv.committed slot (hcache.trans hle)
    · rw [htup]
    · rw [htup]
      refine filter_congr (fun a ha => ?_)
      simp [tooNew, hundo slot a ha]
    · intro a ha
      rw [hundo slot a ha]
  · intro slot time hfree hle
    rw [htup] at hfree
    exact hv.free hfree (hcache.trans hle)
  · intro t txn slot ht hrec
    obtain ⟨x, hx, hrec⟩ := hact t txn slot ht hrec
    rw [htup]
    exact hv.own hx hrec
  · intro slot
    rw [htup]
    refine (hv.insert_last slot).imp_of_mem (fun ha _ hne => ?_)
    rwa [hundo slot _ ha]

theorem beginTransaction (hv : Versions cfg h σ) : Versions cfg h σ.beginTransaction := by
  refine hv.mono rfl (fun _ _ _ => rfl) le_rfl ?_
  intro t txn slot htxn hrec
  obtain ⟨-, rfl⟩ | ⟨-, hold⟩ := activeTxn_update rfl htxn
  · simp [State.HasRecord] at hrec
  · exact ⟨txn, hold, hrec⟩

variable {txn : TransactionContext V} {t : Nat}

theorem refused (hcons : Consistent pending σ) (hv : Versions cfg h σ)
    (hact : σ.activeTxn t = some txn) (slot : TupleSlot) (op : WriteOp V) (delta : UndoDelta V) :
    Versions cfg h (σ.refused cfg t txn slot op delta) := by
  refine hv.mono (tuples_refused ..) ?_ (cachedOldestTxnStartTime_refused ..).ge ?_
  · intro s a ha
    rw [undo_refused, Function.update_of_ne (hcons.ne_nextUndo_of_chain ha)]
  · intro u y s hu hy
    obtain ⟨x, hx, hrec⟩ := Writers.activeTxn_afterWrite hcons hact
      (txns_refused ..) (undo_refused ..) hu
    exact ⟨x, hx, by simpa using (hrec s).mp hy⟩

theorem keepsReads (hcons : Consistent pending σ) (hstep : KeepsReads σ σ')
    (hv : Versions cfg h σ) : Versions cfg h σ' := by
  refine ⟨?_, ?_, ?_, ?_⟩
  · intro time s hle
    rw [hstep.readAt s (hstep.cached.trans hle)]
    exact hv.committed s (hstep.cached.trans hle)
  · intro s time hfree hle
    have hle := hstep.cached.trans hle
    rcases hstep.freed s with hsame | ⟨hsettle, hnull⟩
    · exact hv.free (hsame ▸ hfree) hle
    · refine (hv.committed s hle).eq_none ?_
      rw [hsettle.readAt_eq hle]
      simp [view, visible, hnull]
  · intro t txn s ht hrec
    rw [hstep.activeTxn] at ht
    have hrec : σ.HasRecord txn s := by
      simpa [State.HasRecord, hstep.undo] using hrec
    obtain ⟨hrep, halloc⟩ := hv.own ht hrec
    rw [hstep.view]
    rcases hstep.freed s with hsame | ⟨hsettle, -⟩
    · exact ⟨hrep, hsame.trans halloc⟩
    · -- a running writer has its record in the chain
      obtain ⟨a, ha, hslot, hsome⟩ := hrec
      obtain ⟨ht', hid⟩ := activeTxn_eq_some_iff.mp ht
      have hmem := hcons.installed_of_active ht' hid ha hsome
      obtain ⟨c, hc, -⟩ := hsettle a (hslot ▸ hmem)
      rw [hcons.buffer_timestamp ht' ha, hid] at hc
      cases hc
  · intro s
    rw [hstep.undo]
    exact (hv.insert_last s).sublist (hstep.sublist s)

/-- No transaction commits at the time at which a running one started. -/
theorem committedBefore_start (hw : Writers h σ) (hact : σ.activeTxn t = some txn)
    (slot : TupleSlot) : committedBefore h (t + 1) slot = committedBefore h t slot := by
  refine committedBefore_congr ?_
  rintro ⟨u, c⟩ hc _
  have hne := hw.commit_ne_start hc hact
  omega

variable {slot : TupleSlot}

section

variable (hcons : Consistent pending σ) (hw : Writers h σ) (hv : Versions cfg h σ)
    (hact : σ.activeTxn t = some txn)
include hcons hw hv hact

/-- A transaction that did not write a slot is to see the version at its start. -/
theorem atStart (hnil : writesOf h t slot = []) :
    Represents cfg slot.table (σ.readAt t slot) (snapshot h t slot) := by
  obtain ⟨ht, hid⟩ := activeTxn_eq_some_iff.mp hact
  have hrep := hv.committed slot (hcons.cached_le_running t (hcons.running_of_active ht hid))
  rw [committedBefore_start hw hact] at hrep
  rw [snapshot, hnil]
  exact hrep

/-- The tuple in place is what a running transaction is to see, when it wrote
the slot itself or nothing in the chain is newer than its start. -/
theorem inPlace_of_old (hold : writesOf h t slot = [] →
      ∀ a ∈ (σ.tuples slot).chain, ∃ c, (σ.undo a).timestamp = .time c ∧ c ≤ t) :
    Represents cfg slot.table (σ.tuples slot).view (snapshot h t slot) := by
  by_cases hnil : writesOf h t slot = []
  · have hread : σ.readAt t slot = (σ.tuples slot).view := by
      refine readAt_of_forall (fun a ha => ?_)
      obtain ⟨c, hc, hle⟩ := hold hnil a ha
      simpa [tooNew, hc] using hle
    rw [← hread]
    exact hv.atStart hcons hw hact hnil
  · exact (hv.own hact ((hw.active_writes slot hact).mp hnil)).1

variable {op : WriteOp V} {delta : UndoDelta V} {tuple : Tuple V} {tables : Nat → DataTable}

theorem inPlace (hwrite : Write cfg σ t txn slot op delta tuple tables) :
    Represents cfg slot.table (σ.tuples slot).view (snapshot h t slot) :=
  hv.inPlace_of_old hcons hw hact (fun hnil =>
    hwrite.timestamp_le hcons hact (hw.not_own_of_nil hcons hact hnil))

theorem written (hwrite : Write cfg σ t txn slot op delta tuple tables) :
    Versions cfg (h ++ [.write t slot op true])
      (σ.written cfg t txn slot op delta tuple tables) := by
  set σ' := σ.written cfg t txn slot op delta tuple tables with hσ'
  have hundo : ∀ s, ∀ a ∈ (σ.tuples s).chain, σ'.undo a = σ.undo a := by
    intro s a ha
    rw [hσ', undo_written, Function.update_of_ne (hcons.ne_nextUndo_of_chain ha)]
  have hrec : σ'.undo σ.nextUndo = ⟨delta, txn.finishTime, some slot.table, slot⟩ := by
    rw [hσ', undo_written, Function.update_self]
  have htuple : σ'.tuples slot = { tuple with chain := σ.nextUndo :: (σ.tuples slot).chain } := by
    rw [hσ', tuples_written, Function.update_self, hwrite.chain_eq hcons]
  have hother : ∀ s, s ≠ slot → σ'.tuples s = σ.tuples s := by
    intro s hs
    rw [hσ', tuples_written, Function.update_of_ne hs]
  have hfilter : ∀ time s, (σ.tuples s).chain.filter (σ'.tooNew time) =
      (σ.tuples s).chain.filter (σ.tooNew time) := by
    intro time s
    refine filter_congr (fun a ha => ?_)
    simp [tooNew, hundo s a ha]
  have hdeltas : ∀ s, ∀ a ∈ (σ.tuples s).chain, (σ'.undo a).delta = (σ.undo a).delta := by
    intro s a ha
    rw [hundo s a ha]
  have hB : ∀ time s, committedBefore (h ++ [.write t slot op true]) time s =
      committedBefore h time s := by
    intro time s
    refine committedBefore_snoc_of_none rfl (fun u c hc => ?_) time
    have hut : t ≠ u := by
      rintro rfl
      simp [hw.commit_done hc] at hact
    simp [Event.writeTo, hut]
  refine ⟨?_, ?_, ?_, ?_⟩
  · intro time s hle
    rw [hB]
    have hrep := hv.committed s hle
    by_cases hs : s = slot
    · subst hs
      have hnew : σ'.tooNew time σ.nextUndo = true := by
        simp [tooNew, hrec, (activeTxn_eq_some_iff.mp hact).2]
      have hread : σ'.readAt time s =
          undoAll (((σ.tuples s).chain.filter (σ.tooNew time)).map (fun a => (σ.undo a).delta))
            (delta.undo tuple.view) := by
        have hmap : ((σ.tuples s).chain.filter (σ.tooNew time)).map (fun a => (σ'.undo a).delta) =
            ((σ.tuples s).chain.filter (σ.tooNew time)).map (fun a => (σ.undo a).delta) :=
          map_congr_left (fun a ha => hdeltas s a (mem_of_mem_filter ha))
        simp only [readAt, htuple, filter_cons, hnew, if_true, map_cons, hrec,
          undoAll_cons, hfilter, hmap]
        rfl
      rw [hread]
      rcases hwrite.undo_view with hback | ⟨hunused, hhidden⟩
      · rw [hback]
        exact hrep
      · obtain ⟨hnil, hfree⟩ := hcons.unused_free hunused
        have hnone : committedBefore h (time + 1) s = none := hv.free hfree hle
        rw [hnone, hnil]
        exact hhidden
    · rw [readAt_congr (σ := σ)]
      · exact hrep
      · rw [hother s hs]
      · rw [hother s hs, hfilter]
      · exact hdeltas s
  · intro s time hfree hle
    rw [hB]
    by_cases hs : s = slot
    · subst hs
      rw [htuple] at hfree
      simp [hwrite.allocated] at hfree
    · rw [hother s hs] at hfree
      exact hv.free hfree hle
  · intro u y s hu hy
    obtain ⟨x, hx, hiff⟩ := Writers.activeTxn_afterWrite hcons hact (txns_written ..)
      (undo_written ..) hu
    by_cases hs : s = slot
    · subst hs
      obtain rfl : t = u := by
        rcases (hiff s).mp hy with ⟨a, ha, hslot, hsome⟩ | ⟨rfl, -⟩
        · obtain ⟨hx', hxid⟩ := activeTxn_eq_some_iff.mp hx
          have hmem := hslot ▸ hcons.installed_of_active hx' hxid ha hsome
          have hprec := hwrite.precedes hcons hact a hmem
          simpa [(hcons.buffer_timestamp hx' ha).trans hxid] using hprec
        · rfl
      have hsnap : snapshot (h ++ [.write t s op true]) t s = op.apply (snapshot h t s) := by
        rw [snapshot, hB, writesOf_snoc]
        simp [Event.writeTo, snapshot, applyWrites]
      rw [hsnap, htuple]
      exact ⟨hwrite.represents (hv.inPlace hcons hw hact hwrite), hwrite.allocated⟩
    · have hrec' : σ.HasRecord x s := by
        rcases (hiff s).mp hy with hold | ⟨-, hslot, -⟩
        · exact hold
        · exact absurd hslot.symm hs
      have hsnap : snapshot (h ++ [.write t slot op true]) u s = snapshot h u s := by
        rw [snapshot, hB, writesOf_snoc_of_none, snapshot]
        simp [Event.writeTo, Ne.symm hs]
      rw [hsnap, hother s hs]
      exact hv.own hx hrec'
  · intro s
    by_cases hs : s = slot
    · subst hs
      rw [htuple]
      refine pairwise_cons.mpr ⟨fun b hb hins => ?_, ?_⟩
      · rw [hrec] at hins
        simp [hwrite.delta_insert hcons hins] at hb
      · refine (hv.insert_last s).imp_of_mem (fun ha _ hne => ?_)
        rwa [hundo s _ ha]
    · rw [hother s hs]
      refine (hv.insert_last s).imp_of_mem (fun ha _ hne => ?_)
      rwa [hundo s _ ha]

end

section

variable (hcons : Consistent pending σ)
include hcons

/-- On a slot that a running transaction has written, every version that is not
its own carries a time in the past. -/
theorem own_or_past (hact : σ.activeTxn t = some txn) (hrec : σ.HasRecord txn slot) {a : Nat}
    (ha : a ∈ (σ.tuples slot).chain) : (a ∈ txn.undoBuffer ∧ (σ.undo a).timestamp = .txnId t) ∨
      (a ∉ txn.undoBuffer ∧ ∃ c, (σ.undo a).timestamp = .time c ∧ c < σ.time) := by
  obtain ⟨ht, hid⟩ := activeTxn_eq_some_iff.mp hact
  rcases hcons.chain_timestamp ha with ⟨u, y, hu, hbuf, hts⟩ | ⟨c, hc, hlt⟩
  · obtain rfl : t = u := Writers.eq_of_hasRecord hcons hact hu hrec
      ⟨a, hbuf, hcons.chain_record ha⟩
    exact .inl ⟨hcons.mem_buffer_of_chain hact ha hts, hts⟩
  · refine Or.inr ⟨fun hmem => ?_, c, hc, hlt⟩
    rw [hcons.buffer_timestamp ht hmem, hid] at hc
    cases hc

theorem commit (hw : Writers h σ) (hv : Versions cfg h σ) (hact : σ.activeTxn t = some txn) :
    Versions cfg (h ++ [.commit t σ.time]) (σ.commit cfg t txn) := by
  obtain ⟨done, -, -, hended⟩ := commit_ended cfg σ t txn
  obtain ⟨ht, hid⟩ := activeTxn_eq_some_iff.mp hact
  have hin : ∀ a ∈ txn.undoBuffer, ((σ.commit cfg t txn).undo a).timestamp = .time σ.time := by
    intro a ha
    rw [hended.undo, undo_finished, if_pos ha]
  have hout : ∀ a ∉ txn.undoBuffer, (σ.commit cfg t txn).undo a = σ.undo a := by
    intro a ha
    rw [hended.undo, undo_finished, if_neg ha]
  have hview : ∀ s, ((σ.commit cfg t txn).tuples s).view = (σ.tuples s).view := by
    intro s
    rw [hended.tuples]
  have hdelta : ∀ s, ∀ a ∈ (σ.tuples s).chain,
      ((σ.commit cfg t txn).undo a).delta = (σ.undo a).delta := by
    intro s a _
    rw [hended.undo, undo_finished_delta]
  -- readers before the commit time still undo everything they undid before
  have hbef : ∀ time s, time < σ.time → (σ.commit cfg t txn).readAt time s = σ.readAt time s := by
    intro time s hlt
    refine readAt_congr (hview s) ?_ (hdelta s)
    rw [hended.tuples]
    refine filter_congr (fun a ha => ?_)
    by_cases hmem : a ∈ txn.undoBuffer
    · simp [tooNew, hin a hmem, hcons.buffer_timestamp ht hmem, hid, hlt]
    · simp [tooNew, hout a hmem]
  refine ⟨?_, ?_, ?_, ?_⟩
  · intro time s hle
    rw [hended.cached] at hle
    rw [committedBefore_snoc_commit]
    by_cases hnil : writesOf h t s = []
    · have hsame : (σ.commit cfg t txn).readAt time s = σ.readAt time s := by
        refine readAt_congr (hview s) ?_ (hdelta s)
        rw [hended.tuples]
        refine filter_congr (fun a ha => ?_)
        have hmem : a ∉ txn.undoBuffer := fun hmem =>
          hw.not_own_of_nil hcons hact hnil a ha ((hcons.buffer_timestamp ht hmem).trans hid)
        simp [tooNew, hout a hmem]
      rw [hsame, hnil]
      simpa [applyWrites] using hv.committed s hle
    · have hrec := (hw.active_writes s hact).mp hnil
      split_ifs with hlt
      · have hread : (σ.commit cfg t txn).readAt time s = (σ.tuples s).view := by
          rw [← hview s]
          refine readAt_of_forall (fun a ha => ?_)
          rw [hended.tuples] at ha
          rcases own_or_past hcons hact hrec ha with ⟨hmem, -⟩ | ⟨hmem, c, hc, hpast⟩
          · simp only [tooNew, hin a hmem, Timestamp.newerThan_time_time, decide_eq_false_iff_not]
            omega
          · simp only [tooNew, hout a hmem, hc, Timestamp.newerThan_time_time,
              decide_eq_false_iff_not]
            omega
        have hall : committedBefore h (time + 1) s = committedBefore h t s := by
          refine committedBefore_congr ?_
          rintro ⟨u, c⟩ hc hne
          have hct := hw.active_after hact hnil hc hne
          have hpast := (hw.commit_lt hc).2
          change c < time + 1 ↔ c < t
          omega
        rw [hread, hall]
        exact (hv.own hact hrec).1
      · rw [hbef time s (by omega)]
        exact hv.committed s hle
  · intro s time hfree hle
    rw [hended.tuples] at hfree
    rw [hended.cached] at hle
    have hnil : writesOf h t s = [] := by
      by_contra hne
      have halloc := (hv.own hact ((hw.active_writes s hact).mp hne)).2
      simp [hfree] at halloc
    rw [committedBefore_snoc_commit, hnil]
    simpa [applyWrites] using hv.free hfree hle
  · intro u y s hu hrec
    obtain ⟨hut, hu⟩ := hended.activeTxn.mp hu
    have hrec' : σ.HasRecord y s := by
      simpa [State.HasRecord, hended.undo] using hrec
    have hlt := hcons.txn_lt (activeTxn_eq_some_iff.mp hu).1
    have hsnap : snapshot (h ++ [.commit t σ.time]) u s = snapshot h u s := by
      rw [snapshot, committedBefore_snoc_commit, if_neg (by omega),
        writesOf_snoc_of_none h _ rfl, snapshot]
    rw [hsnap, hended.tuples]
    exact hv.own hu hrec'
  · intro s
    rw [hended.tuples]
    refine (hv.insert_last s).imp (fun hne => ?_)
    rwa [hended.undo, undo_finished_delta]

/-- The records of a running transaction with an insert among them are the
whole chain. -/
theorem foreign_eq_nil (hv : Versions cfg h σ)
    (hins : UndoDelta.insert ∈ σ.deltas (σ.ownVersions t slot)) :
    σ.foreignVersions t slot = [] := by
  obtain ⟨a, ha, hdelta⟩ := List.mem_map.mp hins
  have hlast := hv.insert_last slot
  rw [← hcons.own_append_foreign t slot] at hlast
  by_contra hne
  obtain ⟨b, hb⟩ := exists_mem_of_ne_nil _ hne
  exact (pairwise_append.mp hlast).2.2 a ha b hb hdelta

/-- Rollback leaves a slot as readers saw it before. -/
theorem restored_spec (hd : Disciplined h σ) (hv : Versions cfg h σ)
    (hact : σ.activeTxn t = some txn) (hrec : σ.HasRecord txn slot) :
    (σ.restored txn slot).view = undoAll (σ.deltas (σ.ownVersions t slot)) (σ.tuples slot).view ∧
      ((σ.restored txn slot).allocated = false → σ.foreignVersions t slot = []) := by
  have hid := (activeTxn_eq_some_iff.mp hact).2
  have hrestored : σ.restored txn slot =
      rollbackAll (σ.deltas (σ.ownVersions t slot)) (σ.tuples slot) := by
    rw [restored, if_pos ((hd.rollsBack_iff hact slot).mpr hrec), hid,
      hcons.rolledBack_eq_rollbackAll]
  have halloc := (hv.own hact hrec).2
  rw [hrestored]
  constructor
  · refine rollbackAll_view ?_ halloc
    rw [deltas, pairwise_map]
    exact (hv.insert_last slot).filter _
  · intro hfree
    refine hv.foreign_eq_nil hcons ?_
    by_contra hins
    rw [rollbackAll_allocated _ hins, halloc] at hfree
    cases hfree

end

theorem restored_eq (hd : Disciplined h σ) (hact : σ.activeTxn t = some txn)
    (hrec : ¬ σ.HasRecord txn slot) : σ.restored txn slot = σ.tuples slot := by
  rw [restored, if_neg (fun hroll => hrec ((hd.rollsBack_iff hact slot).mp hroll))]

/-- No reader, early or late, can tell that an aborted transaction is gone. -/
theorem readAt_aborted (hcons : Consistent pending σ) (hd : Disciplined h σ) (hv : Versions cfg h σ)
    {done : TransactionContext V} (hact : σ.activeTxn t = some txn)
    (hended : Ended σ t txn done (σ.restored txn) σ') (time : Nat) (slot : TupleSlot) :
    σ'.readAt time slot = σ.readAt time slot := by
  have hin : ∀ a ∈ txn.undoBuffer, (σ'.undo a).timestamp = .time σ.time := by
    intro a ha
    rw [hended.undo, undo_finished, if_pos ha]
  have hout : ∀ a ∉ txn.undoBuffer, σ'.undo a = σ.undo a := by
    intro a ha
    rw [hended.undo, undo_finished, if_neg ha]
  have hchain : (σ'.tuples slot).chain = (σ.tuples slot).chain := by
    rw [hended.tuples, restored_chain]
  have hdelta : ∀ a, (σ'.undo a).delta = (σ.undo a).delta := by
    intro a
    rw [hended.undo, undo_finished_delta]
  by_cases hrec : σ.HasRecord txn slot
  · have hview := (hv.restored_spec hcons hd hact hrec).1
    rw [← hended.tuples] at hview
    have hown : (σ.ownVersions t slot).filter (σ'.tooNew time) =
        if time < σ.time then σ.ownVersions t slot else [] := by
      have hts : ∀ a ∈ σ.ownVersions t slot, σ'.tooNew time a = decide (time < σ.time) := by
        intro a ha
        obtain ⟨hmem, hts⟩ := mem_filter.mp ha
        have hbuf := hcons.mem_buffer_of_chain hact hmem (by simpa using hts)
        simp [tooNew, hin a hbuf]
      split_ifs with hlt
      · exact filter_eq_self.mpr (fun a ha => by simp [hts a ha, hlt])
      · exact filter_eq_nil_iff.mpr (fun a ha => by simp [hts a ha, hlt])
    have hpast : ∀ a ∈ σ.foreignVersions t slot, a ∉ txn.undoBuffer ∧
        ∃ c, (σ.undo a).timestamp = .time c ∧ c < σ.time := by
      intro a ha
      obtain ⟨hmem, hforeign⟩ := mem_filter.mp ha
      rcases own_or_past hcons hact hrec hmem with ⟨-, hts⟩ | hpast
      · simp [hts] at hforeign
      · exact hpast
    have hforeign : (σ.foreignVersions t slot).filter (σ'.tooNew time) =
        (σ.foreignVersions t slot).filter (σ.tooNew time) :=
      filter_congr (fun a ha => by simp [tooNew, hout a (hpast a ha).1])
    rw [hcons.readAt_split t, readAt, hview, hchain, ← hcons.own_append_foreign t slot,
      filter_append, hown, hforeign, map_append, undoAll_append]
    simp only [hdelta]
    change undoAll (σ.deltas _) (undoAll (σ.deltas _) _) = _
    split_ifs with hlt
    · rw [undoAll_idem]
    · rfl
  · refine readAt_congr ?_ ?_ (fun a _ => hdelta a)
    · rw [hended.tuples, restored_eq hd hact hrec]
    · rw [hchain]
      refine filter_congr (fun a ha => ?_)
      have hmem : a ∉ txn.undoBuffer := fun hmem =>
        hrec ⟨a, hmem, hcons.chain_record ha⟩
      simp [tooNew, hout a hmem]

theorem abort (hcons : Consistent pending σ) (hd : Disciplined h σ) (hv : Versions cfg h σ)
    (hact : σ.activeTxn t = some txn) : Versions cfg h (σ.abort cfg t txn) := by
  obtain ⟨done, -, -, hended⟩ := abort_ended cfg σ t txn
  refine ⟨?_, ?_, ?_, ?_⟩
  · intro time s hle
    rw [hended.cached] at hle
    rw [hv.readAt_aborted hcons hd hact hended]
    exact hv.committed s hle
  · intro s time hfree hle
    rw [hended.tuples] at hfree
    rw [hended.cached] at hle
    by_cases hrec : σ.HasRecord txn s
    · obtain ⟨hview, hforeign⟩ := hv.restored_spec hcons hd hact hrec
      refine (hv.committed s hle).eq_none ?_
      rw [hcons.readAt_split t, hforeign hfree, ← hview]
      simp [deltas, view, visible, hfree]
    · rw [restored_eq hd hact hrec] at hfree
      exact hv.free hfree hle
  · intro u y s hu hrec
    obtain ⟨hut, hu⟩ := hended.activeTxn.mp hu
    have hrec' : σ.HasRecord y s := by
      simpa [State.HasRecord, hended.undo] using hrec
    have hother : ¬ σ.HasRecord txn s := fun hmine =>
      hut (Writers.eq_of_hasRecord hcons hu hact hrec' hmine)
    rw [hended.tuples, restored_eq hd hact hother]
    exact hv.own hu hrec'
  · intro s
    rw [hended.tuples, restored_chain]
    refine (hv.insert_last s).imp (fun hne => ?_)
    rwa [hended.undo, undo_finished_delta]

theorem process (hv : Versions cfg h σ) : Versions cfg h σ.process :=
  hv.mono rfl (fun _ _ _ => rfl) le_rfl (fun _ txn _ ht hrec => ⟨txn, ht, hrec⟩)

theorem performGarbageCollection (heng : Engine [] σ) (hv : Versions cfg h σ) :
    Versions cfg h σ.performGarbageCollection := by
  have hall := heng.consistent.collectedRun.invariant
    (I := fun τ => Tombstones τ ∧ Marked τ ∧ Versions cfg h τ) ?_
    ⟨heng.tombstones, heng.marked, hv⟩
  · exact hall.2.2
  · rintro pending τ τ' hcons hstep ⟨htomb, hmark, hv⟩
    exact ⟨htomb.collected hstep, hmark.collected hstep,
      hv.keepsReads hcons (.of_collected hcons htomb hmark hstep)⟩

theorem step (heng : Engine [] σ) (hw : Writers h σ) (hd : Disciplined h σ)
    (hv : Versions cfg h σ) {e : Event V} (hstep : Transition cfg σ e σ') :
    Versions cfg (h ++ [e]) σ' := by
  have hcons := heng.consistent
  cases hstep with
  | begin => exact hv.beginTransaction.snoc (fun _ _ => rfl) rfl
  | write hact hwrite => exact hv.written hcons hw hact hwrite
  | refuse hact hrefuses =>
    exact (hv.refused hcons hact _ _ _).snoc (by simp [Event.writeTo]) rfl
  | select => exact hv.snoc (fun _ _ => rfl) rfl
  | commit hact hmust => exact hv.commit hcons hw hact
  | abort hact => exact (hv.abort hcons hd hact).snoc (fun _ _ => rfl) rfl
  | performGarbageCollection =>
    exact (hv.performGarbageCollection heng).snoc (fun _ _ => rfl) rfl
  | process => exact hv.process.snoc (fun _ _ => rfl) rfl

end Versions

structure Refines (cfg : Config) (h : List (Event V)) (σ : State V) : Prop where
  engine : Engine [] σ
  writers : Writers h σ
  disciplined : Disciplined h σ
  versions : Versions cfg h σ

namespace Refines

theorem init (junk : TupleSlot → ColId → Option V) : Refines cfg [] (State.init junk) :=
  ⟨Engine.init junk, Writers.init junk, Disciplined.init junk, Versions.init junk⟩

theorem step (href : Refines cfg h σ) {e : Event V} (hcontr : MustAbortContract (h ++ [e]))
    (hstep : Transition cfg σ e σ') : Refines cfg (h ++ [e]) σ' := by
  obtain ⟨heng, hw, hd, hv⟩ := href
  exact ⟨heng.step hstep, hw.step heng hstep, hd.step heng hcontr hstep, hv.step heng hw hd hstep⟩

/-- A timestamp that is checked out and never used disturbs nothing. -/
theorem checkOutTimestamp (href : Refines cfg h σ) : Refines cfg h σ.checkOutTimestamp := by
  obtain ⟨⟨hcons, htomb, hqueued, hmark⟩, hw, hd, hv⟩ := href
  refine ⟨⟨hcons.checkOutTimestamp, htomb, ?_, ⟨hmark.installed, hmark.committed⟩⟩, ?_,
    ⟨hd.refused, hd.installed⟩, ⟨hv.committed, hv.free, hv.own, hv.insert_last⟩⟩
  · exact hqueued.step (Nat.le_succ _) (fun r hr => Or.inl hr)
      (fun t txn ht => Or.inr ⟨txn, ht, fun r hr => Or.inl hr⟩)
  · exact hw.mono (Nat.le_succ _) le_rfl (fun t txn ht => Or.inr ⟨txn, ht, fun _ => Iff.rfl⟩)
      (fun slot a ha c hc => Or.inr ⟨a, ha, hc⟩)

end Refines

theorem Run.refines {junk : TupleSlot → ColId → Option V} (hrun : Run cfg junk h σ)
    (hcontr : MustAbortContract h) : Refines cfg h σ :=
  Run.invariant (I := fun h σ => MustAbortContract h → Refines cfg h σ) (fun _ => Refines.init junk)
    (fun _ _ _ _ hinv hstep hcontr => (hinv hcontr.of_snoc).step hcontr hstep)
    hrun hcontr

end Terrier
