import Terrier.Proof.SnapshotIsolation
import Terrier.Proof.Logged

/-!
The writes of a transaction as a sequence over the whole database. Accepted writes are legal: an
insert goes to a slot without a row, an update or a delete to a slot with one. So are those of all
committed transactions in the order of the start times, with the same outcome.
-/

namespace Terrier

open List Event

variable {V : Type} {cfg : Config} {σ σ' : State V} {h : List (Event V)}

abbrev Database (V : Type) := TupleSlot → Option (Row V)

abbrev SlotWrite (V : Type) := TupleSlot × WriteOp V

namespace Database

def write (D : Database V) (w : SlotWrite V) : Database V :=
  Function.update D w.1 (w.2.apply (D w.1))

def writeAll (D : Database V) (ws : List (SlotWrite V)) : Database V :=
  ws.foldl write D

theorem writeAll_apply (D : Database V) (ws : List (SlotWrite V)) (slot : TupleSlot) :
    D.writeAll ws slot =
      applyWrites ((ws.filter (fun w => decide (w.1 = slot))).map Prod.snd) (D slot) := by
  induction ws generalizing D with
  | nil => rfl
  | cons w ws ih =>
    have hcons : D.writeAll (w :: ws) = (D.write w).writeAll ws := rfl
    rw [hcons, ih]
    by_cases hslot : w.1 = slot
    · subst hslot
      simp [write, applyWrites]
    · simp [write, hslot, Function.update_of_ne (Ne.symm hslot)]

end Database

/-- When the engine accepts a write to a slot that holds `row`. -/
def WriteOp.Legal (cfg : Config) (table : Nat) : WriteOp V → Option (Row V) → Prop
  | .insert redo, row => cfg.InsertColumns table redo ∧ row = none
  | .update redo, row => cfg.ValidColumns table redo ∧ row.isSome
  | .delete, row => row.isSome

def LegalWrites (cfg : Config) : Database V → List (SlotWrite V) → Prop
  | _, [] => True
  | D, w :: ws => w.2.Legal cfg w.1.table (D w.1) ∧ LegalWrites cfg (D.write w) ws

variable {D : Database V} {ws : List (SlotWrite V)} {w : SlotWrite V} {t : Nat} {slot : TupleSlot}
  {junk : TupleSlot → ColId → Option V}

theorem LegalWrites.snoc (hws : LegalWrites cfg D ws)
    (hw : w.2.Legal cfg w.1.table (D.writeAll ws w.1)) : LegalWrites cfg D (ws ++ [w]) := by
  induction ws generalizing D with
  | nil => exact ⟨hw, trivial⟩
  | cons v ws ih => exact ⟨hws.1, ih hws.2 hw⟩

theorem LegalWrites.congr {E : Database V} (hsame : ∀ w ∈ ws, D w.1 = E w.1)
    (hws : LegalWrites cfg D ws) : LegalWrites cfg E ws := by
  induction ws generalizing D E with
  | nil => trivial
  | cons w ws ih =>
    have hhead := hsame w mem_cons_self
    refine ⟨hhead ▸ hws.1, ih (fun v hv => ?_) hws.2⟩
    by_cases hslot : v.1 = w.1
    · simp [Database.write, hslot, hhead]
    · simp [Database.write, hslot, hsame v (mem_cons_of_mem w hv)]

def Event.acceptedBy (t : Nat) : Event V → Option (SlotWrite V)
  | .write u slot op result => if u = t ∧ result = true then some (slot, op) else none
  | .begin _ => none
  | .select _ _ _ _ => none
  | .commit _ _ => none
  | .abort _ _ => none
  | .performGarbageCollection => none
  | .process => none

def allWritesOf (h : List (Event V)) (t : Nat) : List (SlotWrite V) :=
  h.filterMap (Event.acceptedBy t)

theorem allWritesOf_snoc (h : List (Event V)) (e : Event V) (t : Nat) :
    allWritesOf (h ++ [e]) t = allWritesOf h t ++ (e.acceptedBy t).toList := by
  simp only [allWritesOf, filterMap_append]
  cases he : e.acceptedBy t <;> simp [he]

theorem writesOf_eq_allWritesOf (h : List (Event V)) (t : Nat) (slot : TupleSlot) :
    writesOf h t slot = ((allWritesOf h t).filter (fun w => decide (w.1 = slot))).map Prod.snd := by
  induction h with
  | nil => rfl
  | cons e h ih =>
    have hW : writesOf (e :: h) t slot = (e.writeTo t slot).toList ++ writesOf h t slot := by
      cases hw : e.writeTo t slot <;> simp [writesOf, hw]
    have hA : allWritesOf (e :: h) t = (e.acceptedBy t).toList ++ allWritesOf h t := by
      cases ha : e.acceptedBy t <;> simp [allWritesOf, ha]
    rw [hW, hA, ih, filter_append, map_append]
    congr 1
    cases e with
    | write u s op result =>
      by_cases hu : u = t ∧ result = true
      · by_cases hs : s = slot <;> simp [writeTo, acceptedBy, hu, hs]
      · have hnone : ¬ (u = t ∧ s = slot ∧ result = true) := by tauto
        simp [writeTo, acceptedBy, hu, hnone]
    | begin => rfl
    | select => rfl
    | commit => rfl
    | abort => rfl
    | performGarbageCollection => rfl
    | process => rfl

theorem Write.legal (href : Refines cfg h σ) {txn : TransactionContext V} {op : WriteOp V}
    {delta : UndoDelta V} {tuple : Tuple V} {tables : Nat → DataTable}
    (hact : σ.activeTxn t = some txn) (hwrite : Write cfg σ t txn slot op delta tuple tables) :
    op.Legal cfg slot.table (snapshot h t slot) := by
  obtain ⟨⟨hcons, -, -, -⟩, hw, -, hv⟩ := href
  have hrep := hv.inPlace hcons hw hact hwrite
  have hvis : σ.refuses t txn slot = false → (snapshot h t slot).isSome := by
    intro hrefuses
    obtain ⟨-, halloc, hnull⟩ := State.refuses_eq_false hrefuses
    exact hrep.visible_iff.mp (by simp [Tuple.view, Tuple.visible, halloc, hnull])
  cases hwrite with
  | insert hcols hslot htabs =>
    exact ⟨hcols, hv.snapshot_of_free hcons hw hact (hcons.unused_free hslot.le).2⟩
  | update hcols hrefuses => exact ⟨hcols, hvis hrefuses⟩
  | delete hrefuses => exact hvis hrefuses

/-- An accepted write is legal in the snapshot of its transaction, and every commit that wrote the
slot came before the transaction began. -/
theorem accepted_write_legal (hrun : Run cfg junk h σ) (hcontract : MustAbortContract h)
    {a : Action V} {op : WriteOp V} (hstep : step cfg σ a = some (σ', .write t slot op true)) :
    op.Legal cfg slot.table (snapshot h t slot) ∧
      ∀ u c, (u, c) ∈ commitsOf h → writesOf h u slot ≠ [] → c < t := by
  have href := hrun.refines hcontract
  cases step_transition hstep with
  | write hact hwrite =>
    refine ⟨hwrite.legal href hact, fun u c => ?_⟩
    exact href.writers.committed_lt_of_write href.engine.consistent hact hwrite

theorem accepted_write_legal_delete : ∃ (h : List (Event Nat)) (σ σ' : State Nat),
    Run oneColumn (fun _ _ => none) h σ ∧
      step oneColumn σ (.delete 2 ⟨0, 0, 0⟩) = some (σ', .write 2 ⟨0, 0, 0⟩ .delete true) ∧
      (snapshot h 2 ⟨0, 0, 0⟩).isSome :=
  have hrun := execute_run (show (execute oneColumn (overwrittenWhileReading.take 4)
    (State.init fun _ _ => none)).isSome by decide)
  have hstep := rfl
  ⟨_, _, _, hrun, hstep, (accepted_write_legal hrun (by decide) hstep).1⟩

theorem Event.acceptedBy_eq_none {e : Event V} (hnone : ∀ t slot, e.writeTo t slot = none)
    (t : Nat) : e.acceptedBy t = none := by
  cases e with
  | write u slot op result =>
    have hu := hnone t slot
    by_cases hut : u = t ∧ result = true
    · simp [writeTo, hut] at hu
    · simp [acceptedBy, hut]
  | begin => rfl
  | select => rfl
  | commit => rfl
  | abort => rfl
  | performGarbageCollection => rfl
  | process => rfl

theorem writesOf_ne_nil_of_mem (hmem : w ∈ allWritesOf h t) : writesOf h t w.1 ≠ [] := by
  rw [writesOf_eq_allWritesOf]
  exact ne_nil_of_mem (List.mem_map_of_mem (f := Prod.snd)
    (mem_filter.mpr ⟨hmem, decide_eq_true rfl⟩))

theorem lt_of_mem_allWritesOf (hw : Writers h σ) (hmem : w ∈ allWritesOf h t) : t < σ.time :=
  hw.write_lt (writesOf_ne_nil_of_mem hmem)

theorem stagedOf_ne_nil (hwr : writesOf h t slot ≠ []) : stagedOf h t ≠ [] := by
  obtain ⟨op, hop⟩ := exists_mem_of_ne_nil _ hwr
  obtain ⟨e, he, hwrite⟩ := mem_filterMap.mp hop
  cases e with
  | write u s o result =>
    simp only [writeTo] at hwrite
    split_ifs at hwrite with hcond
    obtain ⟨rfl, -, -⟩ := hcond
    exact ne_nil_of_mem (mem_filterMap.mpr ⟨_, he, if_pos rfl⟩)
  | begin => cases hwrite
  | select => cases hwrite
  | commit => cases hwrite
  | abort => cases hwrite
  | performGarbageCollection => cases hwrite
  | process => cases hwrite

/-- At every point of a run under the contract, the writes of every
transaction are legal from the database at its start on. -/
theorem LegalWrites.step (href : Refines cfg h σ)
    (hlegal : ∀ t, LegalWrites cfg (committedBefore h t) (allWritesOf h t)) {e : Event V}
    (hstep : Transition cfg σ e σ') (t : Nat) :
    LegalWrites cfg (committedBefore (h ++ [e]) t) (allWritesOf (h ++ [e]) t) := by
  have hw := href.writers
  -- steps without an accepted write: the database at the start stays the same
  have hquiet : (∀ u slot, e.writeTo u slot = none) →
      (∀ w ∈ allWritesOf h t, committedBefore h t w.1 = committedBefore (h ++ [e]) t w.1) →
      LegalWrites cfg (committedBefore (h ++ [e]) t) (allWritesOf (h ++ [e]) t) := by
    intro hnone hsame
    rw [allWritesOf_snoc, acceptedBy_eq_none hnone, Option.toList_none, append_nil]
    exact (hlegal t).congr hsame
  have hother : (∀ u slot, e.writeTo u slot = none) → e.commitOf = none →
      LegalWrites cfg (committedBefore (h ++ [e]) t) (allWritesOf (h ++ [e]) t) := by
    intro hnone hcom
    refine hquiet hnone (fun w _ => ?_)
    exact (committedBefore_snoc_of_none hcom (fun u _ _ => hnone u w.1) t).symm
  cases hstep with
  | begin | select | abort | performGarbageCollection | process => exact hother (fun _ _ => rfl) rfl
  | write hact hwrite =>
    next u txn slot op delta tuple tables =>
    have hdatabase : committedBefore (h ++ [.write u slot op true]) t = committedBefore h t := by
      funext s
      refine committedBefore_snoc_of_none rfl ?_ t
      intro v c hc
      have hne : u ≠ v := by
        rintro rfl
        simp [hw.commit_done hc] at hact
      simp [writeTo, hne]
    rw [hdatabase, allWritesOf_snoc]
    by_cases hut : u = t
    · subst hut
      have hself : (write u slot op true).acceptedBy u = some (slot, op) := by
        simp [acceptedBy]
      rw [hself]
      refine (hlegal u).snoc ?_
      -- the database at the start of `u`, with the writes of `u`, is its snapshot
      rw [Database.writeAll_apply, ← writesOf_eq_allWritesOf]
      exact hwrite.legal href hact
    · have hnone : (write u slot op true).acceptedBy t = none := by
        simp [acceptedBy, hut]
      rw [hnone, Option.toList_none, append_nil]
      exact hlegal t
  | refuse hact hrefuses => exact hother (by simp [writeTo]) rfl
  | commit hact hmust =>
    refine hquiet (fun _ _ => rfl) (fun w hmem => ?_)
    have hlt := lt_of_mem_allWritesOf hw hmem
    rw [committedBefore_snoc_commit, if_neg (by omega)]

theorem Run.legal (hrun : Run cfg junk h σ) (hcontr : MustAbortContract h) (t : Nat) :
    LegalWrites cfg (committedBefore h t) (allWritesOf h t) := by
  refine (Run.invariant (I := fun h σ => MustAbortContract h → Refines cfg h σ ∧
    ∀ t, LegalWrites cfg (committedBefore h t) (allWritesOf h t))
    (fun _ => ⟨Refines.init junk, fun _ => trivial⟩) ?_ hrun hcontr).2 t
  intro h σ e σ' hinv hstep hcontr
  obtain ⟨href, hlegal⟩ := hinv hcontr.of_snoc
  exact ⟨href.step hcontr hstep, fun t => LegalWrites.step href hlegal hstep t⟩

def SlotWrite.logRecord (t : Nat) (w : SlotWrite V) : LogRecord V :=
  w.2.logRecord t w.1

/-- Unless a write of it was refused, a transaction has staged exactly its
accepted writes; so a committed one has. -/
structure Accepted (h : List (Event V)) (σ : State V) : Prop where
  active : ∀ ⦃t txn⦄, σ.activeTxn t = some txn → txn.mustAbort = false →
    stagedOf h t = (allWritesOf h t).map (SlotWrite.logRecord t)
  committed : ∀ ⦃t c⦄, (t, c) ∈ commitsOf h →
    stagedOf h t = (allWritesOf h t).map (SlotWrite.logRecord t)

namespace Accepted

theorem init (junk : TupleSlot → ColId → Option V) : Accepted [] (State.init junk) :=
  ⟨fun _ _ _ _ => rfl, fun _ _ _ => rfl⟩

theorem snoc_of_not_write {e : Event V} {t : Nat}
    (hnot : ∀ slot op result, e ≠ .write t slot op result) :
    stagedOf (h ++ [e]) t = stagedOf h t ∧ allWritesOf (h ++ [e]) t = allWritesOf h t := by
  rw [stagedOf_snoc, allWritesOf_snoc]
  cases e with
  | write u slot op result =>
    have hut : u ≠ t := fun heq => hnot slot op result (heq ▸ rfl)
    simp [stagedBy, acceptedBy, hut]
  | begin | select | commit | abort | performGarbageCollection | process =>
    simp [stagedBy, acceptedBy]

theorem step (heng : Engine [] σ) (hw : Writers h σ) (hl : Logged h σ) (ha : Accepted h σ)
    {e : Event V} (hstep : Transition cfg σ e σ') : Accepted (h ++ [e]) σ' := by
  have hcons := heng.consistent
  refine ⟨?_, ?_⟩
  · intro t txn ht hmust
    rcases hstep.activeTxn hcons ht with
      ⟨rfl, hnew, -⟩ | ⟨hnot, hold⟩ | ⟨x, slot, op, result, hx, rfl, rfl⟩
    · have hS : stagedOf h t = [] := by
        by_contra hne
        exact (hl.staged_lt hne).ne hnew
      have hA : allWritesOf h t = [] := by
        by_contra hne
        obtain ⟨w, hmem⟩ := exists_mem_of_ne_nil _ hne
        exact (lt_of_mem_allWritesOf hw hmem).ne hnew
      obtain ⟨hS', hA'⟩ := snoc_of_not_write (h := h) (t := t) (e := begin t) (by simp)
      rw [hS', hA', hS, hA]
      rfl
    · obtain ⟨hS, hA⟩ := snoc_of_not_write (h := h) hnot
      rw [hS, hA]
      exact ha.active hold hmust
    · obtain ⟨hmust', rfl⟩ : x.mustAbort = false ∧ result = true := by
        simpa [TransactionContext.afterWrite] using hmust
      rw [stagedOf_snoc, allWritesOf_snoc, ha.active hx hmust']
      simp [stagedBy, acceptedBy, SlotWrite.logRecord]
  · intro t c hc
    have hnot : (t, c) ∈ commitsOf h → ∀ slot op result, e ≠ .write t slot op result := by
      rintro hold slot op result rfl
      have hdone := hw.commit_done hold
      cases hstep with
      | write hact _ | refuse hact _ => simp [hdone] at hact
    rw [commitsOf_snoc] at hc
    rcases mem_append.mp hc with hold | hnew
    · obtain ⟨hS, hA⟩ := snoc_of_not_write (h := h) (hnot hold)
      rw [hS, hA]
      exact ha.committed hold
    · cases hstep with
      | commit hact hmust =>
        obtain ⟨rfl, rfl⟩ := Prod.mk.inj (mem_singleton.mp hnew)
        obtain ⟨hS, hA⟩ := snoc_of_not_write (h := h) (t := t) (e := commit t σ.time) (by simp)
        rw [hS, hA]
        exact ha.active hact hmust
      | begin => cases hnew
      | write => cases hnew
      | refuse => cases hnew
      | select => cases hnew
      | abort => cases hnew
      | performGarbageCollection => cases hnew
      | process => cases hnew

end Accepted

theorem Run.accepted (hrun : Run cfg junk h σ) (hlog : cfg.logging = true) : Accepted h σ := by
  refine (Run.invariant (I := fun h σ => Engine [] σ ∧ Writers h σ ∧ Logged h σ ∧ Accepted h σ)
    ⟨Engine.init junk, Writers.init junk, Logged.init junk, Accepted.init junk⟩ ?_ hrun).2.2.2
  rintro h σ e σ' ⟨heng, hw, hl, ha⟩ hstep
  exact ⟨heng.step hstep, hw.step heng hstep, hl.step hlog heng hw hstep, ha.step heng hw hl hstep⟩

end Terrier
