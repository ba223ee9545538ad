import Terrier.Proof.LegalWrites

/-!
Replay on the recovered engine. Transactions are replayed one after another, so a sequence of
legal writes is accepted in full. The slots of the new tables are others than those in the log;
`tuple_slot_map_` relates the two databases.
-/

namespace Terrier

open List Option Recovered State Database WriteOp

variable {V : Type} {cfg : Config} {r : Nat} {D E : Database V} {d : Recovered V}

theorem MustAbortContract.of_not_refused {h : List (Event V)}
    (hnone : ∀ e ∈ h, e.refusedBy = none) : MustAbortContract h :=
  pairwise_of_forall_mem_list (fun e he _ _ t ht => by simp [hnone e he] at ht)

/-- What a database of committed rows is, between two transactions. -/
def committedState (h : List (Event V)) : Database V :=
  fun slot => effectOf h slot (commitsOf h)

structure Idle (cfg : Config) (E : Database V) (d : Recovered V) : Prop where
  refines : Refines cfg d.history d.engine
  accepted : ∀ e ∈ d.history, e.refusedBy = none
  idle : ∀ t, d.engine.activeTxn t = none
  content : committedState d.history = E

structure Replaying (cfg : Config) (r : Nat) (E : Database V) (d : Recovered V) : Prop where
  refines : Refines cfg d.history d.engine
  accepted : ∀ e ∈ d.history, e.refusedBy = none
  active : ∃ txn, d.engine.activeTxn r = some txn ∧ txn.mustAbort = false
  alone : ∀ t txn, d.engine.activeTxn t = some txn → t = r
  time : d.engine.time = r + 1
  content : snapshot d.history r = E

def Recovered.after (d : Recovered V) (σ : State V) (e : Event V) : Recovered V :=
  { d with engine := σ, history := d.history ++ [e] }

theorem Recovered.call_of_step {a : Action V} {σ : State V} {e : Event V}
    (hstep : step cfg d.engine a = some (σ, e)) : d.call cfg a = some (d.after σ e, e) := by
  simp [call, hstep, after]

theorem Idle.begin (hidle : Idle cfg E d) : Replaying cfg d.engine.time E
      (d.after d.engine.beginTransaction (.begin d.engine.time)) := by
  have hw := hidle.refines.writers
  have hacc : ∀ e ∈ d.history ++ [.begin d.engine.time], e.refusedBy = none :=
    forall_mem_append.mpr ⟨hidle.accepted, forall_mem_singleton.mpr rfl⟩
  have hstep : Transition cfg d.engine (.begin d.engine.time) d.engine.beginTransaction :=
    .begin d.engine
  refine ⟨hidle.refines.step (.of_not_refused hacc) hstep, hacc, ?_, ?_, rfl, ?_⟩
  · refine ⟨⟨.txnId d.engine.time, [], RedoBuffer.empty, false, false⟩, ?_, rfl⟩
    rw [State.activeTxn_eq_some_iff]
    simp [Recovered.after, State.beginTransaction]
  · intro t txn ht
    rcases hstep.activeTxn hidle.refines.engine.consistent ht with
      ⟨-, hnew, -⟩ | ⟨-, hold⟩ | ⟨_, _, _, _, -, he, -⟩
    · exact hnew
    · simp [hidle.idle t] at hold
    · cases he
  · rw [← hidle.content]
    funext slot
    have hnone : writesOf d.history d.engine.time slot = [] := by
      by_contra hne
      exact lt_irrefl _ (hw.write_lt hne)
    have hall : (commitsOf d.history).filter (fun c => decide (c.2 < d.engine.time)) =
        commitsOf d.history := by
      rw [filter_eq_self]
      rintro ⟨t, c⟩ hc
      exact decide_eq_true (hw.commit_lt hc).2
    simp only [Recovered.after, snapshot]
    rw [writesOf_snoc_of_none _ _ rfl, hnone,
      committedBefore_snoc_of_none rfl (fun _ _ _ => rfl), committedBefore, hall]
    rfl

namespace Replaying

section

variable (hr : Replaying cfg r E d)
include hr

/-- Nothing in a chain is in the way of the only running transaction. -/
theorem refuses_eq_false {txn : TransactionContext V} (hact : d.engine.activeTxn r = some txn)
    {slot : TupleSlot} (hsome : (E slot).isSome) : d.engine.refuses r txn slot = false := by
  obtain ⟨⟨hcons, -, -, -⟩, hw, -, hv⟩ := hr.refines
  have hid := (activeTxn_eq_some_iff.mp hact).2
  have hchain : ∀ a ∈ (d.engine.tuples slot).chain, (d.engine.undo a).timestamp = .txnId r ∨
      ∃ c, (d.engine.undo a).timestamp = .time c ∧ c ≤ r := by
    intro a ha
    rcases hcons.chain_timestamp ha with ⟨t, x, ht, -, hts⟩ | ⟨c, hc, hlt⟩
    · exact .inl (hr.alone t x ht ▸ hts)
    · exact .inr ⟨c, hc, by have := hr.time; omega⟩
  have hconf : d.engine.hasConflict r txn slot = false := by
    unfold hasConflict headTimestamp
    cases hhead : (d.engine.tuples slot).chain.head? with
    | none => rfl
    | some a =>
      rcases hchain a (mem_of_mem_head? hhead) with hts | ⟨c, hc, hle⟩
      · simp [hasConflictWith, hts, hid]
      · simpa [hasConflictWith, hc] using hle
  have hrep : Represents cfg slot.table (d.engine.tuples slot).view (snapshot d.history r slot) :=
    hv.inPlace_of_old hcons hw hact (fun hnil a ha =>
      (hchain a ha).resolve_left (hw.not_own_of_nil hcons hact hnil a ha))
  rw [hr.content] at hrep
  have hvis := hrep.visible_iff.mpr hsome
  simp only [refuses, hconf, Bool.false_or, Bool.not_eq_false']
  exact hvis

theorem write {txn : TransactionContext V} {slot : TupleSlot} {op : WriteOp V} {delta : UndoDelta V}
    {tuple : Tuple V} {tables : Nat → DataTable} (hact : d.engine.activeTxn r = some txn)
    (hwrite : Write cfg d.engine r txn slot op delta tuple tables) :
    Replaying cfg r (E.write (slot, op))
      (d.after (d.engine.written cfg r txn slot op delta tuple tables)
        (.write r slot op true)) := by
  have hcons := hr.refines.engine.consistent
  have hw := hr.refines.writers
  have hstep : Transition cfg d.engine (.write r slot op true)
      (d.engine.written cfg r txn slot op delta tuple tables) := .write hact hwrite
  have hacc : ∀ e ∈ d.history ++ [.write r slot op true], e.refusedBy = none :=
    forall_mem_append.mpr ⟨hr.accepted, forall_mem_singleton.mpr rfl⟩
  refine ⟨hr.refines.step (.of_not_refused hacc) hstep, hacc, ?_, ?_, hr.time, ?_⟩
  · obtain ⟨x, hx, hmust⟩ := hr.active
    obtain rfl : txn = x := Option.some.inj (hact.symm.trans hx)
    refine ⟨txn.afterWrite cfg (op.logRecord r slot) d.engine.nextUndo txn.mustAbort, ?_, hmust⟩
    rw [State.activeTxn_eq_some_iff]
    simp only [Recovered.after, State.txns_written, Function.update_self, true_and]
    exact (State.activeTxn_eq_some_iff.mp hact).2
  · intro t x ht
    rcases hstep.activeTxn hcons ht with ⟨he, -, -⟩ | ⟨-, hold⟩ | ⟨_, _, _, _, -, he, -⟩
    · cases he
    · exact hr.alone t x hold
    · cases he
      rfl
  · funext s
    have hbef : committedBefore (d.history ++ [.write r slot op true]) r s =
        committedBefore d.history r s := by
      refine committedBefore_snoc_of_none rfl ?_ r
      intro v c hc
      have hne : r ≠ v := by
        rintro rfl
        simp [hw.commit_done hc] at hact
      simp [Event.writeTo, hne]
    simp only [Recovered.after, snapshot, hbef, writesOf_snoc, applyWrites_append]
    rw [← hr.content]
    by_cases hs : s = slot
    · subst hs
      simp [Event.writeTo, Database.write, snapshot, applyWrites]
    · simp [Event.writeTo, Database.write, snapshot, applyWrites, Ne.symm hs, hs]

theorem insert {table : Nat} {delta : ProjectedRow V} (hcols : cfg.InsertColumns table delta) :
    ∃ d' new, d.call cfg (.insert r table delta) = some (d', .write r new (.insert delta) true) ∧
      new.table = table ∧ E new = none ∧ d'.tupleSlotMap = d.tupleSlotMap ∧
      Replaying cfg r (E.write (new, .insert delta)) d' := by
  obtain ⟨txn, hact, -⟩ := hr.active
  obtain ⟨new, undo, tuple, tables, htable, hwrite, hins⟩ :=
    sqlInsert_spec cfg d.engine r txn table delta hcols
  refine ⟨_, new, call_of_step ?_, htable, ?_, rfl, hr.write hact hwrite⟩
  · simp only [step, hact, if_pos hcols, hins]
  · rw [← hr.content]
    exact (hwrite.legal hr.refines hact).2

theorem update {new : TupleSlot} {delta : ProjectedRow V} (hcols : cfg.ValidColumns new.table delta)
    (hsome : (E new).isSome) :
    ∃ d', d.call cfg (.update r new delta) = some (d', .write r new (.update delta) true) ∧
      d'.tupleSlotMap = d.tupleSlotMap ∧ Replaying cfg r (E.write (new, .update delta)) d' := by
  obtain ⟨txn, hact, -⟩ := hr.active
  have href := hr.refuses_eq_false hact hsome
  rcases sqlUpdate_spec cfg d.engine r txn new delta hcols with
    ⟨hrefused, -⟩ | ⟨undo, tuple, hwrite, hupdate⟩
  · simp [href] at hrefused
  · refine ⟨_, call_of_step ?_, rfl, hr.write hact hwrite⟩
    simp only [step, hact, if_pos hcols, hupdate]

theorem delete {new : TupleSlot} (hsome : (E new).isSome) :
    ∃ d', d.call cfg (.delete r new) = some (d', .write r new .delete true) ∧
      d'.tupleSlotMap = d.tupleSlotMap ∧ Replaying cfg r (E.write (new, .delete)) d' := by
  obtain ⟨txn, hact, -⟩ := hr.active
  have href := hr.refuses_eq_false hact hsome
  rcases sqlDelete_spec cfg d.engine r txn new with
    ⟨hrefused, -⟩ | ⟨undo, tuple, hwrite, hdel⟩
  · simp [href] at hrefused
  · refine ⟨_, call_of_step ?_, rfl, hr.write hact hwrite⟩
    simp only [step, hact, hdel]

theorem commit : ∃ d', d.call cfg (.commit r) = some (d', .commit r d.engine.time) ∧
      d'.tupleSlotMap = d.tupleSlotMap ∧ Idle cfg E d' := by
  obtain ⟨txn, hact, hmust⟩ := hr.active
  have hcons := hr.refines.engine.consistent
  have hw := hr.refines.writers
  have hstep : Transition cfg d.engine (.commit r d.engine.time) (d.engine.commit cfg r txn) :=
    .commit hact hmust
  have hacc : ∀ e ∈ d.history ++ [.commit r d.engine.time], e.refusedBy = none :=
    forall_mem_append.mpr ⟨hr.accepted, forall_mem_singleton.mpr rfl⟩
  have hcom : step cfg d.engine (.commit r) =
      some (d.engine.commit cfg r txn, .commit r d.engine.time) := by
    simp only [step, hact]
    rw [if_neg (by simp [hmust])]
  refine ⟨_, Recovered.call_of_step hcom, rfl,
    hr.refines.step (.of_not_refused hacc) hstep, hacc, ?_, ?_⟩
  · intro t
    by_contra hne
    obtain ⟨x, hx⟩ := ne_none_iff_exists'.mp hne
    obtain ⟨done, -, -, hended⟩ := State.commit_ended cfg d.engine r txn
    obtain ⟨htr, hold⟩ := hended.activeTxn.mp hx
    exact htr (hr.alone t x hold)
  · rw [← hr.content]
    funext slot
    have hall : (commitsOf d.history).filter (fun c => decide (c.2 < r)) = commitsOf d.history := by
      rw [filter_eq_self]
      rintro ⟨t, c⟩ hc
      have hlt := (hw.commit_lt hc).2
      have hne := hw.commit_ne_start hc hact
      have htime := hr.time
      exact decide_eq_true (by omega)
    have hsame : ∀ x ∈ commitsOf d.history ++ [(r, d.engine.time)],
        writesOf (d.history ++ [.commit r d.engine.time]) x.1 slot = writesOf d.history x.1 slot :=
      fun x _ => writesOf_snoc_of_none _ _ rfl
    simp only [committedState, Recovered.after, commitsOf_snoc, Event.commitOf, toList_some]
    rw [effectOf_congr hsame, snapshot, committedBefore, hall]
    simp [effectOf]

end

end Replaying

/-- The rows of `E` are the rows of `D` under new slots: a slot of `D` is
mapped exactly when it holds a row, and to a slot of the same table. -/
structure Renames (map : TupleSlot → Option TupleSlot) (D E : Database V) : Prop where
  row : ∀ ⦃slot new⦄, map slot = some new → new.table = slot.table ∧ E new = D slot
  mapped : ∀ slot, (map slot).isSome ↔ (D slot).isSome
  injective : ∀ ⦃slot slot' new⦄, map slot = some new → map slot' = some new → slot = slot'
  onto : ∀ ⦃new⦄, (E new).isSome → ∃ slot, map slot = some new

namespace Renames

variable {map : TupleSlot → Option TupleSlot} {slot new : TupleSlot}

theorem empty : Renames (fun _ => none) (fun _ => none : Database V) (fun _ => none) :=
  ⟨by simp, by simp, by simp, by simp⟩

theorem isSome (hren : Renames map D E) (hnew : map slot = some new) : (E new).isSome := by
  rw [(hren.row hnew).2, ← hren.mapped, hnew]
  rfl

theorem insert (hren : Renames map D E) (hfree : E new = none) (htable : new.table = slot.table)
    (hnone : D slot = none) (delta : ProjectedRow V) :
    Renames (Function.update map slot (some new)) (D.write (slot, .insert delta))
      (E.write (new, .insert delta)) := by
  have hunmap : ∀ s, map s ≠ some new := by
    intro s hs
    simpa [hfree] using hren.isSome hs
  have hother : ∀ {s n}, s ≠ slot → map s = some n → n ≠ new := by
    rintro s n - hs rfl
    exact hunmap s hs
  refine ⟨?_, ?_, ?_, ?_⟩
  · intro s n hs
    obtain ⟨rfl, rfl⟩ | ⟨hslot, hs⟩ := update_eq_some hs
    · exact ⟨htable, by simp [write, apply]⟩
    · have hn := hother hslot hs
      simpa [write, hslot, hn] using hren.row hs
  · intro s
    by_cases hslot : s = slot
    · subst hslot
      simp [write, apply]
    · simpa [write, hslot] using hren.mapped s
  · intro s s' n hs hs'
    obtain ⟨rfl, rfl⟩ | ⟨hslot, hs⟩ := update_eq_some hs
    · obtain ⟨rfl, -⟩ | ⟨-, hs'⟩ := update_eq_some hs'
      · rfl
      · exact absurd hs' (hunmap s')
    · obtain ⟨-, rfl⟩ | ⟨-, hs'⟩ := update_eq_some hs'
      · exact absurd hs (hunmap s)
      · exact hren.injective hs hs'
  · intro n hn
    by_cases hnew : n = new
    · exact ⟨slot, by simp [hnew]⟩
    · obtain ⟨s, hs⟩ : ∃ s, map s = some n :=
        hren.onto (by simpa [write, hnew] using hn)
      have hslot : s ≠ slot := by
        rintro rfl
        have hsome := (hren.mapped s).mp (by simp [hs])
        simp [hnone] at hsome
      exact ⟨s, by simpa [hslot] using hs⟩

theorem update (hren : Renames map D E) (hnew : map slot = some new) (delta : ProjectedRow V) :
    Renames map (D.write (slot, .update delta)) (E.write (new, .update delta)) := by
  obtain ⟨htable, hrow⟩ := hren.row hnew
  refine ⟨?_, ?_, hren.injective, ?_⟩
  · intro s n hs
    refine ⟨(hren.row hs).1, ?_⟩
    by_cases hslot : s = slot
    · subst hslot
      obtain rfl : new = n := Option.some.inj (hnew.symm.trans hs)
      simp [write, hrow]
    · have hn : n ≠ new := fun heq => hslot (hren.injective hs (heq ▸ hnew))
      simpa [write, hslot, hn] using (hren.row hs).2
  · intro s
    by_cases hslot : s = slot
    · subst hslot
      simpa [write, apply] using hren.mapped s
    · simpa [write, hslot] using hren.mapped s
  · intro n hn
    by_cases hnew' : n = new
    · exact ⟨slot, hnew' ▸ hnew⟩
    · exact hren.onto (by simpa [write, hnew'] using hn)

theorem delete (hren : Renames map D E) (hnew : map slot = some new) :
    Renames (Function.update map slot none) (D.write (slot, .delete)) (E.write (new, .delete)) := by
  have hold : ∀ {s n}, Function.update map slot none s = some n → s ≠ slot ∧ map s = some n := by
    intro s n hs
    by_cases hslot : s = slot
    · simp [hslot] at hs
    · exact ⟨hslot, by simpa [hslot] using hs⟩
  refine ⟨?_, ?_, ?_, ?_⟩
  · intro s n hs
    obtain ⟨hslot, hs⟩ := hold hs
    have hn : n ≠ new := fun heq => hslot (hren.injective hs (heq ▸ hnew))
    simpa [write, hslot, hn] using hren.row hs
  · intro s
    by_cases hslot : s = slot
    · simp [write, hslot, apply]
    · simpa [write, hslot] using hren.mapped s
  · intro s s' n hs hs'
    exact hren.injective (hold hs).2 (hold hs').2
  · intro n hn
    by_cases hnew' : n = new
    · simp [write, hnew', apply] at hn
    · obtain ⟨s, hs⟩ : ∃ s, map s = some n :=
        hren.onto (by simpa [write, hnew'] using hn)
      have hslot : s ≠ slot := by
        rintro rfl
        exact hnew' (Option.some.inj (hs.symm.trans hnew))
      exact ⟨s, by simpa [hslot] using hs⟩

end Renames

namespace Replaying

theorem setMapping (hr : Replaying cfg r E d) (slot : TupleSlot) (new : Option TupleSlot) :
    Replaying cfg r E (d.setMapping slot new) :=
  ⟨hr.refines, hr.accepted, hr.active, hr.alone, hr.time, hr.content⟩

theorem replayRecord (hr : Replaying cfg r E d) (hren : Renames d.tupleSlotMap D E) (t : Nat)
    {w : SlotWrite V} (hlegal : w.2.Legal cfg w.1.table (D w.1)) :
    ∃ d' E', d.replayRecord cfg r (w.logRecord t) = some d' ∧ Replaying cfg r E' d' ∧
      Renames d'.tupleSlotMap (D.write w) E' := by
  obtain ⟨slot, op⟩ := w
  have hmapped : (D slot).isSome → ∃ new, d.tupleSlotMap slot = some new :=
    fun hsome => isSome_iff_exists.mp ((hren.mapped slot).mpr hsome)
  cases op with
  | insert delta =>
    obtain ⟨hcols, hnone⟩ := hlegal
    have hunmap : d.tupleSlotMap slot = none := by
      rw [← not_isSome_iff_eq_none, hren.mapped]
      simp [hnone]
    obtain ⟨d', new, hcall, htable, hfree, hmap, hr'⟩ := hr.insert hcols
    refine ⟨d'.setMapping slot (some new), _, ?_, hr'.setMapping _ _, ?_⟩
    · simp only [SlotWrite.logRecord, WriteOp.logRecord, Recovered.replayRecord,
        Recovered.replayRedoRecord, hunmap, hcall]
    · rw [Recovered.setMapping, hmap]
      exact hren.insert hfree htable hnone delta
  | update delta =>
    obtain ⟨hcols, hsome⟩ := hlegal
    obtain ⟨new, hnew⟩ := hmapped hsome
    have htable := (hren.row hnew).1
    obtain ⟨d', hcall, hmap, hr'⟩ := hr.update (htable ▸ hcols) (hren.isSome hnew)
    refine ⟨d', _, ?_, hr', ?_⟩
    · simp only [SlotWrite.logRecord, WriteOp.logRecord, Recovered.replayRecord,
        Recovered.replayRedoRecord, hnew, hcall]
    · rw [hmap]
      exact hren.update hnew delta
  | delete =>
    obtain ⟨new, hnew⟩ := hmapped hlegal
    obtain ⟨d', hcall, hmap, hr'⟩ := hr.delete (hren.isSome hnew)
    refine ⟨d'.setMapping slot none, _, ?_, hr'.setMapping _ _, ?_⟩
    · simp only [SlotWrite.logRecord, WriteOp.logRecord, Recovered.replayRecord,
        Recovered.replayDeleteRecord, hnew, hcall]
    · rw [Recovered.setMapping, hmap]
      exact hren.delete hnew

theorem replayRecords (hr : Replaying cfg r E d) (hren : Renames d.tupleSlotMap D E) (t : Nat)
    {ws : List (SlotWrite V)} (hlegal : LegalWrites cfg D ws) :
    ∃ d' E', (ws.map (SlotWrite.logRecord t)).foldlM (Recovered.replayRecord cfg r) d = some d' ∧
      Replaying cfg r E' d' ∧ Renames d'.tupleSlotMap (D.writeAll ws) E' := by
  induction ws generalizing D E d with
  | nil => exact ⟨d, E, rfl, hr, hren⟩
  | cons w ws ih =>
    obtain ⟨d₁, E₁, hfirst, hr₁, hren₁⟩ := hr.replayRecord hren t hlegal.1
    obtain ⟨d', E', hrest, hr', hren'⟩ := ih hr₁ hren₁ hlegal.2
    refine ⟨d', E', ?_, hr', hren'⟩
    rw [map_cons, foldlM_cons, hfirst]
    exact hrest

end Replaying

theorem Idle.replayTransaction (hidle : Idle cfg E d) (hren : Renames d.tupleSlotMap D E) (t : Nat)
    {ws : List (SlotWrite V)} (hlegal : LegalWrites cfg D ws) :
    ∃ d' E', d.replayTransaction cfg (ws.map (SlotWrite.logRecord t)) = some d' ∧
      Idle cfg E' d' ∧ Renames d'.tupleSlotMap (D.writeAll ws) E' := by
  have hbegin : d.call cfg .begin = some
      (d.after d.engine.beginTransaction (.begin d.engine.time), .begin d.engine.time) := rfl
  obtain ⟨d₁, E', hrecs, hr₁, hren₁⟩ := hidle.begin.replayRecords hren t hlegal
  obtain ⟨d', hcom, hmap, hidle'⟩ := hr₁.commit
  refine ⟨d', E', ?_, hidle', hmap ▸ hren₁⟩
  simp only [Recovered.replayTransaction, hbegin, hrecs, hcom, map_some]

theorem Idle.init (junk : TupleSlot → ColId → Option V) :
    Idle cfg (fun _ => none) (Recovered.init junk) :=
  ⟨Refines.init junk, by simp [Recovered.init], fun _ => rfl, rfl⟩

end Terrier
