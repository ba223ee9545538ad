import Terrier.Proof.Engine
import Terrier.Transaction.Snapshot

/-!
Who wrote what, and when. A running writer holds the head of the chain of its slot, a committed
writer is still visible in the chain or lies below the horizon of the garbage collector, and the
writers of one slot never overlap in time.
-/

namespace Terrier

open List Option State

variable {V : Type} {cfg : Config} {pending : List Nat} {σ σ' : State V} {h : List (Event V)}

def State.HasRecord (σ : State V) (txn : TransactionContext V) (slot : TupleSlot) : Prop :=
  ∃ a ∈ txn.undoBuffer, (σ.undo a).slot = slot ∧ (σ.undo a).table.isSome

structure Writers (h : List (Event V)) (σ : State V) : Prop where
  write_lt : ∀ ⦃t slot⦄, writesOf h t slot ≠ [] → t < σ.time
  commit_lt : ∀ ⦃t c⦄, (t, c) ∈ commitsOf h → t < c ∧ c < σ.time
  commit_done : ∀ ⦃t c⦄, (t, c) ∈ commitsOf h → σ.activeTxn t = none
  commit_ne_start : ∀ ⦃t c u x⦄, (t, c) ∈ commitsOf h → σ.activeTxn u = some x → c ≠ u
  commits_sorted : (commitsOf h).Pairwise (fun x y => x.2 < y.2 ∧ x.1 ≠ y.1)
  active_writes : ∀ ⦃t txn⦄ (slot : TupleSlot), σ.activeTxn t = some txn →
    (writesOf h t slot ≠ [] ↔ σ.HasRecord txn slot)
  committed_version : ∀ ⦃t c slot⦄, (t, c) ∈ commitsOf h → writesOf h t slot ≠ [] →
    c < σ.cachedOldestTxnStartTime ∨ ∃ a ∈ (σ.tuples slot).chain, (σ.undo a).timestamp = .time c
  active_after : ∀ ⦃t txn u c slot⦄, σ.activeTxn t = some txn → writesOf h t slot ≠ [] →
    (u, c) ∈ commitsOf h → writesOf h u slot ≠ [] → c < t
  committed_apart : ∀ ⦃t c u d slot⦄, (t, c) ∈ commitsOf h → (u, d) ∈ commitsOf h → t ≠ u →
    writesOf h t slot ≠ [] → writesOf h u slot ≠ [] → c < u ∨ d < t

namespace Writers

theorem init (junk : TupleSlot → ColId → Option V) : Writers [] (State.init junk) := by
  constructor <;> simp [writesOf, commitsOf, State.init, State.activeTxn]

theorem snoc (hw : Writers h σ) {e : Event V} (hwr : ∀ t slot, e.writeTo t slot = none)
    (hcom : e.commitOf = none) : Writers (h ++ [e]) σ := by
  have hW : ∀ t slot, writesOf (h ++ [e]) t slot = writesOf h t slot :=
    fun t slot => writesOf_snoc_of_none h e (hwr t slot)
  have hC : commitsOf (h ++ [e]) = commitsOf h := commitsOf_snoc_of_none h e hcom
  obtain ⟨h1, h2, h3, h4, h5, h6, h7, h8, h9⟩ := hw
  constructor <;> simp only [hW, hC] <;> assumption

/-- State changes that add no versions: buffers keep their installed records,
and a committed version only leaves its chain below the horizon. -/
theorem mono (hw : Writers h σ) (htime : σ.time ≤ σ'.time)
    (hcache : σ.cachedOldestTxnStartTime ≤ σ'.cachedOldestTxnStartTime)
    (hact : ∀ t txn, σ'.activeTxn t = some txn → (σ.time ≤ t ∧ txn.undoBuffer = []) ∨
      ∃ x, σ.activeTxn t = some x ∧ ∀ slot, σ'.HasRecord txn slot ↔ σ.HasRecord x slot)
    (hchain : ∀ slot, ∀ a ∈ (σ.tuples slot).chain, ∀ c, (σ.undo a).timestamp = .time c →
      c < σ'.cachedOldestTxnStartTime ∨
        ∃ b ∈ (σ'.tuples slot).chain, (σ'.undo b).timestamp = .time c) :
    Writers h σ' := by
  constructor
  · intro t slot hne
    exact lt_of_lt_of_le (hw.write_lt hne) htime
  · intro t c hmem
    obtain ⟨htc, hct⟩ := hw.commit_lt hmem
    exact ⟨htc, lt_of_lt_of_le hct htime⟩
  · intro t c hmem
    by_contra hne
    obtain ⟨txn, htxn⟩ := ne_none_iff_exists'.mp hne
    rcases hact t txn htxn with ⟨hge, -⟩ | ⟨x, hx, -⟩
    · have hlt := hw.commit_lt hmem
      omega
    · simp [hw.commit_done hmem] at hx
  · intro t c u x hmem hu
    rcases hact u x hu with ⟨hge, -⟩ | ⟨y, hy, -⟩
    · have hlt := (hw.commit_lt hmem).2
      omega
    · exact hw.commit_ne_start hmem hy
  · exact hw.commits_sorted
  · intro t txn slot ht
    rcases hact t txn ht with ⟨hge, hnil⟩ | ⟨x, hx, hrec⟩
    · have hempty : writesOf h t slot = [] := by
        by_contra hne
        exact absurd (hw.write_lt hne) (not_lt.mpr hge)
      simp [State.HasRecord, hnil, hempty]
    · rw [hrec]
      exact hw.active_writes slot hx
  · intro t c slot hmem hne
    rcases hw.committed_version hmem hne with hlt | ⟨a, ha, hts⟩
    · exact .inl (lt_of_lt_of_le hlt hcache)
    · exact hchain slot a ha c hts
  · intro t txn u c slot ht hne hmem hne'
    rcases hact t txn ht with ⟨hge, -⟩ | ⟨x, hx, -⟩
    · exact absurd (hw.write_lt hne) (not_lt.mpr hge)
    · exact hw.active_after hx hne hmem hne'
  · exact hw.committed_apart

theorem beginTransaction (hw : Writers h σ) : Writers h σ.beginTransaction := by
  refine hw.mono (Nat.le_succ _) le_rfl ?_ (fun slot a ha c hc => Or.inr ⟨a, ha, hc⟩)
  intro t txn htxn
  obtain ⟨rfl, rfl⟩ | ⟨-, hold⟩ := activeTxn_update rfl htxn
  · exact .inl ⟨le_rfl, rfl⟩
  · exact .inr ⟨txn, hold, fun _ => Iff.rfl⟩

theorem collected (hcons : Consistent pending σ) (hstep : Collected σ σ') (hw : Writers h σ) :
    Writers h σ' := by
  cases hstep with
  | administer htup hundo _ htime hcache _ hact =>
    refine hw.mono htime hcache ?_ ?_
    · intro t txn ht
      exact .inr ⟨txn, (hact t).symm.trans ht, by simp [State.HasRecord, hundo]⟩
    · intro slot a ha c hc
      exact .inr ⟨a, by rwa [htup], by rwa [hundo]⟩
  | truncate slot =>
    refine hw.mono le_rfl le_rfl (fun t txn ht => Or.inr ⟨txn, ht, fun _ => Iff.rfl⟩) ?_
    intro s a ha c hc
    by_cases hlt : c < σ.cachedOldestTxnStartTime
    · exact .inl hlt
    · refine Or.inr ⟨a, ?_, hc⟩
      rw [hcons.truncateVersionChain_tuples]
      split_ifs
      · refine mem_filter.mpr ⟨ha, ?_⟩
        simpa [stillNeeded, hc] using hlt
      · exact ha
  | reclaim =>
    next b _ _ _ _ _ _ =>
    have hsame := reclaimSlotIfDeleted_same σ (σ.undo b)
    refine hw.mono (by rw [hsame]) (by rw [hsame]) ?_ ?_
    · intro t txn ht
      rw [hsame] at ht ⊢
      exact .inr ⟨txn, ht, fun _ => Iff.rfl⟩
    · intro slot a ha c hc
      refine Or.inr ⟨a, by rwa [reclaimSlotIfDeleted_chain], ?_⟩
      rw [hsame]
      exact hc

variable {txn : TransactionContext V} {t u : Nat} {y : TransactionContext V}

/-- Who is running after a write, and with which installed records. -/
theorem activeTxn_afterWrite (hcons : Consistent pending σ) (hact : σ.activeTxn t = some txn)
    {record : LogRecord V} {undoRecord : UndoRecord V} {mustAbort : Bool} (htxns : σ'.txns =
      Function.update σ.txns t (some (txn.afterWrite cfg record σ.nextUndo mustAbort)))
    (hundo : σ'.undo = Function.update σ.undo σ.nextUndo undoRecord)
    (hu : σ'.activeTxn u = some y) : ∃ x, σ.activeTxn u = some x ∧ ∀ slot, σ'.HasRecord y slot ↔
      σ.HasRecord x slot ∨ (u = t ∧ undoRecord.slot = slot ∧ undoRecord.table.isSome) := by
  have hsame : ∀ {v x}, σ.txns v = some x → ∀ a ∈ x.undoBuffer, σ'.undo a = σ.undo a := by
    intro v x hv a ha
    rw [hundo, Function.update_of_ne (hcons.ne_nextUndo_of_buffer hv ha)]
  obtain ⟨rfl, rfl⟩ | ⟨hut, hold⟩ := activeTxn_update htxns hu
  · have hbuf := hsame (activeTxn_eq_some_iff.mp hact).1
    refine ⟨txn, hact, fun slot => ?_⟩
    simp only [State.HasRecord, TransactionContext.afterWrite, mem_append,
      mem_singleton, or_and_right, exists_or, exists_eq_left, true_and]
    refine or_congr (exists_congr fun a => and_congr_right fun ha => ?_) ?_
    · rw [hbuf a ha]
    · rw [hundo, Function.update_self]
  · have hbuf := hsame (activeTxn_eq_some_iff.mp hold).1
    refine ⟨y, hold, fun slot => ?_⟩
    simp only [hut, false_and, or_false]
    exact exists_congr fun a => and_congr_right fun ha => by rw [hbuf a ha]

theorem refused (hcons : Consistent pending σ) (hw : Writers h σ)
    (hact : σ.activeTxn t = some txn) (slot : TupleSlot) (op : WriteOp V) (delta : UndoDelta V) :
    Writers h (σ.refused cfg t txn slot op delta) := by
  refine hw.mono (time_refused ..).ge (cachedOldestTxnStartTime_refused ..).ge ?_ ?_
  · intro u y hu
    obtain ⟨x, hx, hrec⟩ := activeTxn_afterWrite hcons hact (txns_refused ..) (undo_refused ..) hu
    exact .inr ⟨x, hx, by simpa using hrec⟩
  · intro s a ha c hc
    refine Or.inr ⟨a, by rwa [tuples_refused], ?_⟩
    rwa [undo_refused, Function.update_of_ne (hcons.ne_nextUndo_of_chain ha)]

theorem ended (hcons : Consistent pending σ) (hw : Writers h σ) {done : TransactionContext V}
    {tuples : TupleSlot → Tuple V} (hact : σ.activeTxn t = some txn)
    (hended : Ended σ t txn done tuples σ')
    (hchain : ∀ slot, (tuples slot).chain = (σ.tuples slot).chain) : Writers h σ' := by
  obtain ⟨ht, hid⟩ := activeTxn_eq_some_iff.mp hact
  refine hw.mono (by rw [hended.time]; omega) hended.cached.ge ?_ ?_
  · intro u y hu
    refine Or.inr ⟨y, (hended.activeTxn.mp hu).2, fun s => ?_⟩
    simp [State.HasRecord, hended.undo]
  · intro s a ha c hc
    refine Or.inr ⟨a, ?_, ?_⟩
    · rwa [hended.tuples, hchain]
    · have hnot : a ∉ txn.undoBuffer := by
        intro hmem
        rw [hcons.buffer_timestamp ht hmem, hid] at hc
        cases hc
      rwa [hended.undo, undo_finished, if_neg hnot]

variable {slot : TupleSlot}

theorem eq_of_hasRecord (hcons : Consistent pending σ) {x : TransactionContext V}
    (ht : σ.activeTxn t = some x) (hu : σ.activeTxn u = some y) (hx : σ.HasRecord x slot)
    (hy : σ.HasRecord y slot) : t = u := by
  obtain ⟨a, ha, hslot, hsome⟩ := hx
  obtain ⟨b, hb, hslot', hsome'⟩ := hy
  obtain ⟨ht, htid⟩ := activeTxn_eq_some_iff.mp ht
  obtain ⟨hu, huid⟩ := activeTxn_eq_some_iff.mp hu
  have hachain := hslot ▸ hcons.installed_of_active ht htid ha hsome
  have hbchain := hslot' ▸ hcons.installed_of_active hu huid hb hsome'
  have hats := (hcons.buffer_timestamp ht ha).trans htid
  have hbts := (hcons.buffer_timestamp hu hb).trans huid
  by_cases hab : a = b
  · subst hab
    simpa [hats] using hbts
  · have hsymm : Std.Symm (fun a b => ∀ t u, (σ.undo a).timestamp = .txnId t →
        (σ.undo b).timestamp = .txnId u → t = u) :=
      ⟨fun a b hrel t u hb ha => (hrel u t ha hb).symm⟩
    have hpairs : (σ.tuples slot).chain.Pairwise (fun a b => ∀ t u,
        (σ.undo a).timestamp = .txnId t → (σ.undo b).timestamp = .txnId u → t = u) := by
      refine (hcons.chain_sorted slot).imp ?_
      intro a b hab t u ha hb
      simpa [ha, hb] using hab
    exact hpairs.forall hachain hbchain hab t u hats hbts

theorem snocCommit (hw : Writers h σ) {c : Nat} (htc : t < c) (hct : c < σ.time)
    (hdone : σ.activeTxn t = none)
    (hlast : ∀ u d, (u, d) ∈ commitsOf h → d < c ∧ u ≠ t)
    (hstart : ∀ u x, σ.activeTxn u = some x → u ≠ c)
    (hversion : ∀ slot, writesOf h t slot ≠ [] →
      ∃ a ∈ (σ.tuples slot).chain, (σ.undo a).timestamp = .time c)
    (halone : ∀ slot u x, writesOf h t slot ≠ [] → σ.activeTxn u = some x → writesOf h u slot = [])
    (hafter : ∀ slot u d, writesOf h t slot ≠ [] → (u, d) ∈ commitsOf h →
      writesOf h u slot ≠ [] → d < t) :
    Writers (h ++ [.commit t c]) σ := by
  have hW : ∀ u slot, writesOf (h ++ [.commit t c]) u slot = writesOf h u slot :=
    fun u slot => writesOf_snoc_of_none h _ rfl
  have hC : commitsOf (h ++ [.commit t c]) = commitsOf h ++ [(t, c)] := commitsOf_snoc h _
  have hcases : ∀ {u d}, (u, d) ∈ commitsOf h ++ [(t, c)] →
      (u, d) ∈ commitsOf h ∨ (u = t ∧ d = c) := by
    intro u d hmem
    simpa using hmem
  constructor <;> simp only [hW, hC]
  · exact hw.write_lt
  · intro u d hmem
    rcases hcases hmem with hold | ⟨rfl, rfl⟩
    · exact hw.commit_lt hold
    · exact ⟨htc, hct⟩
  · intro u d hmem
    rcases hcases hmem with hold | ⟨rfl, rfl⟩
    · exact hw.commit_done hold
    · exact hdone
  · intro u d v x hmem hv
    rcases hcases hmem with hold | ⟨rfl, rfl⟩
    · exact hw.commit_ne_start hold hv
    · exact (hstart v x hv).symm
  · refine pairwise_append.mpr ⟨hw.commits_sorted, pairwise_singleton _ _, ?_⟩
    rintro ⟨u, d⟩ hmem y hy
    obtain rfl := mem_singleton.mp hy
    exact hlast u d hmem
  · exact hw.active_writes
  · intro u d slot hmem hne
    rcases hcases hmem with hold | ⟨rfl, rfl⟩
    · exact hw.committed_version hold hne
    · exact .inr (hversion slot hne)
  · intro u x v d slot hu hne hmem hne'
    rcases hcases hmem with hold | ⟨rfl, rfl⟩
    · exact hw.active_after hu hne hold hne'
    · exact absurd (halone slot u x hne' hu) hne
  · intro u d v f slot hmem hmem' hne hwu hwv
    rcases hcases hmem with hold | ⟨rfl, rfl⟩
    · rcases hcases hmem' with hold' | ⟨rfl, rfl⟩
      · exact hw.committed_apart hold hold' hne hwu hwv
      · exact .inl (hafter slot u d hwv hold hwu)
    · rcases hcases hmem' with hold' | ⟨rfl, rfl⟩
      · exact .inr (hafter slot v f hwu hold' hwv)
      · exact absurd rfl hne

section

variable (hcons : Consistent pending σ) (hw : Writers h σ) (hact : σ.activeTxn t = some txn)
include hcons hw hact

theorem commit : Writers (h ++ [.commit t σ.time]) (σ.commit cfg t txn) := by
  obtain ⟨ht, hid⟩ := activeTxn_eq_some_iff.mp hact
  obtain ⟨done, -, -, hended⟩ := commit_ended cfg σ t txn
  have hstate := hw.ended hcons hact hended (fun _ => rfl)
  refine hstate.snocCommit (hcons.txn_lt ht) (by rw [hended.time]; omega) ?_ ?_ ?_ ?_ ?_ ?_
  · by_contra hne
    obtain ⟨x, hx⟩ := ne_none_iff_exists'.mp hne
    exact (hended.activeTxn.mp hx).1 rfl
  · intro u d hmem
    refine ⟨(hw.commit_lt hmem).2, ?_⟩
    rintro rfl
    simp [hw.commit_done hmem] at hact
  · intro u x hu
    exact (hcons.txn_lt (activeTxn_eq_some_iff.mp (hended.activeTxn.mp hu).2).1).ne
  · intro slot hne
    obtain ⟨a, ha, hslot, hsome⟩ := (hw.active_writes slot hact).mp hne
    refine ⟨a, ?_, ?_⟩
    · rw [hended.tuples, ← hslot]
      exact hcons.installed_of_active ht hid ha hsome
    · rw [hended.undo, undo_finished, if_pos ha]
  · intro slot u x hne hu
    obtain ⟨hut, hu⟩ := hended.activeTxn.mp hu
    by_contra hne'
    exact hut (eq_of_hasRecord hcons hu hact ((hw.active_writes slot hu).mp hne')
      ((hw.active_writes slot hact).mp hne))
  · intro slot u d hne hmem hne'
    exact hw.active_after hact hne hmem hne'

theorem abort : Writers h (σ.abort cfg t txn) := by
  obtain ⟨done, -, -, hended⟩ := abort_ended cfg σ t txn
  exact hw.ended hcons hact hended (σ.restored_chain txn)

theorem not_own_of_nil (hnil : writesOf h t slot = []) :
    ∀ a ∈ (σ.tuples slot).chain, (σ.undo a).timestamp ≠ .txnId t := by
  intro a ha hts
  exact (hw.active_writes slot hact).mpr
    ⟨a, hcons.mem_buffer_of_chain hact ha hts, hcons.chain_record ha⟩ hnil

variable {op : WriteOp V} {delta : UndoDelta V} {tuple : Tuple V} {tables : Nat → DataTable}

/-- A write that is accepted comes after every commit that wrote its slot. -/
theorem committed_lt_of_write (hwrite : Write cfg σ t txn slot op delta tuple tables) {u c : Nat}
    (hmem : (u, c) ∈ commitsOf h) (hne : writesOf h u slot ≠ []) : c < t := by
  obtain ⟨ht, hid⟩ := activeTxn_eq_some_iff.mp hact
  by_cases hown : writesOf h t slot = []
  · rcases hw.committed_version hmem hne with hlt | ⟨a, ha, hts⟩
    · exact lt_of_lt_of_le hlt (hcons.cached_le_running t (hcons.running_of_active ht hid))
    · obtain ⟨d, hd, hle⟩ := hwrite.timestamp_le hcons hact (hw.not_own_of_nil hcons hact hown) a ha
      have hcd : c = d := by simpa [hts] using hd
      exact lt_of_le_of_ne (hcd ▸ hle) (hw.commit_ne_start hmem hact)
  · exact hw.active_after hact hown hmem hne

theorem written (hwrite : Write cfg σ t txn slot op delta tuple tables) :
    Writers (h ++ [.write t slot op true]) (σ.written cfg t txn slot op delta tuple tables) := by
  have hC : commitsOf (h ++ [.write t slot op true]) = commitsOf h :=
    commitsOf_snoc_of_none h _ rfl
  have hW : ∀ u s, writesOf (h ++ [.write t slot op true]) u s ≠ [] ↔
      writesOf h u s ≠ [] ∨ (u = t ∧ s = slot) := by
    intro u s
    rw [writesOf_snoc]
    by_cases hus : t = u ∧ slot = s
    · simp [Event.writeTo, hus]
    · have hus' : ¬ (u = t ∧ s = slot) := fun heq => hus ⟨heq.1.symm, heq.2.symm⟩
      rw [show Event.writeTo u s (.write t slot op true) = none by simpa [Event.writeTo] using hus]
      simp [hus']
  have hback : ∀ {u y}, (σ.written cfg t txn slot op delta tuple tables).activeTxn u = some y →
      ∃ x, σ.activeTxn u = some x ∧ ∀ s,
        (σ.written cfg t txn slot op delta tuple tables).HasRecord y s ↔
          σ.HasRecord x s ∨ (u = t ∧ slot = s) := by
    intro u y hu
    obtain ⟨x, hx, hrec⟩ := activeTxn_afterWrite hcons hact (txns_written ..) (undo_written ..) hu
    exact ⟨x, hx, by simpa using hrec⟩
  have hcomm : ∀ {u c s}, (u, c) ∈ commitsOf h →
      writesOf (h ++ [.write t slot op true]) u s ≠ [] → u ≠ t ∧ writesOf h u s ≠ [] := by
    intro u c s hmem hne
    have hut : u ≠ t := by
      rintro rfl
      simp [hw.commit_done hmem] at hact
    exact ⟨hut, ((hW u s).mp hne).resolve_right (fun heq => hut heq.1)⟩
  constructor
  · intro u s hne
    rcases (hW u s).mp hne with hold | ⟨rfl, -⟩
    · exact hw.write_lt hold
    · exact hcons.txn_lt (activeTxn_eq_some_iff.mp hact).1
  · rw [hC]
    exact hw.commit_lt
  · intro u c hmem
    rw [hC] at hmem
    by_contra hne
    obtain ⟨y, hy⟩ := ne_none_iff_exists'.mp hne
    obtain ⟨x, hx, -⟩ := hback hy
    simp [hw.commit_done hmem] at hx
  · intro u c v y hmem hv
    rw [hC] at hmem
    obtain ⟨x, hx, -⟩ := hback hv
    exact hw.commit_ne_start hmem hx
  · rw [hC]
    exact hw.commits_sorted
  · intro u y s hu
    obtain ⟨x, hx, hrec⟩ := hback hu
    rw [hW, hrec, hw.active_writes s hx, eq_comm (a := s)]
  · intro u c s hmem hne
    rw [hC] at hmem
    rcases hw.committed_version hmem (hcomm hmem hne).2 with hlt | ⟨a, ha, hts⟩
    · exact .inl hlt
    · refine Or.inr ⟨a, ?_, ?_⟩
      · rw [tuples_written]
        by_cases hs : s = slot
        · subst hs
          simp [hwrite.chain_eq hcons, ha]
        · simpa [hs] using ha
      · rwa [undo_written, Function.update_of_ne (hcons.ne_nextUndo_of_chain ha)]
  · intro u y v c s hu hne hmem hne'
    rw [hC] at hmem
    obtain ⟨x, hx, -⟩ := hback hu
    have hvs := (hcomm hmem hne').2
    rcases (hW u s).mp hne with hold | ⟨rfl, rfl⟩
    · exact hw.active_after hx hold hmem hvs
    · exact hw.committed_lt_of_write hcons hact hwrite hmem hvs
  · intro u c v d s hmem hmem' hne hwu hwv
    rw [hC] at hmem hmem'
    exact hw.committed_apart hmem hmem' hne (hcomm hmem hwu).2 (hcomm hmem' hwv).2

end

theorem step (heng : Engine [] σ) (hw : Writers h σ) {e : Event V}
    (hstep : Transition cfg σ e σ') : Writers (h ++ [e]) σ' := by
  have hcons := heng.consistent
  cases hstep with
  | begin => exact hw.beginTransaction.snoc (fun _ _ => rfl) rfl
  | write hact hwrite => exact hw.written hcons hact hwrite
  | refuse hact href =>
    exact (hw.refused hcons hact _ _ _).snoc (by simp [Event.writeTo]) rfl
  | select => exact hw.snoc (fun _ _ => rfl) rfl
  | commit hact hmust => exact hw.commit hcons hact
  | abort hact => exact (hw.abort hcons hact).snoc (fun _ _ => rfl) rfl
  | performGarbageCollection =>
    refine Writers.snoc ?_ (fun _ _ => rfl) rfl
    exact hcons.collectedRun.invariant (fun hcons => collected hcons) hw
  | process =>
    refine Writers.snoc ?_ (fun _ _ => rfl) rfl
    exact hw.mono le_rfl le_rfl (fun t txn ht => Or.inr ⟨txn, ht, fun _ => Iff.rfl⟩)
      (fun slot a ha c hc => Or.inr ⟨a, ha, hc⟩)

end Writers

theorem Run.writers {junk : TupleSlot → ColId → Option V} (hrun : Run cfg junk h σ) :
    Writers h σ := by
  have hboth : Engine [] σ ∧ Writers h σ :=
    Run.invariant (I := fun h σ => Engine [] σ ∧ Writers h σ) ⟨Engine.init junk, Writers.init junk⟩
      (fun _ _ _ _ hinv hstep => ⟨hinv.1.step hstep, hinv.2.step hinv.1 hstep⟩) hrun
  exact hboth.2

end Terrier
