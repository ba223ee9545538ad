import Terrier.Proof.ReplayOrder
import Terrier.Proof.Writers

/-!
What a run writes to the log. Every write is staged, accepted or not, and the records of a
transaction reach the log in that order. The bound in a commit record is the cached oldest start
time, so whoever writes to the log later on started at that time or after it.
-/

namespace Terrier

open List Option LogRecord State

variable {V : Type} {cfg : Config} {pending : List Nat} {σ σ' : State V} {h : List (Event V)}

def Event.stagedBy (t : Nat) : Event V → Option (LogRecord V)
  | .write u slot op _ => if u = t then some (op.logRecord t slot) else none
  | .begin _ => none
  | .select _ _ _ _ => none
  | .commit _ _ => none
  | .abort _ _ => none
  | .performGarbageCollection => none
  | .process => none

def stagedOf (h : List (Event V)) (t : Nat) : List (LogRecord V) :=
  h.filterMap (Event.stagedBy t)

def State.logged (σ : State V) : List (LogRecord V) :=
  σ.log ++ σ.flushQueue.flatten.filter LogRecord.isSerialized

def recordsOf (log : List (LogRecord V)) (t : Nat) : List (LogRecord V) :=
  log.filter (fun record => decide (record.txnBegin = t))

theorem WriteOp.logRecord_change (op : WriteOp V) (t : Nat) (slot : TupleSlot) :
    (op.logRecord t slot).txnBegin = t ∧ (op.logRecord t slot).isChange = true := by
  cases op <;> exact ⟨rfl, rfl⟩

theorem stagedOf_snoc (h : List (Event V)) (e : Event V) (t : Nat) :
    stagedOf (h ++ [e]) t = stagedOf h t ++ (e.stagedBy t).toList := by
  simp only [stagedOf, filterMap_append]
  cases hs : e.stagedBy t <;> simp [hs]

variable {t : Nat}

theorem stagedOf_snoc_of_none {e : Event V} (hnone : e.stagedBy t = none) :
    stagedOf (h ++ [e]) t = stagedOf h t := by
  simp [stagedOf_snoc, hnone]

variable {record : LogRecord V}

theorem change_of_mem_stagedOf (hrec : record ∈ stagedOf h t) :
    record.txnBegin = t ∧ record.isChange = true := by
  obtain ⟨e, -, hstage⟩ := mem_filterMap.mp hrec
  cases e with
  | write u slot op result =>
    simp only [Event.stagedBy] at hstage
    split_ifs at hstage
    cases hstage
    exact op.logRecord_change t slot
  | begin | select | commit | abort | performGarbageCollection | process => cases hstage

theorem LogRecord.isSerialized_of_isChange (hchg : record.isChange = true) :
    record.isSerialized = true ∧ record.commitOf = none := by
  cases record with
  | redo | delete => exact ⟨rfl, rfl⟩
  | commit | abort => cases hchg

section Lists

variable {log new : List (LogRecord V)} {t u : Nat}

theorem recordsOf_append_of_ne (hnew : ∀ r ∈ new, r.txnBegin = t) (hne : u ≠ t) :
    recordsOf (log ++ new) u = recordsOf log u := by
  have hnil : new.filter (fun record => decide (record.txnBegin = u)) = [] := by
    rw [filter_eq_nil_iff]
    intro r hr heq
    exact hne ((of_decide_eq_true heq).symm.trans (hnew r hr))
  rw [recordsOf, filter_append, hnil, append_nil, recordsOf]

theorem recordsOf_append_self (hnew : ∀ r ∈ new, r.txnBegin = t) :
    recordsOf (log ++ new) t = recordsOf log t ++ new := by
  have hall : new.filter (fun record => decide (record.txnBegin = t)) = new := by
    rw [filter_eq_self]
    exact fun r hr => decide_eq_true (hnew r hr)
  rw [recordsOf, filter_append, hall, recordsOf]

theorem changesOf_eq_filter : changesOf log t = (recordsOf log t).filter LogRecord.isChange := by
  simp [changesOf, recordsOf, List.filter_filter]

theorem loggedCommits_append :
    loggedCommits (log ++ new) = loggedCommits log ++ loggedCommits new :=
  filterMap_append

theorem loggedCommits_of_changes (hnew : ∀ r ∈ new, r.isChange = true) : loggedCommits new = [] :=
  filterMap_eq_nil_iff.mpr (fun r hr => (isSerialized_of_isChange (hnew r hr)).2)

theorem filter_isSerialized_of_changes (hnew : ∀ r ∈ new, r.isChange = true) :
    new.filter LogRecord.isSerialized = new :=
  filter_eq_self.mpr (fun r hr => (isSerialized_of_isChange (hnew r hr)).1)

/-- New records of one transaction that has not ended in the log. -/
theorem WellFormedLog.append (hwf : WellFormedLog log) (hnew : ∀ r ∈ new, r.txnBegin = t)
    (hlast : new.Pairwise (fun e _ => e.isChange = true))
    (hopen : ∀ r ∈ log, r.isChange = false → r.txnBegin ≠ t)
    (hbound : ∀ u c b readOnly, .commit u c (.time b) readOnly ∈ log → b ≤ t)
    (hbnd : ∀ u c oldest readOnly, .commit u c oldest readOnly ∈ new → ∃ b, oldest = .time b) :
    WellFormedLog (log ++ new) := by
  refine ⟨?_, ?_, ?_⟩
  · intro u c oldest readOnly hin
    rcases mem_append.mp hin with hin | hin
    · exact hwf.bounded u c oldest readOnly hin
    · exact hbnd u c oldest readOnly hin
  · refine pairwise_append.mpr ⟨hwf.after_bound, hlast.imp ?_, ?_⟩
    · intro e f hchg u c b readOnly he
      simp [he, isChange] at hchg
    · intro e he f hf u c b readOnly heq
      rw [hnew f hf]
      exact hbound u c b readOnly (heq ▸ he)
  · refine pairwise_append.mpr ⟨hwf.last, hlast.imp ?_, ?_⟩
    · intro e f hchg hnot
      simp [hchg] at hnot
    · intro e he f hf hnot
      rw [hnew f hf]
      exact (hopen e he hnot).symm

end Lists

structure Logged (h : List (Event V)) (σ : State V) : Prop where
  active : ∀ ⦃t txn⦄, σ.activeTxn t = some txn →
    recordsOf σ.logged t ++ txn.redoBuffer.records = stagedOf h t
  readOnly : ∀ ⦃t txn⦄, σ.activeTxn t = some txn → (txn.undoBuffer = [] ↔ stagedOf h t = [])
  staged_lt : ∀ ⦃t⦄, stagedOf h t ≠ [] → t < σ.time
  begun : ∀ record ∈ σ.logged, record.txnBegin < σ.time
  closed : ∀ record ∈ σ.logged, record.isChange = false → σ.activeTxn record.txnBegin = none
  bound : ∀ t c b readOnly, .commit t c (.time b) readOnly ∈ σ.logged →
    b ≤ σ.cachedOldestTxnStartTime
  wellFormed : WellFormedLog σ.logged
  commits : loggedCommits σ.logged = (commitsOf h).filter (fun c => !(stagedOf h c.1).isEmpty)
  committed : ∀ ⦃t c⦄, (t, c) ∈ loggedCommits σ.logged → changesOf σ.logged t = stagedOf h t

variable {new : List (LogRecord V)}

namespace Logged

theorem init (junk : TupleSlot → ColId → Option V) : Logged [] (State.init junk) := by
  have hempty : (State.init junk).logged = [] := rfl
  have hidle : ∀ t, (State.init junk).activeTxn t = none := fun _ => rfl
  constructor <;> simp [hempty, hidle, stagedOf, commitsOf, loggedCommits]
  exact ⟨by simp, .nil, .nil⟩

theorem quiet (hl : Logged h σ) {e : Event V} (hlogged : σ'.logged = σ.logged)
    (htime : σ.time ≤ σ'.time)
    (hcache : σ.cachedOldestTxnStartTime ≤ σ'.cachedOldestTxnStartTime)
    (hact : ∀ t txn, σ'.activeTxn t = some txn → σ.activeTxn t = some txn ∨
      (σ.time ≤ t ∧ txn.redoBuffer.records = [] ∧ txn.undoBuffer = []))
    (hstage : ∀ t, e.stagedBy t = none) (hcom : e.commitOf = none) :
    Logged (h ++ [e]) σ' := by
  have hS : ∀ t, stagedOf (h ++ [e]) t = stagedOf h t :=
    fun t => stagedOf_snoc_of_none (hstage t)
  have hfresh : ∀ t, σ.time ≤ t → stagedOf h t = [] := by
    intro t hle
    by_contra hne
    exact absurd (hl.staged_lt hne) (not_lt.mpr hle)
  constructor <;> simp only [hS, hlogged, commitsOf_snoc_of_none h e hcom]
  · intro t txn ht
    rcases hact t txn ht with hold | ⟨hle, hrecs, -⟩
    · exact hl.active hold
    · rw [hrecs, hfresh t hle, append_nil, recordsOf, filter_eq_nil_iff]
      intro record hrec heq
      have hlt := hl.begun record hrec
      rw [of_decide_eq_true heq] at hlt
      omega
  · intro t txn ht
    rcases hact t txn ht with hold | ⟨hle, -, hundo⟩
    · exact hl.readOnly hold
    · simp [hundo, hfresh t hle]
  · intro t hne
    exact lt_of_lt_of_le (hl.staged_lt hne) htime
  · intro record hrec
    exact lt_of_lt_of_le (hl.begun record hrec) htime
  · intro record hrec hend
    by_contra hne
    obtain ⟨txn, htxn⟩ := ne_none_iff_exists'.mp hne
    rcases hact _ txn htxn with hold | ⟨hle, -⟩
    · simp [hl.closed record hrec hend] at hold
    · exact absurd (hl.begun record hrec) (not_lt.mpr hle)
  · intro t c b readOnly hin
    exact (hl.bound t c b readOnly hin).trans hcache
  · exact hl.wellFormed
  · exact hl.commits
  · exact hl.committed

variable {txn : TransactionContext V}

/-- What is still in the redo buffer of a running transaction. -/
theorem change_of_mem_records (hl : Logged h σ) (hact : σ.activeTxn t = some txn)
    (hrec : record ∈ txn.redoBuffer.records) : record.txnBegin = t ∧ record.isChange = true :=
  change_of_mem_stagedOf (h := h) (hl.active hact ▸ mem_append_right _ hrec)

theorem ne_of_logged (hl : Logged h σ) (hact : σ.activeTxn t = some txn) {u c : Nat}
    (hc : (u, c) ∈ loggedCommits σ.logged) : u ≠ t := by
  rintro rfl
  obtain ⟨record, hrec, hcom⟩ := mem_filterMap.mp hc
  obtain ⟨rfl, hend⟩ := txnBegin_of_commitOf hcom
  simp [hl.closed record hrec hend] at hact

section

variable (hcons : Consistent pending σ)
include hcons

theorem append_wellFormed (hl : Logged h σ) (hact : σ.activeTxn t = some txn)
    (hnew : ∀ r ∈ new, r.txnBegin = t) (hlast : new.Pairwise (fun e _ => e.isChange = true))
    (hbnd : ∀ u c oldest readOnly, .commit u c oldest readOnly ∈ new → ∃ b, oldest = .time b) :
    WellFormedLog (σ.logged ++ new) := by
  refine hl.wellFormed.append hnew hlast ?_ ?_ hbnd
  · rintro r hr hend rfl
    simp [hl.closed r hr hend] at hact
  · intro u c b readOnly hin
    obtain ⟨ht, hid⟩ := activeTxn_eq_some_iff.mp hact
    exact (hl.bound u c b readOnly hin).trans
      (hcons.cached_le_running t (hcons.running_of_active ht hid))

theorem stage (hw : Writers h σ) (hl : Logged h σ)
    (hlogging : cfg.logging = true) (hact : σ.activeTxn t = some txn)
    {slot : TupleSlot} {op : WriteOp V} {result : Bool} {a : Nat} {mustAbort : Bool}
    (htime : σ'.time = σ.time)
    (hcache : σ'.cachedOldestTxnStartTime = σ.cachedOldestTxnStartTime)
    (htxns : σ'.txns =
      Function.update σ.txns t (some (txn.afterWrite cfg (op.logRecord t slot) a mustAbort)))
    (hlog : σ'.log = σ.log)
    (hflush : σ'.flushQueue = σ.flushQueue ++ (txn.stage cfg (op.logRecord t slot)).2) :
    Logged (h ++ [.write t slot op result]) σ' := by
  obtain ⟨ht, hid⟩ := activeTxn_eq_some_iff.mp hact
  set record := op.logRecord t slot with hrec
  set after := txn.afterWrite cfg record a mustAbort with hafter
  set new := (txn.stage cfg record).2.flatten with hnew
  have hrecs : new ++ after.redoBuffer.records = txn.redoBuffer.records ++ [record] :=
    RedoBuffer.newEntry_records hlogging txn.redoBuffer record
  have hchg : ∀ r ∈ new, r.txnBegin = t ∧ r.isChange = true := by
    intro r hr
    exact forall_mem_append.mpr ⟨fun r hin => hl.change_of_mem_records hact hin,
      forall_mem_singleton.mpr (op.logRecord_change t slot)⟩ r (hrecs ▸ mem_append_left _ hr)
  have hbegin : ∀ r ∈ new, r.txnBegin = t := fun r hr => (hchg r hr).1
  have hall : ∀ r ∈ new, r.isChange = true := fun r hr => (hchg r hr).2
  have hlogged : σ'.logged = σ.logged ++ new := by
    rw [logged, hlog, hflush, flatten_append, filter_append, ← hnew,
      filter_isSerialized_of_changes hall, ← append_assoc, logged]
  have hS : ∀ u, stagedOf (h ++ [.write t slot op result]) u =
      if t = u then stagedOf h t ++ [record] else stagedOf h u := by
    intro u
    rw [stagedOf_snoc]
    by_cases hu : t = u
    · subst hu
      simp [Event.stagedBy, hrec]
    · simp [Event.stagedBy, hu]
  constructor <;> simp only [hlogged, htime, hcache, hS,
    commitsOf_snoc_of_none h (.write t slot op result) rfl]
  · intro u x hx
    obtain ⟨rfl, rfl⟩ | ⟨hut, hold⟩ := activeTxn_update htxns hx
    · rw [recordsOf_append_self hbegin, append_assoc, hrecs, ← append_assoc,
        hl.active hact, if_pos rfl]
    · rw [recordsOf_append_of_ne hbegin hut, hl.active hold, if_neg (Ne.symm hut)]
  · intro u x hx
    obtain ⟨rfl, rfl⟩ | ⟨hut, hold⟩ := activeTxn_update htxns hx
    · simp [hafter, TransactionContext.afterWrite]
    · rw [if_neg (Ne.symm hut)]
      exact hl.readOnly hold
  · intro u hne
    split_ifs at hne with hut
    · exact hut ▸ hcons.txn_lt ht
    · exact hl.staged_lt hne
  · intro r hr
    rcases mem_append.mp hr with hr | hr
    · exact hl.begun r hr
    · rw [hbegin r hr]
      exact hcons.txn_lt ht
  · intro r hr hend
    rcases mem_append.mp hr with hr | hr
    · by_contra hne
      obtain ⟨x, hx⟩ := ne_none_iff_exists'.mp hne
      have hnone := hl.closed r hr hend
      obtain ⟨heq, -⟩ | ⟨-, hold⟩ := activeTxn_update htxns hx
      · simp [← heq, hnone] at hact
      · simp [hnone] at hold
    · simp [hall r hr] at hend
  · intro u c b readOnly hin
    rcases mem_append.mp hin with hin | hin
    · exact hl.bound u c b readOnly hin
    · exact absurd (hall _ hin) (by simp [isChange])
  · refine hl.append_wellFormed hcons hact hbegin (pairwise_of_forall_mem_list ?_) ?_
    · exact fun r hr _ _ => hall r hr
    · intro u c oldest readOnly hin
      exact absurd (hall _ hin) (by simp [isChange])
  · rw [loggedCommits_append, loggedCommits_of_changes hall, append_nil, hl.commits]
    refine filter_congr ?_
    rintro ⟨u, c⟩ hc
    have hut : t ≠ u := by
      rintro rfl
      simp [hw.commit_done hc] at hact
    simp [hut]
  · intro u c hc
    rw [loggedCommits_append, loggedCommits_of_changes hall, append_nil] at hc
    have hut : u ≠ t := hl.ne_of_logged hact hc
    rw [changesOf_eq_filter, recordsOf_append_of_ne hbegin hut, ← changesOf_eq_filter,
      hl.committed hc, if_neg (Ne.symm hut)]

theorem ended (hl : Logged h σ) {done : TransactionContext V} {tuples : TupleSlot → Tuple V}
    (hact : σ.activeTxn t = some txn) (hended : Ended σ t txn done tuples σ')
    (hlogged : σ'.logged = σ.logged ++ new)
    (hbegin : ∀ r ∈ new, r.txnBegin = t)
    (hlast : new.Pairwise (fun e _ => e.isChange = true))
    (hbounds : ∀ u c oldest readOnly, .commit u c oldest readOnly ∈ new →
      oldest = .time σ.cachedOldestTxnStartTime)
    {e : Event V} (hstage : ∀ u, e.stagedBy u = none)
    (hcoms : loggedCommits new = e.commitOf.toList.filter (fun c => !(stagedOf h c.1).isEmpty))
    (hcomm : loggedCommits new ≠ [] → recordsOf σ.logged t ++ new.filter LogRecord.isChange =
      stagedOf h t) : Logged (h ++ [e]) σ' := by
  have hlt := hcons.txn_lt (activeTxn_eq_some_iff.mp hact).1
  have hS : ∀ u, stagedOf (h ++ [e]) u = stagedOf h u :=
    fun u => stagedOf_snoc_of_none (hstage u)
  constructor <;> simp only [hlogged, hended.time, hended.cached, hS, commitsOf_snoc]
  · intro u x hx
    obtain ⟨hut, hold⟩ := hended.activeTxn.mp hx
    rw [recordsOf_append_of_ne hbegin hut, hl.active hold]
  · intro u x hx
    exact hl.readOnly (hended.activeTxn.mp hx).2
  · intro u hne
    exact Nat.lt_succ_of_lt (hl.staged_lt hne)
  · intro r hr
    rcases mem_append.mp hr with hr | hr
    · exact Nat.lt_succ_of_lt (hl.begun r hr)
    · rw [hbegin r hr]
      exact Nat.lt_succ_of_lt hlt
  · intro r hr hend
    by_contra hne
    obtain ⟨x, hx⟩ := ne_none_iff_exists'.mp hne
    obtain ⟨hut, hold⟩ := hended.activeTxn.mp hx
    rcases mem_append.mp hr with hr | hr
    · simp [hl.closed r hr hend] at hold
    · exact hut (hbegin r hr)
  · intro u c b readOnly hin
    rcases mem_append.mp hin with hin | hin
    · exact hl.bound u c b readOnly hin
    · exact (Timestamp.time.inj (hbounds u c (.time b) readOnly hin)).le
  · refine hl.append_wellFormed hcons hact hbegin hlast ?_
    intro u c oldest readOnly hin
    exact ⟨_, hbounds u c oldest readOnly hin⟩
  · rw [loggedCommits_append, hl.commits, hcoms, filter_append]
  · intro u c hc
    rw [loggedCommits_append] at hc
    rcases mem_append.mp hc with hc | hc
    · have hut : u ≠ t := hl.ne_of_logged hact hc
      rw [changesOf_eq_filter, recordsOf_append_of_ne hbegin hut, ← changesOf_eq_filter,
        hl.committed hc]
    · obtain ⟨r, hr, hcom⟩ := mem_filterMap.mp hc
      obtain rfl : u = t :=
        (txnBegin_of_commitOf hcom).1.symm.trans (hbegin r hr)
      have hfilter : (recordsOf σ.logged u).filter isChange = recordsOf σ.logged u := by
        rw [filter_eq_self]
        intro r hr
        exact (change_of_mem_stagedOf (h := h) (hl.active hact ▸ mem_append_left _ hr)).2
      rw [changesOf_eq_filter, recordsOf_append_self hbegin, filter_append, hfilter,
        hcomm (ne_nil_of_mem hc)]

theorem commit (hl : Logged h σ) (hlogging : cfg.logging = true) (hact : σ.activeTxn t = some txn) :
    Logged (h ++ [.commit t σ.time]) (σ.commit cfg t txn) := by
  obtain ⟨done, -, -, hended⟩ := commit_ended cfg σ t txn
  have hlogged : (σ.commit cfg t txn).logged = σ.logged ++
      (txn.redoBuffer.records ++ [σ.commitRecord cfg t txn]).filter isSerialized := by
    rw [commit_of_logging hlogging]
    simp [logged, addBuffersToFlushQueue, RedoBuffer.close_records hlogging,
      finished, storeTimestamps_eq, setTxn, pushCompleted,
      checkOutTimestamp]
  have hstage := hl.active hact
  have hrecs : ∀ r ∈ txn.redoBuffer.records, r.isChange = true :=
    fun r hr => (hl.change_of_mem_records hact hr).2
  have hempty : txn.isReadOnly = true ↔ stagedOf h t = [] := by
    rw [← hl.readOnly hact, TransactionContext.isReadOnly, List.isEmpty_iff]
  cases hro : txn.isReadOnly with
  | true =>
    have hnone := hempty.mp hro
    rw [hnone, append_eq_nil_iff] at hstage
    rw [hstage.2] at hlogged
    have hskip : (σ.commitRecord cfg t txn).isSerialized = false := by
      simp [commitRecord, isSerialized, hro]
    have hsame : (σ.commit cfg t txn).logged = σ.logged ++ [] := by
      simpa [hskip] using hlogged
    refine hl.ended hcons hact hended hsame (by simp) .nil (by simp) (fun _ => rfl) ?_
      (by simp [loggedCommits])
    simp [loggedCommits, Event.commitOf, hnone]
  | false =>
    have hsome : stagedOf h t ≠ [] := fun hnone => by simp [hempty.mpr hnone] at hro
    have hcom : σ.commitRecord cfg t txn =
        .commit t σ.time (.time σ.cachedOldestTxnStartTime) false := by
      simp [commitRecord, hlogging, hro]
    have hser : (txn.redoBuffer.records ++ [σ.commitRecord cfg t txn]).filter
        isSerialized = txn.redoBuffer.records ++ [σ.commitRecord cfg t txn] := by
      rw [filter_append, filter_isSerialized_of_changes hrecs, hcom]
      rfl
    rw [hser, hcom] at hlogged
    refine hl.ended hcons hact hended hlogged ?_ ?_ ?_ (fun _ => rfl) ?_ ?_
    · exact forall_mem_append.mpr
        ⟨fun r hr => (hl.change_of_mem_records hact hr).1, forall_mem_singleton.mpr rfl⟩
    · refine pairwise_append.mpr ⟨?_, pairwise_singleton _ _, fun r hr _ _ => hrecs r hr⟩
      exact pairwise_of_forall_mem_list (fun r hr _ _ => hrecs r hr)
    · intro u c oldest readOnly hin
      rcases mem_append.mp hin with hin | hin
      · exact absurd (hrecs _ hin) (by simp [isChange])
      · obtain ⟨-, -, rfl, -⟩ := commit.inj (mem_singleton.mp hin)
        rfl
    · rw [loggedCommits_append, loggedCommits_of_changes hrecs]
      simp [loggedCommits, commitOf, Event.commitOf, hsome]
    · rw [filter_append, filter_eq_self.mpr hrecs, ← hstage]
      simp [isChange]

theorem abort (hl : Logged h σ) (hact : σ.activeTxn t = some txn) :
    Logged (h ++ [.abort t σ.time]) (σ.abort cfg t txn) := by
  obtain ⟨done, -, -, hended⟩ := abort_ended cfg σ t txn
  cases abort_handsOver cfg σ t txn with
  | flushed _ hlog hflush =>
    have hlogged : (σ.abort cfg t txn).logged = σ.logged ++ [.abort t] := by
      simp [logged, hlog, hflush, isSerialized]
    refine hl.ended hcons hact hended hlogged ?_ (pairwise_singleton _ _) ?_
      (fun _ => rfl) rfl (fun hne => absurd rfl hne)
    · intro r hr
      rw [mem_singleton.mp hr]
      rfl
    · intro u c oldest readOnly hin
      cases mem_singleton.mp hin
  | removed _ hlog hflush =>
    have hlogged : (σ.abort cfg t txn).logged = σ.logged ++ [] := by
      simp [logged, hlog, hflush]
    exact hl.ended hcons hact hended hlogged (by simp) .nil (by simp) (fun _ => rfl) rfl
      (fun hne => absurd rfl hne)

end

theorem performGarbageCollection (heng : Engine [] σ) (hl : Logged h σ) :
    Logged (h ++ [.performGarbageCollection]) σ.performGarbageCollection := by
  obtain ⟨hlogged, htime, hcache⟩ := heng.consistent.collectedRun.invariant
    (I := fun τ => τ.logged = σ.logged ∧ σ.time ≤ τ.time ∧
      σ.cachedOldestTxnStartTime ≤ τ.cachedOldestTxnStartTime) (by
        rintro pending τ τ' _ hstep ⟨hlogged, htime, hcache⟩
        cases hstep with
        | administer _ _ _ htime' hcache' _ _ hflush hlog =>
          refine ⟨?_, htime.trans htime', hcache.trans hcache'⟩
          rw [logged, hflush, hlog, ← hlogged, logged]
        | truncate slot => exact ⟨hlogged, htime, hcache⟩
        | reclaim =>
          rw [reclaimSlotIfDeleted_same]
          exact ⟨hlogged, htime, hcache⟩)
    ⟨rfl, le_rfl, le_rfl⟩
  obtain ⟨-, hact⟩ := heng.consistent.collectedRun.running_eq
  exact hl.quiet hlogged htime hcache
    (fun t txn ht => Or.inl ((hact t).symm.trans ht)) (fun _ => rfl) rfl

theorem step (hlogging : cfg.logging = true) (heng : Engine [] σ) (hw : Writers h σ)
    (hl : Logged h σ) {e : Event V} (hstep : Transition cfg σ e σ') : Logged (h ++ [e]) σ' := by
  have hcons := heng.consistent
  cases hstep with
  | begin =>
    refine hl.quiet rfl (Nat.le_succ _) le_rfl ?_ (fun _ => rfl) rfl
    intro t txn htxn
    obtain ⟨rfl, rfl⟩ | ⟨-, hold⟩ := activeTxn_update rfl htxn
    · exact .inr ⟨le_rfl, rfl, rfl⟩
    · exact .inl hold
  | write hact hwrite =>
    exact hl.stage hcons hw hlogging hact rfl rfl (txns_written ..) rfl rfl
  | refuse hact href =>
    rw [refused_eq]
    exact hl.stage hcons hw hlogging hact rfl rfl rfl rfl rfl
  | select => exact hl.quiet rfl le_rfl le_rfl (fun _ _ => Or.inl) (fun _ => rfl) rfl
  | commit hact hmust => exact hl.commit hcons hlogging hact
  | abort hact => exact hl.abort hcons hact
  | performGarbageCollection => exact hl.performGarbageCollection heng
  | process =>
    refine hl.quiet ?_ le_rfl le_rfl (fun _ _ => Or.inl) (fun _ => rfl) rfl
    simp [logged, process, removeTransactions]

end Logged

theorem Run.logged {junk : TupleSlot → ColId → Option V} (hrun : Run cfg junk h σ)
    (hlogging : cfg.logging = true) : Logged h σ := by
  refine (Run.invariant (I := fun h σ => Engine [] σ ∧ Writers h σ ∧ Logged h σ)
    ⟨Engine.init junk, Writers.init junk, Logged.init junk⟩ ?_ hrun).2.2
  rintro h σ e σ' ⟨heng, hw, hl⟩ hstep
  exact ⟨heng.step hstep, hw.step heng hstep, hl.step hlogging heng hw hstep⟩

/-- What has been processed of the log is complete for every transaction whose
commit record is in it. -/
theorem Logged.changesOf_log (hl : Logged h σ) {c : Nat} (hc : (t, c) ∈ loggedCommits σ.log) :
    changesOf σ.log t = stagedOf h t := by
  have hmem : (t, c) ∈ loggedCommits σ.logged := by
    rw [logged, loggedCommits_append]
    exact mem_append_left _ hc
  rw [← hl.committed hmem, logged, changesOf, changesOf, filter_append, eq_comm]
  have hnil : (σ.flushQueue.flatten.filter isSerialized).filter
      (fun record => record.isChange && decide (record.txnBegin = t)) = [] := by
    rw [filter_eq_nil_iff]
    intro r hr hchg
    simp only [Bool.and_eq_true, decide_eq_true_eq] at hchg
    exact WellFormedLog.ne_of_committed (p := σ.log) hl.wellFormed
      (List.mem_map.mpr ⟨(t, c), hc, rfl⟩) hr hchg.2
  rw [hnil, append_nil]

theorem WellFormedLog.of_append {log : List (LogRecord V)} (hwf : WellFormedLog (log ++ new)) :
    WellFormedLog log :=
  ⟨fun t c oldest readOnly hin => hwf.bounded t c oldest readOnly (mem_append_left _ hin),
    (pairwise_append.mp hwf.after_bound).1, (pairwise_append.mp hwf.last).1⟩

end Terrier
