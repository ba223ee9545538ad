import Terrier.Recovery.RecoveryManager
import Terrier.Lib.SortedPrefix

/-!
The order of replay. If every commit record bounds the transactions of all later records from
below, then every committed transaction with an earlier start has been replayed when a transaction
leaves the deferred set.
-/

namespace Terrier

open List Option Function LogRecord

variable {V : Type} {cfg : Config}

def LogRecord.isChange : LogRecord V → Bool
  | .redo _ _ _ => true
  | .delete _ _ => true
  | .commit _ _ _ _ => false
  | .abort _ => false

def LogRecord.commitOf : LogRecord V → Option (Nat × Nat)
  | .commit t commitTime _ _ => some (t, commitTime)
  | .redo _ _ _ => none
  | .delete _ _ => none
  | .abort _ => none

def changesOf (log : List (LogRecord V)) (t : Nat) : List (LogRecord V) :=
  log.filter (fun record => record.isChange && decide (record.txnBegin = t))

def loggedCommits (log : List (LogRecord V)) : List (Nat × Nat) :=
  log.filterMap LogRecord.commitOf

variable {record : LogRecord V} {t : Nat} {ts : List Nat} {p log : List (LogRecord V)}

theorem LogRecord.txnBegin_of_commitOf {c : Nat} (h : record.commitOf = some (t, c)) :
    record.txnBegin = t ∧ record.isChange = false := by
  cases record with
  | commit u d oldest readOnly =>
    cases h
    exact ⟨rfl, rfl⟩
  | redo => cases h
  | delete => cases h
  | abort => cases h

/-- What recovery relies on. A commit or abort record is the last one of its
transaction, and a commit record carries a start time that no later record
goes below. -/
structure WellFormedLog (log : List (LogRecord V)) : Prop where
  bounded : ∀ t c oldest readOnly, .commit t c oldest readOnly ∈ log → ∃ b, oldest = .time b
  after_bound : log.Pairwise (fun e f => ∀ t c b readOnly,
    e = .commit t c (.time b) readOnly → b ≤ f.txnBegin)
  last : log.Pairwise (fun e f => e.isChange = false → f.txnBegin ≠ e.txnBegin)

section Lists

variable (p : List (LogRecord V)) (record : LogRecord V)

theorem changesOf_snoc (t : Nat) : changesOf (p ++ [record]) t = changesOf p t ++
    if record.isChange = true ∧ record.txnBegin = t then [record] else [] := by
  simp only [changesOf, filter_append]
  split_ifs with hchg
  · simp [hchg]
  · rw [filter_cons_of_neg (by simpa using hchg), filter_nil]

theorem loggedCommits_snoc :
    loggedCommits (p ++ [record]) = loggedCommits p ++ record.commitOf.toList := by
  simp only [loggedCommits, filterMap_append]
  cases hc : record.commitOf <;> simp [hc]

end Lists

theorem mem_setInsert {u : Nat} : u ∈ setInsert t ts ↔ u = t ∨ u ∈ ts := by
  unfold setInsert
  split_ifs with hin
  · exact ⟨.inr, fun h => h.elim (fun heq => heq ▸ hin) id⟩
  · exact mem_orderedInsert _

theorem setInsert_sorted (t : Nat) (hsort : ts.Pairwise (· < ·)) :
    (setInsert t ts).Pairwise (· < ·) := by
  unfold setInsert
  split_ifs with hin
  · exact hsort
  · have hle : (ts.orderedInsert (· ≤ ·) t).Pairwise (· ≤ ·) :=
      List.Pairwise.orderedInsert t ts (hsort.imp le_of_lt)
    have hnodup : (ts.orderedInsert (· ≤ ·) t).Nodup :=
      (perm_orderedInsert _ t ts).nodup_iff.mpr (nodup_cons.mpr ⟨hin, hsort.imp ne_of_lt⟩)
    exact hle.imp₂ (fun a b hle hne => lt_of_le_of_ne hle hne) hnodup

namespace RecoveryManager

/-- Replaying a list of transactions that are deferred with all their changes
is replaying the changes in that order. -/
theorem foldlM_processCommittedTransaction {changes : Nat → List (LogRecord V)} {ts : List Nat}
    {m : RecoveryManager V} {d : Recovered V} (hnodup : ts.Nodup)
    (hbuf : ∀ t ∈ ts, m.bufferedChangesMap t = changes t)
    (hreplay : (ts.map changes).foldlM (Recovered.replayTransaction cfg) m.recovered = some d) :
    ts.foldlM (processCommittedTransaction cfg) m = some
      { m with
        bufferedChangesMap := fun t => if t ∈ ts then [] else m.bufferedChangesMap t
        recovered := d
        replayed := m.replayed ++ ts.map (fun t => (t, changes t)) } := by
  induction ts generalizing m with
  | nil =>
    obtain rfl : m.recovered = d := by simpa using hreplay
    simp
  | cons t ts ih =>
    obtain ⟨hnot, hnodup⟩ := nodup_cons.mp hnodup
    rw [map_cons, foldlM_cons] at hreplay
    obtain ⟨d', hfirst, hrest⟩ := bind_eq_some_iff.mp hreplay
    rw [foldlM_cons]
    have hprocess : processCommittedTransaction cfg m t = some
        { m with
          bufferedChangesMap := update m.bufferedChangesMap t []
          recovered := d'
          replayed := m.replayed ++ [(t, changes t)] } := by
      simp only [processCommittedTransaction, hbuf t mem_cons_self, hfirst]
    rw [hprocess, bind_eq_bind, bind_some, ih hnodup ?_ hrest]
    · simp only [Option.some.injEq, mk.injEq, map_cons, append_assoc,
        cons_append, nil_append, and_true]
      funext u
      by_cases hu : u = t
      · simp [hu, hnot]
      · simp [hu]
    · intro u hu
      have hne : u ≠ t := fun heq => hnot (heq ▸ hu)
      simp only [update_of_ne hne]
      exact hbuf u (mem_cons_of_mem t hu)

end RecoveryManager

/-- The state of recovery when `scanned` of the whole `log` has been read. `order` lists the
committed transactions by start time: the first ones have been replayed, the others that were seen
are deferred, and what was read of a transaction is buffered. -/
structure Scanned (cfg : Config) (start : Recovered V) (log : List (LogRecord V))
    (order : List Nat) (scanned : List (LogRecord V)) (m : RecoveryManager V) : Prop where
  replayed : ∃ first, first <+: order ∧ m.replayed = first.map (fun t => (t, changesOf log t))
  recovered : (m.replayed.map Prod.snd).foldlM (Recovered.replayTransaction cfg) start =
    some m.recovered
  seen : ∀ x ∈ m.replayed, x.1 ∈ (loggedCommits scanned).map Prod.fst
  sorted : m.deferredTxns.Pairwise (· < ·)
  deferred : ∀ t, t ∈ m.deferredTxns ↔
    t ∈ (loggedCommits scanned).map Prod.fst ∧ t ∉ m.replayed.map Prod.fst
  buffered : ∀ t, t ∉ m.replayed.map Prod.fst → .abort t ∉ scanned →
    m.bufferedChangesMap t = changesOf scanned t

theorem mem_loggedCommits_fst : t ∈ (loggedCommits p).map Prod.fst ↔
      ∃ c oldest readOnly, LogRecord.commit t c oldest readOnly ∈ p := by
  simp only [loggedCommits, List.mem_map, mem_filterMap]
  constructor
  · rintro ⟨⟨u, c⟩, ⟨record, hrec, hcom⟩, rfl⟩
    cases record with
    | commit v d oldest readOnly =>
      cases hcom
      exact ⟨_, oldest, readOnly, hrec⟩
    | redo | delete | abort => cases hcom
  · rintro ⟨c, oldest, readOnly, hrec⟩
    exact ⟨(t, c), ⟨_, hrec, rfl⟩, rfl⟩

theorem WellFormedLog.ne_of_committed {q : List (LogRecord V)} (hwf : WellFormedLog (p ++ q))
    (ht : t ∈ (loggedCommits p).map Prod.fst) (hrec : record ∈ q) : record.txnBegin ≠ t := by
  obtain ⟨c, oldest, readOnly, hcom⟩ := mem_loggedCommits_fst.mp ht
  exact (pairwise_append.mp hwf.last).2.2 _ hcom record hrec rfl

theorem WellFormedLog.not_aborted (hwf : WellFormedLog log)
    (ht : t ∈ (loggedCommits log).map Prod.fst) : .abort t ∉ log := by
  intro habort
  obtain ⟨c, oldest, readOnly, hcom⟩ := mem_loggedCommits_fst.mp ht
  have hsymm : Std.Symm (fun e f : LogRecord V => e.isChange = false → f.isChange = false →
      f.txnBegin ≠ e.txnBegin) := ⟨fun e f hne hf he => (hne he hf).symm⟩
  have hlast : log.Pairwise (fun e f => e.isChange = false → f.isChange = false →
      f.txnBegin ≠ e.txnBegin) := hwf.last.imp (fun hne he _ => hne he)
  exact hlast.forall habort hcom (by simp) rfl rfl rfl

namespace Scanned

variable {start : Recovered V} {log p q : List (LogRecord V)} {order : List Nat}
  {m : RecoveryManager V}

section

variable (hs : Scanned cfg start log order p m)
include hs

theorem not_replayed (hwf : WellFormedLog (p ++ q)) (hrec : record ∈ q) :
    record.txnBegin ∉ m.replayed.map Prod.fst := by
  intro hin
  obtain ⟨x, hx, heq⟩ := List.mem_map.mp hin
  exact hwf.ne_of_committed (hs.seen x hx) hrec heq.symm

theorem change (hwf : WellFormedLog (p ++ record :: q)) (hchg : record.isChange = true) :
    Scanned cfg start log order (p ++ [record]) (m.bufferChange record.txnBegin record) := by
  have hcoms : loggedCommits (p ++ [record]) = loggedCommits p := by
    rw [loggedCommits_snoc]
    cases record <;> simp [commitOf, isChange] at hchg ⊢
  refine ⟨hs.replayed, hs.recovered, ?_, hs.sorted, ?_, ?_⟩
  · rw [hcoms]
    exact hs.seen
  · rw [hcoms]
    exact hs.deferred
  · intro t hnot habort
    have hbuf := hs.buffered t hnot (fun hin => habort (mem_append_left _ hin))
    rw [changesOf_snoc, RecoveryManager.bufferChange]
    by_cases ht : record.txnBegin = t
    · subst ht
      simp [hbuf, hchg]
    · simp [update_of_ne (Ne.symm ht), hbuf, ht]

theorem abort (t : Nat) : Scanned cfg start log order (p ++ [.abort t])
      { m with bufferedChangesMap := Function.update m.bufferedChangesMap t [] } := by
  have hcoms : loggedCommits (p ++ [LogRecord.abort t]) = loggedCommits p := by
    simp [loggedCommits_snoc, LogRecord.commitOf]
  refine ⟨hs.replayed, hs.recovered, ?_, hs.sorted, ?_, ?_⟩
  · rw [hcoms]
    exact hs.seen
  · rw [hcoms]
    exact hs.deferred
  · intro u hnot habort
    have hne : u ≠ t := by
      rintro rfl
      exact habort (mem_append_right _ mem_cons_self)
    rw [changesOf_snoc, ← hs.buffered u hnot (fun hin => habort (mem_append_left _ hin))]
    simp [LogRecord.isChange, hne]

/-- Every committed transaction is deferred first. -/
theorem defer {t c : Nat} {oldest : Timestamp} {readOnly : Bool}
    (hwf : WellFormedLog (p ++ .commit t c oldest readOnly :: q)) :
    Scanned cfg start log order (p ++ [.commit t c oldest readOnly])
      { m with deferredTxns := setInsert t m.deferredTxns } := by
  have hcoms : loggedCommits (p ++ [commit t c oldest readOnly]) = loggedCommits p ++ [(t, c)] := by
    simp [loggedCommits_snoc, commitOf]
  have hnot : t ∉ m.replayed.map Prod.fst := hs.not_replayed hwf mem_cons_self
  refine ⟨hs.replayed, hs.recovered, ?_, setInsert_sorted t hs.sorted, ?_, ?_⟩
  · intro x hx
    rw [hcoms, map_append]
    exact mem_append_left _ (hs.seen x hx)
  · intro u
    rw [mem_setInsert, hs.deferred, hcoms, map_append, mem_append]
    constructor
    · rintro (rfl | ⟨hu, hnot'⟩)
      · exact ⟨.inr (by simp), hnot⟩
      · exact ⟨.inl hu, hnot'⟩
    · rintro ⟨hu | hu, hnot'⟩
      · exact .inr ⟨hu, hnot'⟩
      · exact .inl (by simpa using hu)
  · intro u hu habort
    rw [changesOf_snoc, hs.buffered u hu (fun hin => habort (mem_append_left _ hin))]
    simp [isChange]

/-- The ready transactions are the next ones in the order, provided that the
rest of the log commits no transaction with an earlier start. -/
theorem ready_prefix (hlog : log = p ++ q) (hsort : order.Pairwise (· < ·))
    (hmem : ∀ t, t ∈ order ↔ t ∈ (loggedCommits log).map Prod.fst) {bound : Timestamp}
    (hfuture : ∀ t ∈ m.deferredTxns, RecoveryManager.isReady bound t = true →
      ∀ u ∈ (loggedCommits q).map Prod.fst, t < u) {first rest : List Nat}
    (horder : order = first ++ rest) (hfirst : m.replayed.map Prod.fst = first) :
    m.deferredTxns.takeWhile (RecoveryManager.isReady bound) <+: rest := by
  have hcoms : ∀ t, t ∈ (loggedCommits log).map Prod.fst ↔
      t ∈ (loggedCommits p).map Prod.fst ∨ t ∈ (loggedCommits q).map Prod.fst := by
    simp [hlog, loggedCommits]
  have hsplit := pairwise_append.mp (horder ▸ hsort)
  refine SortedPrefix.isPrefix_of_lower (hs.sorted.sublist (takeWhile_sublist _)) hsplit.2.1 ?_ ?_
  · intro t ht
    obtain ⟨hcomm, hnot⟩ := (hs.deferred t).mp ((takeWhile_sublist _).subset ht)
    have hin := (hmem t).mpr ((hcoms t).mpr (.inl hcomm))
    rw [horder, mem_append] at hin
    exact hin.resolve_left (hfirst ▸ hnot)
  · intro u hu hnot t ht
    have hnew : u ∉ m.replayed.map Prod.fst := by
      rw [hfirst]
      exact fun hin => lt_irrefl u (hsplit.2.2 u hin u hu)
    have hready := mem_takeWhile_imp ht
    have htd := (takeWhile_sublist _).subset ht
    have hin : u ∈ order := horder ▸ mem_append_right _ hu
    rcases (hcoms u).mp ((hmem u).mp hin) with hold | hlate
    · have hud := (hs.deferred u).mpr ⟨hold, hnew⟩
      have hboth := takeWhile_append_dropWhile (p := RecoveryManager.isReady bound)
        (l := m.deferredTxns)
      have hpairs := hs.sorted
      rw [← hboth] at hud hpairs
      exact (pairwise_append.mp hpairs).2.2 t ht u ((mem_append.mp hud).resolve_left hnot)
    · exact hfuture t htd hready u hlate

theorem processDeferred (hwf : WellFormedLog log)
    (hlog : log = p ++ q) (hsort : order.Pairwise (· < ·))
    (hmem : ∀ t, t ∈ order ↔ t ∈ (loggedCommits log).map Prod.fst)
    (hreplay : ∃ d, (order.map (changesOf log)).foldlM (Recovered.replayTransaction cfg) start =
      some d) (bound : Timestamp)
    (hfuture : ∀ t ∈ m.deferredTxns, RecoveryManager.isReady bound t = true →
      ∀ u ∈ (loggedCommits q).map Prod.fst, t < u) :
    ∃ m', m.processDeferredTransactions cfg bound = some m' ∧ Scanned cfg start log order p m' ∧
      m'.deferredTxns = m.deferredTxns.dropWhile (RecoveryManager.isReady bound) := by
  obtain ⟨first, ⟨rest, horder⟩, hrepl⟩ := hs.replayed
  have hfirst : m.replayed.map Prod.fst = first := by simp [hrepl, comp_def]
  have hsnd : m.replayed.map Prod.snd = first.map (changesOf log) := by
    simp [hrepl, comp_def]
  set ready := m.deferredTxns.takeWhile (RecoveryManager.isReady bound) with hready
  obtain ⟨later, hlater⟩ := hs.ready_prefix hlog hsort hmem hfuture horder.symm hfirst
  have hmemReady : ∀ t ∈ ready, t ∈ m.deferredTxns :=
    fun t ht => (takeWhile_sublist _).subset ht
  -- the changes of a transaction are complete when its commit record is read
  have hchanges : ∀ t ∈ ready, m.bufferedChangesMap t = changesOf log t := by
    intro t ht
    obtain ⟨hcomm, hnot⟩ := (hs.deferred t).mp (hmemReady t ht)
    subst hlog
    rw [hs.buffered t hnot]
    · have hnil : changesOf q t = [] := by
        rw [changesOf, filter_eq_nil_iff]
        intro record hrec hchg
        simp only [Bool.and_eq_true, decide_eq_true_eq] at hchg
        exact hwf.ne_of_committed hcomm hrec hchg.2
      simp only [changesOf, filter_append] at hnil ⊢
      rw [hnil, append_nil]
    · intro habort
      refine hwf.not_aborted ?_ (mem_append_left q habort)
      rw [loggedCommits, filterMap_append, map_append]
      exact mem_append_left _ hcomm
  obtain ⟨d, hd⟩ := hreplay
  rw [← horder, ← hlater, map_append, map_append, foldlM_append] at hd
  obtain ⟨d₁, hd₁, hd⟩ := bind_eq_some_iff.mp hd
  obtain rfl : m.recovered = d₁ := Option.some.inj ((hsnd ▸ hs.recovered).symm.trans hd₁)
  rw [foldlM_append] at hd
  obtain ⟨d₂, hd₂, -⟩ := bind_eq_some_iff.mp hd
  have hnodup : ready.Nodup := (hs.sorted.sublist (takeWhile_sublist _)).imp ne_of_lt
  refine ⟨_, by
    rw [RecoveryManager.processDeferredTransactions, ← hready,
      RecoveryManager.foldlM_processCommittedTransaction hnodup hchanges hd₂], ?_, rfl⟩
  refine ⟨⟨first ++ ready, ?_, by simp [hrepl]⟩, ?_, ?_, ?_, ?_, ?_⟩
  · rw [← horder, ← hlater, ← append_assoc]
    exact prefix_append _ _
  · simp only [map_append, foldlM_append, hs.recovered]
    simpa [comp_def] using hd₂
  · refine forall_mem_append.mpr ⟨hs.seen, forall_mem_map.mpr fun t ht => ?_⟩
    exact ((hs.deferred t).mp (hmemReady t ht)).1
  · exact hs.sorted.sublist (dropWhile_sublist _)
  · intro t
    have hboth := takeWhile_append_dropWhile (p := RecoveryManager.isReady bound)
      (l := m.deferredTxns)
    have hpairs := hs.sorted
    rw [← hboth] at hpairs
    have hdisj : ∀ u ∈ ready, u ∉ m.deferredTxns.dropWhile (RecoveryManager.isReady bound) := by
      intro u hu hdrop
      exact lt_irrefl u ((pairwise_append.mp hpairs).2.2 u hu u hdrop)
    have hcases : t ∈ m.deferredTxns ↔
        t ∈ ready ∨ t ∈ m.deferredTxns.dropWhile (RecoveryManager.isReady bound) := by
      rw [← mem_append, hready, hboth]
    have hold := hs.deferred t
    have hnew := hdisj t
    simp only [map_append, List.map_map, comp_def, List.map_id', mem_append]
    tauto
  · intro t hnot habort
    simp only [map_append, List.map_map, comp_def, List.map_id', mem_append, not_or] at hnot
    simp only [if_neg hnot.2]
    exact hs.buffered t hnot.1 habort

theorem recoverRecord (hwf : WellFormedLog log) (hlog : log = p ++ record :: q)
    (hsort : order.Pairwise (· < ·))
    (hmem : ∀ t, t ∈ order ↔ t ∈ (loggedCommits log).map Prod.fst)
    (hreplay : ∃ d, (order.map (changesOf log)).foldlM (Recovered.replayTransaction cfg) start =
      some d) :
    ∃ m', m.recoverRecord cfg record = some m' ∧
      Scanned cfg start log order (p ++ [record]) m' := by
  have hwf' : WellFormedLog (p ++ record :: q) := hlog ▸ hwf
  cases record with
  | redo t slot delta | delete t slot => exact ⟨_, rfl, hs.change hwf' rfl⟩
  | abort t => exact ⟨_, rfl, hs.abort t⟩
  | commit t c oldest readOnly =>
    have hlog' : log = (p ++ [.commit t c oldest readOnly]) ++ q := by simp [hlog]
    have hdeferred := hs.defer hwf'
    obtain ⟨b, rfl⟩ := hwf.bounded t c oldest readOnly (by simp [hlog])
    obtain ⟨m', hm', hs', -⟩ : ∃ m', _ ∧ Scanned cfg start log order _ m' ∧ _ := by
      refine hdeferred.processDeferred hwf hlog' hsort hmem hreplay (.time b) ?_
      -- a later commit has at least the start time `b`, and is not deferred yet
      intro u hu hready v hv
      have hub : u ≤ b := by simpa [RecoveryManager.isReady] using hready
      obtain ⟨d, oldest, readOnly', hcom⟩ := mem_loggedCommits_fst.mp hv
      have hbound := (pairwise_append.mp hwf'.after_bound).2.1
      have hbv : b ≤ v := (pairwise_cons.mp hbound).1 _ hcom t c b readOnly rfl
      have hne : v ≠ u := WellFormedLog.ne_of_committed (hlog' ▸ hwf)
        ((hdeferred.deferred u).mp hu).1 hcom
      omega
    exact ⟨m', hm', hs'⟩

end

end Scanned

/-- Recovery from a well-formed log replays the committed transactions in the
order of their start times, each with all its changes, provided that the
replay of that sequence succeeds. -/
theorem RecoveryManager.recoverFromLogs_spec {order : List Nat}
    {junk : TupleSlot → ColId → Option V} {d : Recovered V} (hwf : WellFormedLog log)
    (hsort : order.Pairwise (· < ·))
    (hmem : ∀ t, t ∈ order ↔ t ∈ (loggedCommits log).map Prod.fst)
    (hreplay : (order.map (changesOf log)).foldlM (Recovered.replayTransaction cfg)
      (Recovered.init junk) = some d) :
    ∃ m, (RecoveryManager.init junk).recoverFromLogs cfg log = some m ∧ m.recovered = d ∧
      m.replayed = order.map (fun t => (t, changesOf log t)) := by
  have hscan : ∀ p q, log = p ++ q → ∃ m,
      p.foldlM (recoverRecord cfg) (RecoveryManager.init junk) = some m ∧
        Scanned cfg (Recovered.init junk) log order p m := by
    intro p
    induction p using List.reverseRecOn with
    | nil =>
      intro q _
      refine ⟨_, rfl, ⟨[], nil_prefix, rfl⟩, rfl, ?_, .nil, ?_, fun _ _ _ => rfl⟩
      · intro x hx
        cases hx
      · simp [RecoveryManager.init, loggedCommits]
    | append_singleton p record ih =>
      intro q hlog
      rw [append_assoc, singleton_append] at hlog
      obtain ⟨m, hm, hs⟩ := ih _ hlog
      obtain ⟨m', hm', hs'⟩ := hs.recoverRecord hwf hlog hsort hmem ⟨d, hreplay⟩
      refine ⟨m', ?_, hs'⟩
      rw [foldlM_append, hm, bind_eq_bind, bind_some, foldlM_cons, hm']
      rfl
  obtain ⟨m, hm, hs⟩ := hscan log [] (by simp)
  obtain ⟨m', hm', hs', hrest⟩ := hs.processDeferred (q := []) hwf (by simp) hsort hmem
    ⟨d, hreplay⟩ invalidTxnTimestamp (by simp [loggedCommits])
  have hnone : m'.deferredTxns = [] := by
    rw [hrest, dropWhile_eq_nil_iff]
    simp [isReady, invalidTxnTimestamp]
  obtain ⟨first, hprefix, hrepl⟩ := hs'.replayed
  have hfirst : m'.replayed.map Prod.fst = first := by simp [hrepl, comp_def]
  -- nothing is deferred any more, so the replayed transactions are all there are
  have hall : first = order := by
    obtain ⟨rest, rfl⟩ := hprefix
    suffices rest = [] by simp [this]
    refine eq_nil_iff_forall_not_mem.mpr ?_
    intro t ht
    have hnot : t ∉ first := fun hin =>
      lt_irrefl t ((pairwise_append.mp hsort).2.2 t hin t ht)
    have hdeferred := (hs'.deferred t).mpr ⟨(hmem t).mp (mem_append_right _ ht), hfirst ▸ hnot⟩
    simp [hnone] at hdeferred
  subst hall
  have hrecovered : m'.recovered = d := by
    have hsame := hs'.recovered
    rw [hrepl, List.map_map] at hsame
    exact Option.some.inj (hsame.symm.trans hreplay)
  refine ⟨{ m' with bufferedChangesMap := fun _ => [] }, ?_, hrecovered, hrepl⟩
  rw [recoverFromLogs, hm]
  simp only [hm', map_some]

end Terrier
