import Terrier.Proof.StartOrder
import Terrier.Proof.SerialReplay

/-!
Recovery reproduces the committed state. Committed transactions are replayed by start time; in
that order their writes are legal, so the fresh engine accepts them; and the writers of a slot
do not overlap, so the outcome is that of the commit order.
-/

namespace Terrier

open List

variable {V : Type} {cfg cfg' : Config} {σ : State V} {h : List (Event V)} {D E : Database V}
  {d : Recovered V}

theorem LegalWrites.of_numColumns (hcols : cfg'.numColumns = cfg.numColumns)
    {ws : List (SlotWrite V)} (hlegal : LegalWrites cfg D ws) : LegalWrites cfg' D ws := by
  induction ws generalizing D with
  | nil => trivial
  | cons w ws ih =>
    refine ⟨?_, ih hlegal.2⟩
    have hw := hlegal.1
    obtain ⟨slot, op⟩ := w
    cases op <;>
      simpa only [WriteOp.Legal, Config.InsertColumns, Config.ValidColumns, hcols] using hw

theorem Idle.represents (hidle : Idle cfg E d) (slot : TupleSlot) :
    Represents cfg slot.table (d.engine.tuples slot).view (E slot) := by
  obtain ⟨⟨hcons, -, -, -⟩, hw, -, hv⟩ := hidle.refines
  have hread : d.engine.readAt d.engine.time slot = (d.engine.tuples slot).view := by
    refine State.readAt_of_forall (fun a ha => ?_)
    rcases hcons.chain_timestamp ha with ⟨t, txn, ht, -⟩ | ⟨c, hc, hlt⟩
    · simp [hidle.idle t] at ht
    · simpa [State.tooNew, hc] using hlt.le
  have hall : (commitsOf d.history).filter (fun c => decide (c.2 < d.engine.time + 1)) =
      commitsOf d.history := by
    rw [filter_eq_self]
    rintro ⟨t, c⟩ hc
    exact decide_eq_true (Nat.lt_succ_of_lt (hw.commit_lt hc).2)
  have hrep := hv.committed slot hcons.cached_le_time
  rw [hread, committedBefore, hall] at hrep
  rw [← hidle.content]
  exact hrep

/-- A set of commits that can be replayed: all are in the history, and with a
commit also the earlier ones that wrote one of its slots. -/
structure Replayable (h : List (Event V)) (commits : List (Nat × Nat)) : Prop where
  mem : ∀ x ∈ commits, x ∈ commitsOf h
  distinct : commits.Pairwise (fun x y => x.1 ≠ y.1)
  closed : ∀ slot, ClosedOn h slot commits

theorem Replayable.replay {junk : TupleSlot → ColId → Option V} {commits : List (Nat × Nat)}
    (hcoms : Replayable h commits) (hrun : Run cfg junk h σ)
    (hcontr : MustAbortContract h) (hlogging : cfg.logging = true)
    (hcols : cfg'.numColumns = cfg.numColumns) (junk' : TupleSlot → ColId → Option V) :
    ∃ d E, ((byStart commits).map (fun x => stagedOf h x.1)).foldlM
        (Recovered.replayTransaction cfg') (Recovered.init junk') = some d ∧
      Idle cfg' E d ∧ Renames d.tupleSlotMap (fun slot => effectOf h slot (byStart commits)) E := by
  have hw := (hrun.refines hcontr).writers
  have hacc := hrun.accepted hlogging
  have hsort := byStart_sorted hcoms.distinct
  -- on the prefixes of the order, one transaction more at a time
  suffices hscan : ∀ first rest, byStart commits = first ++ rest → ∃ d E,
      (first.map (fun x => stagedOf h x.1)).foldlM (Recovered.replayTransaction cfg')
        (Recovered.init junk') = some d ∧
      Idle cfg' E d ∧ Renames d.tupleSlotMap (fun slot => effectOf h slot first) E from
    hscan (byStart commits) [] (by simp)
  intro first
  induction first using List.reverseRecOn with
  | nil =>
    intro rest _
    exact ⟨_, _, rfl, Idle.init junk', Renames.empty⟩
  | append_singleton first x ih =>
    intro rest horder
    obtain ⟨t, c⟩ := x
    rw [append_assoc, singleton_append] at horder
    obtain ⟨d, E, hd, hidle, hren⟩ := ih _ horder
    have hlegal : LegalWrites cfg' (fun slot => effectOf h slot first) (allWritesOf h t) := by
      refine ((hrun.legal hcontr t).of_numColumns hcols).congr (fun w hmem => ?_)
      exact (hw.effectOf_earlier hcoms.mem (hcoms.closed w.1) horder hsort
        (writesOf_ne_nil_of_mem hmem)).symm
    have htc : (t, c) ∈ commits := by
      rw [← mem_byStart, horder]
      exact mem_append_right _ mem_cons_self
    obtain ⟨d', E', hd', hidle', hren'⟩ := hidle.replayTransaction hren t hlegal
    refine ⟨d', E', ?_, hidle', ?_⟩
    · rw [map_append, foldlM_append, hd, map_cons, map_nil, hacc.committed (hcoms.mem _ htc)]
      simp [hd']
    · have hsame : (fun slot => effectOf h slot (first ++ [(t, c)])) =
          Database.writeAll (fun slot => effectOf h slot first) (allWritesOf h t) := by
        funext slot
        rw [Database.writeAll_apply, ← writesOf_eq_allWritesOf]
        simp [effectOf]
      rw [hsame]
      exact hren'

theorem Logged.replayable (hl : Logged h σ) (hw : Writers h σ) :
    Replayable h (loggedCommits σ.log) := by
  obtain ⟨rest, hrest⟩ : loggedCommits σ.log <+:
      (commitsOf h).filter (fun c => !(stagedOf h c.1).isEmpty) := by
    rw [← hl.commits, State.logged, loggedCommits_append]
    exact prefix_append _ _
  have hsort := hw.commits_sorted.filter (fun c => !(stagedOf h c.1).isEmpty)
  rw [← hrest] at hsort
  obtain ⟨hfirst, -, hbef⟩ := pairwise_append.mp hsort
  refine ⟨fun x hx => ?_, hfirst.imp (fun hxy => hxy.2), ?_⟩
  · have hin := mem_append_left rest hx
    rw [hrest] at hin
    exact mem_of_mem_filter hin
  · intro slot x hx hwr y hy hlt
    have hin : x ∈ loggedCommits σ.log ++ rest := by
      rw [hrest, mem_filter]
      exact ⟨hx, by simpa using stagedOf_ne_nil hwr⟩
    refine (mem_append.mp hin).resolve_right (fun hlate => ?_)
    exact absurd hlt (hbef y hy x hlate).1.asymm

/-- For the content of a slot, the start order of the log is as good as its
commit order. -/
theorem Logged.effectOf_byStart (hl : Logged h σ) (hw : Writers h σ) (slot : TupleSlot) :
    effectOf h slot (byStart (loggedCommits σ.log)) = effectOf h slot (loggedCommits σ.log) := by
  have hcoms := hl.replayable hw
  have hlogged : (loggedCommits σ.logged).Pairwise (fun x y => x.2 < y.2) := by
    rw [hl.commits]
    exact (hw.commits_sorted.filter _).imp (fun hxy => hxy.1)
  rw [State.logged, loggedCommits_append] at hlogged
  exact hw.effectOf_eq (byStart_sorted hcoms.distinct) hcoms.mem
    (pairwise_append.mp hlogged).1 (fun _ _ => mem_byStart)

/-- With an empty flush queue, the log holds every commit that matters. -/
theorem Logged.effectOf_log (hl : Logged h σ) (hproc : σ.flushQueue = [])
    (slot : TupleSlot) : effectOf h slot (loggedCommits σ.log) = committedState h slot := by
  have hlog : σ.logged = σ.log := by simp [State.logged, hproc]
  rw [← hlog, hl.commits, committedState]
  refine effectOf_filter _ _ (fun x _ hempty => ?_)
  by_contra hne
  exact stagedOf_ne_nil hne (by simpa using hempty)

structure Recovered.Holds (cfg : Config) (D : Database V) (d : Recovered V) : Prop where
  mapped : ∀ ⦃slot new⦄, d.tupleSlotMap slot = some new → new.table = slot.table ∧
    Represents cfg new.table (d.engine.tuples new).view (D slot)
  unmapped : ∀ ⦃slot⦄, d.tupleSlotMap slot = none → D slot = none
  injective : ∀ ⦃slot slot' new⦄, d.tupleSlotMap slot = some new →
    d.tupleSlotMap slot' = some new → slot = slot'
  rest : ∀ ⦃new⦄, (∀ slot, d.tupleSlotMap slot ≠ some new) →
    (d.engine.tuples new).view.visible = false

theorem Idle.holds (hidle : Idle cfg E d) (hren : Renames d.tupleSlotMap D E) : d.Holds cfg D := by
  refine ⟨?_, ?_, hren.injective, ?_⟩
  · intro slot new hnew
    obtain ⟨htable, hrow⟩ := hren.row hnew
    exact ⟨htable, hrow ▸ hidle.represents new⟩
  · intro slot hnone
    rw [← Option.not_isSome_iff_eq_none, ← hren.mapped, hnone]
    simp
  · intro new hnot
    have hnone : E new = none := by
      by_contra hne
      obtain ⟨slot, hslot⟩ := hren.onto (Option.isSome_iff_ne_none.mpr hne)
      exact hnot slot hslot
    have hrep := hidle.represents new
    rw [hnone] at hrep
    exact hrep

/-- From the log of any run under the contract of `SqlTable`, recovery replays the transactions
with a commit record by start time, each with exactly its own writes; none is refused, and the
tables end up with the rows they committed. Once the log has been processed, these are all
committed rows. -/
theorem recovery_reproduces_committed_state {junk : TupleSlot → ColId → Option V}
    (hlogging : cfg.logging = true) (hcols : cfg'.numColumns = cfg.numColumns)
    (hrun : Run cfg junk h σ) (hcontract : MustAbortContract h)
    (junk' : TupleSlot → ColId → Option V) :
    ∃ m, (RecoveryManager.init junk').recoverFromLogs cfg' σ.log = some m ∧
      (m.replayed.map Prod.fst).Pairwise (· < ·) ∧
      (∀ t, t ∈ m.replayed.map Prod.fst ↔
        ∃ c oldest readOnly, .commit t c oldest readOnly ∈ σ.log) ∧
      (∀ x ∈ m.replayed, x.2 = (allWritesOf h x.1).map (SlotWrite.logRecord x.1)) ∧
      (∀ e ∈ m.recovered.history, e.refusedBy = none) ∧
      m.recovered.Holds cfg' (fun slot => effectOf h slot (loggedCommits σ.log)) ∧
      (σ.flushQueue = [] → ∀ slot,
        effectOf h slot (loggedCommits σ.log) = committedState h slot) := by
  have hw := (hrun.refines hcontract).writers
  have hl := hrun.logged hlogging
  have haccepted := hrun.accepted hlogging
  have hcommits := hl.replayable hw
  have hsorted := byStart_sorted hcommits.distinct
  obtain ⟨d, E, hd, hidle, hren⟩ := hcommits.replay hrun hcontract hlogging hcols junk'
  set order := (byStart (loggedCommits σ.log)).map Prod.fst with horder
  have hmem : ∀ t, t ∈ order ↔ t ∈ (loggedCommits σ.log).map Prod.fst := by
    intro t
    simp only [horder, List.mem_map, mem_byStart]
  have hchanges : ∀ x ∈ byStart (loggedCommits σ.log), changesOf σ.log x.1 = stagedOf h x.1 :=
    fun x hx => hl.changesOf_log (c := x.2) (mem_byStart.mp hx)
  have hreplay : (order.map (changesOf σ.log)).foldlM (Recovered.replayTransaction cfg')
      (Recovered.init junk') = some d := by
    rw [horder, List.map_map, ← hd]
    congr 1
    exact map_congr_left hchanges
  obtain ⟨m, hm, rfl, hreplayed⟩ := RecoveryManager.recoverFromLogs_spec
    (WellFormedLog.of_append hl.wellFormed) (pairwise_map.mpr hsorted) hmem hreplay
  have hstarts : m.replayed.map Prod.fst = order := by
    simp [hreplayed, horder, Function.comp_def]
  refine ⟨m, hm, ?_, ?_, ?_, hidle.accepted, ?_, hl.effectOf_log⟩
  · rw [hstarts]
    exact pairwise_map.mpr hsorted
  · intro t
    rw [hstarts, hmem, mem_loggedCommits_fst]
  · rw [hreplayed, List.map_map, forall_mem_map]
    intro y hy
    exact (hchanges y hy).trans (haccepted.committed (hcommits.mem y (mem_byStart.mp hy)))
  · rw [funext (fun slot => (hl.effectOf_byStart hw slot).symm)]
    exact hidle.holds hren

/-- The transaction that starts at 4 commits after the one that starts at 5, and
one more is running when the log is processed. -/
def committedOutOfOrder : List (Action Nat) :=
  [.begin, .insert 0 0 (oneValue (some 10)), .commit 0, .process, .performGarbageCollection,
    .begin, .begin, .update 5 ⟨0, 0, 0⟩ (oneValue (some 11)), .commit 5,
    .insert 4 0 (oneValue (some 12)), .commit 4, .begin, .delete 8 ⟨0, 0, 0⟩, .process]

theorem committedOutOfOrder_runs : (execute oneColumn committedOutOfOrder
    (State.init (fun _ _ => none))).isSome = true := by
  decide

theorem recovery_reproduces_committed_state_out_of_order :
    ∃ (h : List (Event Nat)) (σ : State Nat) (m : RecoveryManager Nat),
      Run oneColumn (fun _ _ => none) h σ ∧ MustAbortContract h ∧ σ.flushQueue = [] ∧
      (RecoveryManager.init (fun _ _ => none)).recoverFromLogs oneColumn σ.log = some m ∧
      m.replayed.map Prod.fst = [0, 4, 5] ∧ m.recovered.Holds oneColumn (committedState h) := by
  have hrun := execute_run committedOutOfOrder_runs
  have hcontract : MustAbortContract ((execute oneColumn committedOutOfOrder
      (State.init (fun _ _ => none))).get committedOutOfOrder_runs).2 := by decide
  obtain ⟨m, hm, hsorted, hmem, -, -, hholds, hall⟩ := recovery_reproduces_committed_state
    rfl (show oneColumn.numColumns = oneColumn.numColumns from rfl) hrun hcontract
    (fun _ _ => none)
  refine ⟨_, _, m, hrun, hcontract, rfl, hm, ?_, ?_⟩
  · have horder : ((RecoveryManager.init (fun _ _ => none)).recoverFromLogs oneColumn
        ((execute oneColumn committedOutOfOrder
          (State.init (fun _ _ => none))).get committedOutOfOrder_runs).1.log).map
        (fun m => m.replayed.map Prod.fst) = some [0, 4, 5] := by decide
    rw [hm] at horder
    exact Option.some.inj horder
  · exact hholds

end Terrier
