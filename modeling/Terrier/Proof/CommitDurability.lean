import Terrier.Proof.PipelineDrain

/-!
Commit callbacks and durability. What a transaction staged is handed over in order, and a commit
record ends it; so all records of a transaction whose callback was run were in the file at the
last `fsync`.
-/

namespace Terrier

open List Function

namespace EntryBuffer

def segment (b : EntryBuffer) : List LogEntry := b.bufferSeg.getD []

variable (b : EntryBuffer)

theorem newEntry_last (e : LogEntry) : ∃ front, (b.newEntry e).1.segment = front ++ [e] ∧
      (b.newEntry e).2.flatten ++ front = b.segment := by
  unfold newEntry segment
  cases b.bufferSeg with
  | none => exact ⟨[], rfl, rfl⟩
  | some segment =>
    simp only
    split
    · exact ⟨segment, rfl, rfl⟩
    · exact ⟨[], rfl, by simp⟩

theorem newEntry_segment (e : LogEntry) :
    (b.newEntry e).2.flatten ++ (b.newEntry e).1.segment = b.segment ++ [e] := by
  obtain ⟨front, hlast, hfront⟩ := b.newEntry_last e
  rw [hlast, ← append_assoc, hfront]

theorem finalize_segment : b.finalize.2.flatten = b.segment := by
  unfold finalize segment
  cases b.bufferSeg with
  | none => rfl
  | some segment => simp

theorem reset_segment : b.reset.segment = [] := by
  unfold reset segment
  cases b.bufferSeg with
  | none => rfl
  | some segment => rfl

end EntryBuffer

/-- What a transaction handed over and what is in its segment, against what it staged. Records can
be missing in front of an abort record. -/
inductive Staged (t : UInt64) (handed segment staged : List LogEntry) : TxnStatus → Prop
  | active (heq : handed ++ segment = staged) (hnone : ∀ e ∈ staged, e.commitOf = none) :
      Staged t handed segment staged .active
  | committing (front : List LogEntry) (e : LogEntry) (hsegment : segment = front ++ [e])
      (heq : handed ++ segment = staged) (hcommit : e.commitOf = some t)
      (hnone : ∀ e ∈ handed ++ front, e.commitOf = none) :
      Staged t handed segment staged .committing
  | committed (before : List LogEntry) (e : LogEntry) (hhanded : handed = staged)
      (heq : staged = before ++ [e]) (hcommit : e.commitOf = some t)
      (hnone : ∀ e ∈ before, e.commitOf = none) : Staged t handed segment staged .committed
  | aborted (hsublist : (handed ++ segment).Sublist staged)
      (hnone : ∀ e ∈ handed ++ segment, e.commitOf = none) :
      Staged t handed segment staged .aborted

variable {t : UInt64} {handed segment staged : List LogEntry}

theorem Staged.of_active (h : Staged t handed segment staged .active) :
    handed ++ segment = staged ∧ ∀ e ∈ staged, e.commitOf = none := by
  cases h with
  | active heq hnone => exact ⟨heq, hnone⟩

/-- How often the callback of a transaction is among the records it handed over. -/
theorem Staged.count {status : TxnStatus} (h : Staged t handed segment staged status) :
    (handed.filterMap LogEntry.commitOf).count t = if status = .committed then 1 else 0 := by
  have hnil : ∀ records : List LogEntry, (∀ e ∈ records, e.commitOf = none) →
      records.filterMap LogEntry.commitOf = [] :=
    fun records hnone => filterMap_eq_nil_iff.mpr hnone
  cases h with
  | active heq hnone =>
    rw [hnil handed fun e he => hnone e (heq ▸ mem_append_left _ he)]
    rfl
  | committing front e hsegment heq hcom hnone =>
    rw [hnil handed (forall_mem_append.mp hnone).1]
    rfl
  | committed before e hhand heq hcom hnone =>
    rw [hhand, heq, filterMap_append, hnil before hnone, filterMap_cons_some hcom]
    simp
  | aborted hsublist hnone =>
    rw [hnil handed (forall_mem_append.mp hnone).1]
    rfl

namespace LogPipeline

def handedOver (s : LogPipeline) : List LogEntry :=
  s.started ++ s.tempFlushQueue.flatten ++ s.flushQueue.flatten

def ofTxn (t : UInt64) (records : List LogEntry) : List LogEntry :=
  records.filter (·.txn = t)

structure Ordered (s : LogPipeline) : Prop where
  segment : ∀ t, ∀ e ∈ (s.redoBuffer t).segment, e.txn = t
  staged : ∀ t, Staged t (ofTxn t s.handedOver) (s.redoBuffer t).segment (s.staged t) (s.status t)

variable {layoutOf : UInt64 → BlockLayout} {numBuffers : Nat} {s s' : LogPipeline}

@[simp] theorem ofTxn_append (t : UInt64) (first second : List LogEntry) :
    ofTxn t (first ++ second) = ofTxn t first ++ ofTxn t second :=
  filter_append ..

variable {records : List LogEntry} {e : LogEntry}

theorem ofTxn_eq_self (h : ∀ e ∈ records, e.txn = t) : ofTxn t records = records := by
  refine filter_eq_self.mpr fun e he => ?_
  simpa using h e he

theorem ofTxn_eq_nil {t' : UInt64} (hne : t' ≠ t) (h : ∀ e ∈ records, e.txn = t) :
    ofTxn t' records = [] := by
  refine filter_eq_nil_iff.mpr fun e he => ?_
  simpa [h e he] using hne.symm

theorem Ordered.init : (init numBuffers).Ordered :=
  ⟨fun t e he => absurd he (by simp [LogPipeline.init, EntryBuffer.init, EntryBuffer.segment]),
    fun t => .active rfl (by simp [LogPipeline.init])⟩

theorem Ordered.congr (h : s.Ordered) (hstatus : s'.status = s.status)
    (hbuf : s'.redoBuffer = s.redoBuffer) (hstage : s'.staged = s.staged)
    (hhand : s'.handedOver = s.handedOver) : s'.Ordered := by
  refine ⟨?_, ?_⟩
  · rw [hbuf]
    exact h.segment
  · rw [hstatus, hbuf, hstage, hhand]
    exact h.staged

theorem Ordered.update (h : s.Ordered) (t : UInt64) {more : List LogEntry}
    (hstatus : ∀ t' ≠ t, s'.status t' = s.status t')
    (hbuf : ∀ t' ≠ t, s'.redoBuffer t' = s.redoBuffer t')
    (hstage : ∀ t' ≠ t, s'.staged t' = s.staged t')
    (hhand : s'.handedOver = s.handedOver ++ more) (hmore : ∀ e ∈ more, e.txn = t)
    (hsegment : ∀ e ∈ (s'.redoBuffer t).segment, e.txn = t)
    (htxn : Staged t (ofTxn t s.handedOver ++ more) (s'.redoBuffer t).segment (s'.staged t)
      (s'.status t)) : s'.Ordered := by
  refine ⟨fun t' => ?_, fun t' => ?_⟩
  · by_cases heq : t' = t
    · subst heq
      exact hsegment
    · rw [hbuf t' heq]
      exact h.segment t'
  · rw [hhand, ofTxn_append]
    by_cases heq : t' = t
    · subst heq
      rwa [ofTxn_eq_self hmore]
    · rw [ofTxn_eq_nil heq hmore, append_nil, hstatus t' heq, hbuf t' heq, hstage t' heq]
      exact h.staged t'

theorem commitOf_eq_none {image : RecordImage} {isReadOnly : Bool} (h : isChange image = true) :
    LogEntry.commitOf ⟨image, isReadOnly⟩ = none := by
  unfold isChange at h
  unfold LogEntry.commitOf
  cases hbody : image.body with
  | redo db table slot delta => rfl
  | delete db table slot => rfl
  | abort => rfl
  | commit commitTime oldest => simp [hbody] at h

theorem handedOver_setRedoBuffer (s : LogPipeline) (t : UInt64) (b : EntryBuffer)
    (flushed : List (List LogEntry)) :
    (s.setRedoBuffer t b flushed).handedOver = s.handedOver ++ flushed.flatten := by
  simp [handedOver, setRedoBuffer]

theorem Ordered.newEntry (h : s.Ordered) {b : EntryBuffer} {status : TxnStatus}
    (hb : ∀ e' ∈ b.segment, e'.txn = e.txn)
    (hstaged : Staged e.txn (ofTxn e.txn s.handedOver ++ (b.newEntry e).2.flatten)
      (b.newEntry e).1.segment (s.staged e.txn ++ [e]) status) :
    (s.newEntry b e status).Ordered := by
  have htxns : ∀ e' ∈ b.segment ++ [e], e'.txn = e.txn :=
    forall_mem_append.mpr ⟨hb, forall_mem_singleton.mpr rfl⟩
  rw [← b.newEntry_segment e] at htxns
  have hbuf : (s.newEntry b e status).redoBuffer e.txn = (b.newEntry e).1 := update_self ..
  have hnow : (s.newEntry b e status).staged e.txn = s.staged e.txn ++ [e] := update_self ..
  refine h.update e.txn (fun t' hne => update_of_ne hne _ _)
    (fun t' hne => update_of_ne hne _ _) (fun t' hne => update_of_ne hne _ _)
    (s.handedOver_setRedoBuffer e.txn (b.newEntry e).1 _)
    (fun e' he' => htxns e' (mem_append_left _ he')) ?_ ?_
  · rw [hbuf]
    exact fun e' he' => htxns e' (mem_append_right _ he')
  · rwa [hbuf, hnow, show (s.newEntry b e status).status e.txn = status from update_self ..]

theorem Ordered.of_active (h : s.Ordered) (hact : s.status t = .active) :
    ofTxn t s.handedOver ++ (s.redoBuffer t).segment = s.staged t ∧
      ∀ e ∈ s.staged t, e.commitOf = none := by
  have hstage := h.staged t
  rw [hact] at hstage
  exact hstage.of_active

theorem Ordered.stage (h : s.Ordered) (image : RecordImage)
    (hact : s.status image.txnBegin = .active) (hchg : isChange image = true) :
    (s.stage image).Ordered := by
  obtain ⟨heq, hnone⟩ := h.of_active hact
  apply h.newEntry (h.segment _)
  refine .active ?_ ?_
  · rw [append_assoc, EntryBuffer.newEntry_segment, ← append_assoc]
    exact congrArg (· ++ _) heq
  · exact forall_mem_append.mpr ⟨hnone, forall_mem_singleton.mpr (commitOf_eq_none hchg)⟩

theorem Ordered.commit (h : s.Ordered) (htxn : e.txn = t) (hact : s.status t = .active)
    (hcom : e.commitOf = some t) : (s.commit e).Ordered := by
  subst htxn
  obtain ⟨heq, hnone⟩ := h.of_active hact
  obtain ⟨front, hlast, hfront⟩ := (s.redoBuffer e.txn).newEntry_last e
  apply h.newEntry (h.segment _)
  refine .committing front e hlast ?_ hcom ?_
  · rw [append_assoc, EntryBuffer.newEntry_segment, ← append_assoc, heq]
  · rw [append_assoc, hfront, heq]
    exact hnone

theorem Ordered.abort (h : s.Ordered) (hact : s.status t = .active) : (s.abort t).Ordered := by
  obtain ⟨heq, hnone⟩ := h.of_active hact
  have hhand : (ofTxn t s.handedOver).Sublist (s.staged t) := by
    rw [← heq]
    exact sublist_append_left _ _
  unfold LogPipeline.abort
  split
  case isFalse =>
    refine h.update t (fun t' hne => update_of_ne hne _ _)
      (fun t' hne => update_of_ne hne _ _) (fun _ _ => rfl)
      (s.handedOver_setRedoBuffer t ⟨none, false⟩ []) (by simp) ?_ ?_
    · simp [setStatus, setRedoBuffer, EntryBuffer.segment]
    · rw [show (setStatus _ t .aborted).status t = .aborted from update_self ..]
      have hsegment : ((setStatus (s.setRedoBuffer t ⟨none, false⟩ []) t .aborted).redoBuffer
          t).segment = [] := by
        simp [setStatus, setRedoBuffer, EntryBuffer.segment]
      rw [flatten_nil, append_nil, hsegment]
      refine .aborted ?_ ?_
      · rwa [append_nil]
      · exact fun e he => hnone e (hhand.subset (by simpa using he))
  case isTrue =>
    let e : LogEntry := ⟨.initializeRecord t .abort, false⟩
    have hreset := (s.redoBuffer t).reset_segment
    apply h.newEntry (e := e)
    · simp [hreset]
    · have hlast := (s.redoBuffer t).reset.newEntry_segment e
      rw [hreset, nil_append] at hlast
      apply Staged.aborted
      · rw [append_assoc, hlast]
        exact hhand.append_right [e]
      · rw [append_assoc, hlast]
        exact forall_mem_append.mpr
          ⟨fun e' hold => hnone e' (hhand.subset hold), forall_mem_singleton.mpr rfl⟩

theorem finalize_segment_nil (b : EntryBuffer) : b.finalize.1.segment = [] := by
  unfold EntryBuffer.finalize EntryBuffer.segment
  cases hseg : b.bufferSeg with
  | none => simp [hseg]
  | some segment => rfl

theorem Ordered.finalize (h : s.Ordered)
    (hended : s.status t = .committing ∨ s.status t = .aborted) : (s.finalize t).Ordered := by
  have hbuf : (s.finalize t).redoBuffer t = (s.redoBuffer t).finalize.1 := update_self ..
  have hover := s.handedOver_setRedoBuffer t (s.redoBuffer t).finalize.1
    (s.redoBuffer t).finalize.2
  rw [EntryBuffer.finalize_segment] at hover
  refine h.update t (fun t' hne => update_of_ne hne _ _) (fun t' hne => update_of_ne hne _ _)
    (fun _ _ => rfl) hover (h.segment t) ?_ ?_
  · simp [hbuf, finalize_segment_nil]
  · have hstage := h.staged t
    have hstatus : (s.finalize t).status t =
        if s.status t = .committing then .committed else .aborted := update_self ..
    rw [hstatus, hbuf, finalize_segment_nil]
    change Staged t _ [] (s.staged t) _
    rcases hended with hcommitting | haborted
    · rw [hcommitting] at hstage ⊢
      cases hstage with
      | committing front e hsegment heq hcom hnone =>
        refine .committed _ e heq ?_ hcom hnone
        rw [← heq, hsegment, append_assoc]
    · rw [haborted] at hstage ⊢
      cases hstage with
      | aborted hsublist hnone =>
        apply Staged.aborted
        · rwa [append_nil]
        · rwa [append_nil]

theorem Ordered.move (h : s.Ordered) (hplace : s.Placed numBuffers)
    (hmove : Move layoutOf numBuffers s s') : s'.Ordered := by
  cases hmove with
  | stage image hact hchg => exact h.stage image hact hchg
  | commit t commitTime oldest isReadOnly hact => exact h.commit rfl hact rfl
  | abort t hact => exact h.abort hact
  | finalize t hended => exact h.finalize hended
  | grab hphase =>
    have hidle := (hplace.idle (by simp [hphase])).2
    exact h.congr rfl rfl rfl (by simp [handedOver, hidle])
  | nextRecord e segment segments hpend htemp =>
    exact h.congr rfl rfl rfl (by simp [handedOver, htemp])
  | nextSegment segments htemp => exact h.congr rfl rfl rfl (by simp [handedOver, htemp])
  | serializerPhase | consumerPhase | takeEmptyBuffer | write | writeAndHandOver | endWrite
  | noteCallback | handOver | dequeue | flush | persist | runCallback =>
    exact h.congr rfl rfl rfl rfl

structure Sound (layoutOf : UInt64 → BlockLayout) (numBuffers : Nat) (s : LogPipeline) : Prop where
  flows : s.Flows layoutOf
  placed : s.Placed numBuffers
  durable : s.Durable layoutOf
  ordered : s.Ordered

theorem Sound.init : (init numBuffers).Sound layoutOf numBuffers :=
  ⟨.init, .init, .init, .init⟩

theorem Sound.step (h : s.Sound layoutOf numBuffers) {action : PipelineAction}
    (hstep : s.step layoutOf numBuffers action = some s') : s'.Sound layoutOf numBuffers := by
  have hmove := step_move hstep
  exact ⟨h.flows.move hmove, h.placed.move hmove, h.durable.move h.flows h.placed hmove,
    h.ordered.move h.placed hmove⟩

theorem Sound.run (h : s.Sound layoutOf numBuffers) {actions : List PipelineAction}
    (hrun : s.run layoutOf numBuffers actions = some s') : s'.Sound layoutOf numBuffers := by
  induction actions generalizing s with
  | nil =>
    cases hrun
    exact h
  | cons action actions ih =>
    obtain ⟨next, hstep, hrest⟩ := Option.bind_eq_some_iff.mp hrun
    exact ih (h.step hstep) hrest

section Callbacks

/-- Only records of a transaction carry its callback. -/
theorem count_commitOf (t : UInt64) (records : List LogEntry) :
    (records.filterMap LogEntry.commitOf).count t =
      ((ofTxn t records).filterMap LogEntry.commitOf).count t := by
  induction records with
  | nil => rfl
  | cons e records ih =>
    by_cases htxn : e.txn = t
    · rw [show ofTxn t (e :: records) = e :: ofTxn t records by simp [ofTxn, htxn]]
      cases hcom : e.commitOf with
      | none => rw [filterMap_cons_none hcom, filterMap_cons_none hcom, ih]
      | some t' =>
        rw [filterMap_cons_some hcom, filterMap_cons_some hcom, count_cons, count_cons, ih]
    · rw [show ofTxn t (e :: records) = ofTxn t records by simp [ofTxn, htxn]]
      cases hcom : e.commitOf with
      | none => rw [filterMap_cons_none hcom, ih]
      | some t' =>
        have hne : t' ≠ t := fun heq => htxn (LogEntry.commitOf_eq_some hcom ▸ heq)
        rw [filterMap_cons_some hcom, count_cons_of_ne hne, ih]

theorem Ordered.count (h : s.Ordered) (t : UInt64) :
    (s.handedOver.filterMap LogEntry.commitOf).count t =
      if s.status t = .committed then 1 else 0 := by
  rw [count_commitOf]
  exact (h.staged t).count

section

variable (h : s.Sound layoutOf numBuffers)
include h

theorem Sound.ran_sublist : s.ran.Sublist (s.handedOver.filterMap LogEntry.commitOf) := by
  have hmarks := h.flows.flowing.marks_eq
  rw [handedOver, filterMap_append, filterMap_append, ← hmarks]
  simp only [append_assoc]
  exact sublist_append_left _ _

theorem Sound.ran_count_le (t : UInt64) :
    s.ran.count t ≤ if s.status t = .committed then 1 else 0 := by
  rw [← h.ordered.count t]
  exact h.ran_sublist.count_le t

theorem Sound.ran_committed (ht : t ∈ s.ran) : s.status t = .committed := by
  by_contra hne
  have hle := h.ran_count_le t
  rw [if_neg hne] at hle
  have hpos := count_pos_iff.mpr ht
  omega

theorem Sound.ran_count_of_drained (hdrained : s.IsDrained) (t : UInt64) :
    s.ran.count t = if s.status t = .committed then 1 else 0 := by
  obtain ⟨hqueue, hphase, hproc, hfill, hhold, hcalls⟩ := hdrained
  obtain ⟨hpend, htemp⟩ := h.placed.idle (by simp [hphase])
  obtain ⟨hbuf, hcoms⟩ := h.placed.fresh hphase hproc
  have hmarks := h.flows.flowing.marks_eq
  have hran : s.ran = s.started.filterMap LogEntry.commitOf := by
    rw [← hmarks]
    simp [buffers, hhold, hfill, hcalls, hcoms, hpend]
  have hhand : s.handedOver = s.started := by simp [handedOver, htemp, hqueue]
  rw [← h.ordered.count t, hran, hhand]

theorem Sound.ran_durable (ht : t ∈ s.ran) :
    ∃ durable, durable.flatMap (LogEntry.bytes layoutOf) <+: s.file.take s.persisted ∧
      ofTxn t durable = s.staged t ∧ t ∈ durable.filterMap LogEntry.commitOf := by
  obtain ⟨front, back, hsplit, hbytes, hmarks⟩ := h.durable.ran
  refine ⟨front, hbytes, ?_, hmarks t ht⟩
  have hstage := h.ordered.staged t
  rw [h.ran_committed ht] at hstage
  cases hstage with
  | committed before e hhand heq hcom hnone =>
    obtain ⟨e', he', hcom'⟩ := mem_filterMap.mp (hmarks t ht)
    have hmem : e' ∈ ofTxn t front := by
      refine mem_filter.mpr ⟨he', ?_⟩
      simpa using LogEntry.commitOf_eq_some hcom'
    rw [heq] at hhand ⊢
    rw [handedOver, hsplit, append_assoc, append_assoc, ofTxn_append] at hhand
    -- the commit record is the last one, so nothing of the transaction comes after it
    rcases eq_nil_or_concat (ofTxn t (back ++ (s.tempFlushQueue.flatten ++
        s.flushQueue.flatten))) with hnil | ⟨rest, last, hconcat⟩
    · rwa [hnil, append_nil] at hhand
    · rw [hconcat, concat_eq_append, ← append_assoc] at hhand
      have hbef := (append_inj' hhand rfl).1
      have hcontra := hnone e' (hbef ▸ mem_append_left _ hmem)
      rw [hcom'] at hcontra
      cases hcontra

theorem Sound.file_ordered : ∃ written, s.file <+: written.flatMap (LogEntry.bytes layoutOf) ∧
      ∀ t, (ofTxn t written).Sublist (s.staged t) ∧
        (s.status t ≠ .aborted → ofTxn t written <+: s.staged t) := by
  refine ⟨s.started, ?_, fun t => ?_⟩
  · rw [← h.flows.flowing.bytes_eq, append_assoc]
    exact prefix_append _ _
  · have hstart : ofTxn t s.started <+: ofTxn t s.handedOver := by
      rw [handedOver, append_assoc, ofTxn_append]
      exact prefix_append _ _
    have hstage := h.ordered.staged t
    generalize s.status t = status at hstage
    cases hstage with
    | active heq | committing _ _ _ heq =>
      have hall : ofTxn t s.started <+: s.staged t := by
        rw [← heq]
        exact hstart.trans (prefix_append _ _)
      exact ⟨hall.sublist, fun _ => hall⟩
    | committed before e hhand heq hcom hnone =>
      rw [hhand] at hstart
      exact ⟨hstart.sublist, fun _ => hstart⟩
    | aborted hsublist hnone =>
      exact ⟨hstart.sublist.trans ((sublist_append_left _ _).trans hsublist),
        fun hne => absurd rfl hne⟩

end

end Callbacks

/-- In every interleaving: at the last `fsync` before a callback ran, the file held all that its
transaction staged, in that order. No callback runs twice; the serializer and the consumer can
always finish, and then each committed transaction's has run. -/
theorem commit_callback_durable (layoutOf : UInt64 → BlockLayout) (numBuffers : Nat)
    (actions : List PipelineAction) (s : LogPipeline)
    (hrun : (init numBuffers).run layoutOf numBuffers actions = some s) :
    (∀ t ∈ s.ran, s.status t = .committed ∧ ∃ durable,
      durable.flatMap (LogEntry.bytes layoutOf) <+: s.file.take s.persisted ∧
        ofTxn t durable = s.staged t ∧ t ∈ durable.filterMap LogEntry.commitOf) ∧
    (∀ t, s.ran.count t ≤ 1) ∧
    (s.IsDrained → ∀ t, s.status t = .committed → s.ran.count t = 1) ∧
    (0 < numBuffers → ∃ s', Settles layoutOf numBuffers s s' ∧ s'.IsDrained ∧
      ∀ t, s.status t = .committed → s'.ran.count t = 1) ∧
    ∃ written, s.file <+: written.flatMap (LogEntry.bytes layoutOf) ∧
      ∀ t, (ofTxn t written).Sublist (s.staged t) ∧
        (s.status t ≠ .aborted → ofTxn t written <+: s.staged t) := by
  have hsound : s.Sound layoutOf numBuffers := Sound.init.run hrun
  refine ⟨fun t ht => ⟨hsound.ran_committed ht, hsound.ran_durable ht⟩, fun t => ?_,
    fun hdrained t hcommitted => ?_, fun hbuffers => ?_, hsound.file_ordered⟩
  · refine (hsound.ran_count_le t).trans ?_
    split
    · exact le_rfl
    · exact Nat.zero_le 1
  · rw [hsound.ran_count_of_drained hdrained, if_pos hcommitted]
  · obtain ⟨s', hsettles, hdrained⟩ := hsound.placed.settles layoutOf hbuffers
    refine ⟨s', hsettles, hdrained, fun t hcommitted => ?_⟩
    have hstatus := hsettles.status
    obtain ⟨more, -, hmore⟩ := hsettles
    rw [(hsound.run hmore).ran_count_of_drained hdrained, hstatus, if_pos hcommitted]

def writeValues (n : Nat) : List PipelineAction :=
  (List.replicate n [PipelineAction.writeChunk, PipelineAction.endWrite]).flatten

def deleteAndCommit : List PipelineAction :=
  List.flatten
    [[.stage (.initializeRecord 5 (.delete 1 2 64)), .commit 5 6 5 false, .finalize 5,
        .grabFlushQueue, .nextRecord, .takeEmptyBuffer], writeValues 6, [.nextRecord],
      writeValues 5, [.noteCallback, .nextSegment, .endSegments, .breakLoop, .handOver, .dequeue,
        .flush, .endWriting, .persist, .runCallback]]

theorem noColumns_valid : ∀ size ∈ ([] : List Nat), size ∈ [1, 2, 4, 8, varlenColumn] :=
  fun _ hsize => absurd hsize not_mem_nil

theorem noColumns_sorted : ([] : List Nat).Pairwise (· ≥ ·) :=
  List.Pairwise.nil

theorem noColumns_bounded : ([] : List Nat).length + numReservedColumns ≤ maxCol := by
  decide

def noColumns : BlockLayout :=
  ⟨[], noColumns_valid, noColumns_sorted, noColumns_bounded⟩

theorem deleteAndCommit_ran :
    ((init 2).run (fun _ => noColumns) 2 deleteAndCommit).map LogPipeline.ran = some [5] := by
  decide +kernel

theorem commit_callback_durable_deleted :
    ∃ s, (init 2).run (fun _ => noColumns) 2 deleteAndCommit = some s ∧ 5 ∈ s.ran ∧
      ∃ durable, durable.flatMap (LogEntry.bytes fun _ => noColumns) <+: s.file.take s.persisted ∧
        ofTxn 5 durable = s.staged 5 := by
  obtain ⟨s, hrun, hran⟩ := Option.map_eq_some_iff.mp deleteAndCommit_ran
  have hmem : 5 ∈ s.ran := by
    rw [hran]
    exact mem_singleton.mpr rfl
  obtain ⟨-, durable, hbytes, hstaged, -⟩ := (commit_callback_durable _ _ _ _ hrun).1 5 hmem
  exact ⟨s, hrun, hmem, durable, hbytes, hstaged⟩

end LogPipeline

end Terrier
