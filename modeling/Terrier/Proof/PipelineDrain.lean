import Terrier.Proof.Pipeline

/-!
The serializer and the consumer can always finish what is in the pipeline. The consumer alone
can empty its queue and run its callbacks; all log buffers are then empty or the serializer's,
so it can take its next step, which leaves less to do.
-/

namespace Terrier

open List Option

def SerializerTask.work : SerializerTask → Nat
  | .write data => 2 * data.length + 2
  | .callback _ => 1

namespace LogPipeline

variable {layoutOf : UInt64 → BlockLayout} {numBuffers : Nat} {s s' s'' : LogPipeline}

/-- The serializer and the consumer can go from one state to the other. -/
def Settles (layoutOf : UInt64 → BlockLayout) (numBuffers : Nat) (s s' : LogPipeline) : Prop :=
  ∃ actions : List PipelineAction, (∀ action ∈ actions, action.isBackground = true) ∧
    s.run layoutOf numBuffers actions = some s'

namespace Settles

theorem refl (s : LogPipeline) : Settles layoutOf numBuffers s s :=
  ⟨[], by simp, rfl⟩

theorem head (action : PipelineAction) (hbg : action.isBackground = true)
    (hstep : s.step layoutOf numBuffers action = some s')
    (hrest : Settles layoutOf numBuffers s' s'') : Settles layoutOf numBuffers s s'' := by
  obtain ⟨actions, hall, hrun⟩ := hrest
  refine ⟨action :: actions, ?_, ?_⟩
  · exact forall_mem_cons.mpr ⟨hbg, hall⟩
  · rw [run, hstep]
    exact hrun

theorem trans (hfirst : Settles layoutOf numBuffers s s')
    (hsnd : Settles layoutOf numBuffers s' s'') : Settles layoutOf numBuffers s s'' := by
  obtain ⟨actions, hall, hrun⟩ := hfirst
  induction actions generalizing s with
  | nil =>
    cases hrun
    exact hsnd
  | cons action actions ih =>
    obtain ⟨next, hstep, hrest⟩ := bind_eq_some_iff.mp hrun
    exact head action (hall action mem_cons_self) hstep
      (ih (fun action hmem => hall action (mem_cons_of_mem _ hmem)) hrest)

theorem preserves {p : LogPipeline → Prop}
    (hkeep : ∀ {s s' : LogPipeline} {action : PipelineAction}, action.isBackground = true →
      s.step layoutOf numBuffers action = some s' → p s → p s')
    (h : Settles layoutOf numBuffers s s') (hp : p s) : p s' := by
  obtain ⟨actions, hall, hrun⟩ := h
  induction actions generalizing s with
  | nil =>
    cases hrun
    exact hp
  | cons action actions ih =>
    obtain ⟨next, hstep, hrest⟩ := bind_eq_some_iff.mp hrun
    exact ih (hkeep (hall action mem_cons_self) hstep hp)
      (fun action hmem => hall action (mem_cons_of_mem _ hmem)) hrest

theorem placed (h : Settles layoutOf numBuffers s s') (hplace : s.Placed numBuffers) :
    s'.Placed numBuffers :=
  h.preserves (fun _ hstep hplace => hplace.move (step_move hstep)) hplace

end Settles

theorem step_status {action : PipelineAction} (hbg : action.isBackground = true)
    (h : s.step layoutOf numBuffers action = some s') : s'.status = s.status := by
  cases action
  case stage | commit | abort | finalize => cases hbg
  all_goals
    rw [step] at h
    split at h
    · cases h
      rfl
    · cases h

theorem Settles.status (h : Settles layoutOf numBuffers s s') : s'.status = s.status :=
  h.preserves (p := fun later => later.status = s.status)
    (fun hbg hstep heq => (step_status hbg hstep).trans heq) rfl

section Serializer

def entryWork (layoutOf : UInt64 → BlockLayout) (e : LogEntry) : Nat :=
  ((e.tasks layoutOf).map SerializerTask.work).sum + 1

def segmentWork (layoutOf : UInt64 → BlockLayout) (segment : List LogEntry) : Nat :=
  (segment.map (entryWork layoutOf)).sum + 1

def phaseWork : SerializerPhase → Bool → Nat
  | .serializing, _ => 4
  | .looking, true => 3
  | .finishing, _ => 2
  | .looking, false => 0

def bufferWork : Option (List UInt8) → Nat
  | none => 1
  | some _ => 0

theorem bufferWork_le (buffer : Option (List UInt8)) : bufferWork buffer ≤ 1 := by
  cases buffer with
  | none => exact le_rfl
  | some buffer => exact Nat.zero_le 1

/-- A bound for the steps that the serializer has to take. A byte can fill a
buffer, and then a buffer has to be taken. -/
def work (layoutOf : UInt64 → BlockLayout) (s : LogPipeline) : Nat :=
  (s.pending.map SerializerTask.work).sum + (s.tempFlushQueue.map (segmentWork layoutOf)).sum +
    (s.flushQueue.map (segmentWork layoutOf · + 5)).sum +
    phaseWork s.serializerPhase s.buffersProcessed +
    bufferWork s.serializer.filledBuffer

def Advances (layoutOf : UInt64 → BlockLayout) (numBuffers : Nat) (s : LogPipeline) : Prop :=
  ∃ action s', action.isBackground = true ∧ s.step layoutOf numBuffers action = some s' ∧
    s'.work layoutOf < s.work layoutOf

theorem advances_grab (hphase : s.serializerPhase = .looking) (hqueue : s.flushQueue ≠ [])
    (htemp : s.tempFlushQueue = []) : Advances layoutOf numBuffers s := by
  refine ⟨.grabFlushQueue, _, rfl, if_pos ⟨hphase, hqueue⟩, ?_⟩
  have hextra : (s.flushQueue.map (segmentWork layoutOf · + 5)).sum =
      (s.flushQueue.map (segmentWork layoutOf)).sum + 5 * s.flushQueue.length := by
    rw [sum_map_add]
    simp [Nat.mul_comm]
  have hlen : 0 < s.flushQueue.length := length_pos_iff.mpr hqueue
  simp only [work, hextra, htemp, map_nil, sum_nil, phaseWork]
  omega

theorem advances_serializing (hphase : s.serializerPhase = .serializing)
    (hpend : s.pending = []) : Advances layoutOf numBuffers s := by
  cases htemp : s.tempFlushQueue with
  | nil =>
    refine ⟨.endSegments, { s with serializerPhase := .looking, buffersProcessed := true }, rfl,
      by simp only [step, hphase, hpend, htemp], ?_⟩
    simp only [work, hphase, phaseWork]
    omega
  | cons segment segments =>
    cases segment with
    | nil =>
      refine ⟨.nextSegment, { s with tempFlushQueue := segments }, rfl,
        by simp only [step, hphase, hpend, htemp], ?_⟩
      simp only [work, htemp, map_cons, sum_cons, segmentWork]
      omega
    | cons e segment =>
      refine ⟨.nextRecord, { s with
          tempFlushQueue := segment :: segments, pending := e.tasks layoutOf
          started := s.started ++ [e] }, rfl,
        by simp only [step, hphase, hpend, htemp], ?_⟩
      simp only [work, hpend, htemp, map_cons, sum_cons, map_nil, sum_nil, segmentWork, entryWork]
      omega

theorem advances_writing (hplace : s.Placed numBuffers) {data : List UInt8}
    {tasks : List SerializerTask} (hpend : s.pending = .write data :: tasks)
    (hempty : s.serializer.filledBuffer = none → 0 < s.emptyBuffers) :
    Advances layoutOf numBuffers s := by
  cases hbuf : s.serializer.filledBuffer with
  | none =>
    obtain ⟨n, hn⟩ := Nat.exists_eq_succ_of_ne_zero (hempty hbuf).ne'
    refine ⟨.takeEmptyBuffer,
      { s with serializer := s.serializer.getCurrentWriteBuffer, emptyBuffers := n }, rfl,
      by simp only [step, hpend, hbuf, hn], ?_⟩
    simp only [work, hbuf, Serializer.getCurrentWriteBuffer, bufferWork]
    omega
  | some buffer =>
    cases data with
    | nil =>
      refine ⟨.endWrite, { s with pending := tasks }, rfl, by simp only [step, hpend, hbuf], ?_⟩
      simp only [work, hpend, map_cons, sum_cons, SerializerTask.work]
      omega
    | cons b data =>
      obtain ⟨size, hwrite, hsmall, -, hsize⟩ := bufferWrite_eq buffer (b :: data)
      have hsize := hsize (by simp) (hplace.room buffer hbuf)
      refine ⟨.writeChunk, _, rfl, by simp only [step, hpend, hbuf, hwrite]; rfl, ?_⟩
      -- a full buffer costs one step more, and at least one byte was written
      simp only [work, hpend, hbuf, map_cons, sum_cons, SerializerTask.work, length_drop]
      refine lt_of_le_of_lt (Nat.add_le_add_left (bufferWork_le _) _) ?_
      omega

theorem Placed.advances (h : s.Placed numBuffers) (layoutOf : UInt64 → BlockLayout)
    (hbuffers : 0 < numBuffers)
    (hhold : s.holding = none) (hqueue : s.serializer.filledBufferQueue = [])
    (hbusy : ¬(s.flushQueue = [] ∧ s.serializerPhase = .looking ∧ s.buffersProcessed = false)) :
    Advances layoutOf numBuffers s := by
  cases hphase : s.serializerPhase with
  | looking =>
    by_cases hflush : s.flushQueue = []
    · have hproc : s.buffersProcessed = true := by
        by_contra hnot
        exact hbusy ⟨hflush, hphase, Bool.eq_false_iff.mpr hnot⟩
      refine ⟨.breakLoop, _, rfl, if_pos ⟨hphase, hflush, hproc⟩, ?_⟩
      simp only [work, hphase, hproc, phaseWork]
      omega
    · exact advances_grab hphase hflush (h.idle (by simp [hphase])).2
  | finishing =>
    refine ⟨.handOver, _, rfl, if_pos hphase, ?_⟩
    have hbuf := bufferWork_le s.serializer.handFilledBufferToWriter.filledBuffer
    simp only [work, hphase, phaseWork]
    omega
  | serializing =>
    cases hpend : s.pending with
    | nil => exact advances_serializing hphase hpend
    | cons task tasks =>
      cases task with
      | write data =>
        refine advances_writing h hpend fun hnone => ?_
        have hcount := h.counted
        simp only [usedBuffers, hhold, hqueue, hnone, toList_none, countP_nil, length_nil] at hcount
        omega
      | callback t =>
        refine ⟨.noteCallback, { s with
            pending := tasks
            serializer := { s.serializer with
              commitsInBuffer := s.serializer.commitsInBuffer ++ [t] } }, rfl,
          by simp only [step, hpend], ?_⟩
        simp only [work, hpend, map_cons, sum_cons, SerializerTask.work]
        omega

end Serializer

section Consumer

theorem settles_callbacks (layoutOf : UInt64 → BlockLayout) (numBuffers : Nat)
    (hphase : s.consumerPhase = .persisting) :
    Settles layoutOf numBuffers s { s with
      consumerPhase := .writing, commitCallbacks := [], ran := s.ran ++ s.commitCallbacks } := by
  generalize hcalls : s.commitCallbacks = callbacks
  induction callbacks generalizing s with
  | nil =>
    refine .head .endPersist rfl (if_pos ⟨hphase, hcalls⟩) ?_
    rw [append_nil, ← hcalls]
    exact .refl _
  | cons t callbacks ih =>
    let next : LogPipeline := { s with commitCallbacks := callbacks, ran := s.ran ++ [t] }
    have hstep : s.step layoutOf numBuffers .runCallback = some next := by
      simp only [step, hphase, hcalls, next]
    have hrest := ih (s := next) hphase rfl
    rw [append_assoc] at hrest
    exact hrest.head .runCallback rfl hstep

theorem settles_queue (layoutOf : UInt64 → BlockLayout) (numBuffers : Nat)
    (hphase : s.consumerPhase = .writing) (hhold : s.holding = none) :
    ∃ s', Settles layoutOf numBuffers s s' ∧ s'.consumerPhase = .writing ∧ s'.holding = none ∧
      s'.serializer.filledBufferQueue = [] ∧ s'.work layoutOf = s.work layoutOf := by
  generalize hqueue : s.serializer.filledBufferQueue = queue
  induction queue generalizing s with
  | nil => exact ⟨s, .refl s, hphase, hhold, hqueue, rfl⟩
  | cons logs queue ih =>
    obtain ⟨s', hsettles, hrest⟩ := ih (s := { s with
      holding := none
      file := s.file ++ logs.1.getD []
      commitCallbacks := s.commitCallbacks ++ logs.2
      emptyBuffers := s.emptyBuffers + logs.1.toList.length
      serializer := { s.serializer with filledBufferQueue := queue } }) hphase rfl rfl
    have hstep : s.step layoutOf numBuffers .dequeue = some { s with
        holding := some logs, serializer := { s.serializer with filledBufferQueue := queue } } := by
      simp only [step, hphase, hhold, hqueue]
    exact ⟨s', .head .dequeue rfl hstep (.head .flush rfl rfl hsettles), hrest⟩

theorem Placed.settles_writing (h : s.Placed numBuffers) (layoutOf : UInt64 → BlockLayout) :
    ∃ s', Settles layoutOf numBuffers s s' ∧ s'.consumerPhase = .writing ∧ s'.holding = none ∧
      s'.work layoutOf = s.work layoutOf := by
  cases hphase : s.consumerPhase with
  | writing =>
    cases hhold : s.holding with
    | none => exact ⟨s, .refl s, hphase, hhold, rfl⟩
    | some logs =>
      obtain ⟨buffer, callbacks⟩ := logs
      let next : LogPipeline := { s with
        holding := none
        file := s.file ++ buffer.getD []
        commitCallbacks := s.commitCallbacks ++ callbacks
        emptyBuffers := s.emptyBuffers + buffer.toList.length }
      have hstep : s.step layoutOf numBuffers .flush = some next := by
        simp only [step, hhold, next]
      exact ⟨next, .head .flush rfl hstep (.refl _), hphase, rfl, rfl⟩
  | written =>
    have hhold : s.holding = none := by
      by_contra hne
      simp [h.held hne] at hphase
    exact ⟨_, .head .skipPersist rfl (if_pos hphase) (.refl _), rfl, hhold, rfl⟩
  | persisting =>
    have hhold : s.holding = none := by
      by_contra hne
      simp [h.held hne] at hphase
    exact ⟨_, settles_callbacks layoutOf numBuffers hphase, rfl, hhold, rfl⟩

/-- The consumer finishes all that was handed to it. -/
theorem Placed.settles_consumer (h : s.Placed numBuffers) (layoutOf : UInt64 → BlockLayout) :
    ∃ s', Settles layoutOf numBuffers s s' ∧ s'.serializer.filledBufferQueue = [] ∧
      s'.holding = none ∧ s'.commitCallbacks = [] ∧ s'.work layoutOf = s.work layoutOf := by
  obtain ⟨first, hfirst, hphase, hhold, hwork⟩ := h.settles_writing layoutOf
  obtain ⟨second, hsnd, hphase, hhold, hqueue, hwork'⟩ :=
    settles_queue layoutOf numBuffers hphase hhold
  let written : LogPipeline := { second with consumerPhase := .written }
  let persisted : LogPipeline := { second with
    consumerPhase := .persisting
    persisted := if numBuffers = 0 then second.persisted else second.file.length }
  have hend : second.step layoutOf numBuffers .endWriting = some written :=
    if_pos ⟨hphase, hhold, hqueue⟩
  have hpersist : written.step layoutOf numBuffers .persist = some persisted := rfl
  have hcalls := settles_callbacks layoutOf numBuffers (s := persisted) rfl
  exact ⟨_, (hfirst.trans hsnd).trans
    (.head .endWriting rfl hend (.head .persist rfl hpersist hcalls)), hqueue, hhold, rfl,
    hwork'.trans hwork⟩

end Consumer

theorem Placed.settles (h : s.Placed numBuffers) (layoutOf : UInt64 → BlockLayout)
    (hbuffers : 0 < numBuffers) :
    ∃ s', Settles layoutOf numBuffers s s' ∧ s'.IsDrained := by
  induction hwork : s.work layoutOf using Nat.strong_induction_on generalizing s with
  | h n ih =>
    obtain ⟨middle, hmiddle, hqueue, hhold, hcalls, hsame⟩ :=
      h.settles_consumer layoutOf
    have hplace := hmiddle.placed h
    by_cases hdone : middle.flushQueue = [] ∧ middle.serializerPhase = .looking ∧
        middle.buffersProcessed = false
    · exact ⟨middle, hmiddle, hdone.1, hdone.2.1, hdone.2.2, hqueue, hhold, hcalls⟩
    · obtain ⟨action, next, hbg, hstep, hless⟩ :=
        hplace.advances layoutOf hbuffers hhold hqueue hdone
      obtain ⟨final, hfinal, hdrained⟩ :=
        ih _ (by omega) (hplace.move (step_move hstep)) rfl
      exact ⟨final, hmiddle.trans (hfinal.head action hbg hstep), hdrained⟩

end LogPipeline

end Terrier
