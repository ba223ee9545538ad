import Terrier.Lib.FlushOrder
import Terrier.Lib.Runs
import Terrier.Log.LogPipeline

/-!
What holds in every interleaving of the log pipeline. What is in the file, in buffers and still to
be written is, one after another, what the serializer began. A callback never overtakes a buffer,
so up to each point of the pipeline the bytes cover the callbacks.
-/

namespace Terrier

open List Option SerializerTask Serializer

section Tasks

def SerializerTask.bytes : SerializerTask → List UInt8
  | .write data => data
  | .callback _ => []

def SerializerTask.callbacks : SerializerTask → List UInt64
  | .write _ => []
  | .callback t => [t]

def CallbackLast (tasks : List SerializerTask) : Prop :=
  ∀ before t after, tasks = before ++ .callback t :: after → after = []

theorem CallbackLast.tail {task : SerializerTask} {tasks : List SerializerTask}
    (h : CallbackLast (task :: tasks)) : CallbackLast tasks := by
  intro before t after heq
  exact h (task :: before) t after (by rw [heq]; rfl)

theorem CallbackLast.write {data data' : List UInt8} {tasks : List SerializerTask}
    (h : CallbackLast (.write data :: tasks)) : CallbackLast (.write data' :: tasks) := by
  intro before t after heq
  cases before with
  | nil => cases heq
  | cons first before =>
    obtain ⟨-, htail⟩ := List.cons.inj heq
    exact h.tail before t after htail

namespace LogEntry

/-- The transaction whose callback the entry carries. -/
def commitOf (e : LogEntry) : Option UInt64 :=
  match e.image.body with
  | .commit _ _ => some e.txn
  | .abort => none
  | .redo _ _ _ _ => none
  | .delete _ _ _ => none

def bytes (layoutOf : UInt64 → BlockLayout) (e : LogEntry) : List UInt8 :=
  (e.tasks layoutOf).flatMap SerializerTask.bytes

theorem commitOf_eq_some {e : LogEntry} {t : UInt64} (h : e.commitOf = some t) : e.txn = t := by
  unfold commitOf at h
  split at h
  · exact Option.some.inj h
  all_goals cases h

theorem tasks_callbacks (layoutOf : UInt64 → BlockLayout) (e : LogEntry) :
    (e.tasks layoutOf).flatMap SerializerTask.callbacks = e.commitOf.toList := by
  have hwr : ∀ values : List (List UInt8), (values.map write).flatMap callbacks = [] := by
    intro values
    simp [flatMap_map, callbacks]
  unfold tasks commitOf
  cases e.image.body with
  | commit commitTime oldest =>
    rw [flatMap_append]
    split
    · rfl
    · rw [hwr]
      rfl
  | abort | redo db table slot delta | delete db table slot => exact hwr _

theorem tasks_callbackLast (layoutOf : UInt64 → BlockLayout) (e : LogEntry) :
    CallbackLast (e.tasks layoutOf) := by
  have hnone : ∀ (values : List (List UInt8)) before t after,
      values.map write ≠ before ++ .callback t :: after := by
    intro values before t after heq
    have hmem : callback t ∈ values.map write := by
      rw [heq]
      simp
    obtain ⟨data, -, hdata⟩ := List.mem_map.mp hmem
    cases hdata
  have hcom : ∀ (values : List (List UInt8)) t,
      CallbackLast (values.map write ++ [.callback t]) := by
    intro values t before t' after heq
    rcases append_eq_append_iff.mp heq with ⟨middle, -, htail⟩ | ⟨middle, hvals, htail⟩
    · cases middle with
      | nil => exact (List.cons.inj htail).2.symm
      | cons first middle =>
        obtain ⟨-, hnil⟩ := List.cons.inj htail
        exact absurd hnil (by simp)
    · cases middle with
      | nil => exact (List.cons.inj htail).2
      | cons first middle =>
        obtain ⟨rfl, -⟩ := List.cons.inj htail
        exact absurd hvals (hnone _ _ _ _)
  intro before t after heq
  unfold tasks at heq
  cases hbody : e.image.body with
  | commit commitTime oldest =>
    simp only [hbody] at heq
    split at heq
    · exact hcom [] _ before t after heq
    · exact hcom _ _ before t after heq
  | abort | redo db table slot delta | delete db table slot =>
    simp only [hbody] at heq
    exact absurd heq (hnone _ _ _ _)

end LogEntry

end Tasks

namespace LogPipeline

inductive Move (layoutOf : UInt64 → BlockLayout) (numBuffers : Nat) (s : LogPipeline) :
    LogPipeline → Prop
  | stage (image : RecordImage) (hactive : s.status image.txnBegin = .active)
      (hchange : isChange image = true) : Move layoutOf numBuffers s (s.stage image)
  | commit (t commitTime oldest : UInt64) (isReadOnly : Bool) (hactive : s.status t = .active) :
      Move layoutOf numBuffers s
        (s.commit ⟨.initializeRecord t (.commit commitTime oldest), isReadOnly⟩)
  | abort (t : UInt64) (hactive : s.status t = .active) : Move layoutOf numBuffers s (s.abort t)
  | finalize (t : UInt64) (hended : s.status t = .committing ∨ s.status t = .aborted) :
      Move layoutOf numBuffers s (s.finalize t)
  | grab (hphase : s.serializerPhase = .looking) : Move layoutOf numBuffers s
        { s with
          serializerPhase := .serializing, tempFlushQueue := s.flushQueue, flushQueue := [] }
  | serializerPhase (p : SerializerPhase) (b : Bool)
      (hidle : s.serializerPhase ≠ .serializing ∨ s.pending = [] ∧ s.tempFlushQueue = [])
      (hfresh : p = .looking → b = true) :
      Move layoutOf numBuffers s { s with serializerPhase := p, buffersProcessed := b }
  | consumerPhase (c : ConsumerPhase) (hc : c ≠ .persisting)
      (hheld : s.holding = none ∨ c = .writing) :
      Move layoutOf numBuffers s { s with consumerPhase := c }
  | nextRecord (e : LogEntry) (segment : List LogEntry) (segments : List (List LogEntry))
      (hpending : s.pending = []) (htemp : s.tempFlushQueue = (e :: segment) :: segments) :
      Move layoutOf numBuffers s
        { s with
          tempFlushQueue := segment :: segments, pending := e.tasks layoutOf
          started := s.started ++ [e] }
  | nextSegment (segments : List (List LogEntry)) (htemp : s.tempFlushQueue = [] :: segments) :
      Move layoutOf numBuffers s { s with tempFlushQueue := segments }
  | takeEmptyBuffer (n : Nat) (hpending : s.pending ≠ [])
      (hbuffer : s.serializer.filledBuffer = none) (hempty : s.emptyBuffers = n + 1) :
      Move layoutOf numBuffers s
        { s with serializer := s.serializer.getCurrentWriteBuffer, emptyBuffers := n }
  | write (buffer data rest : List UInt8) (tasks : List SerializerTask)
      (hpending : s.pending = .write (data ++ rest) :: tasks)
      (hbuffer : s.serializer.filledBuffer = some buffer)
      (hroom : buffer.length < logBufferSize → (buffer ++ data).length < logBufferSize) :
      Move layoutOf numBuffers s
        { s with
          pending := .write rest :: tasks
          serializer := { s.serializer with filledBuffer := some (buffer ++ data) } }
  | writeAndHandOver (buffer data rest : List UInt8) (tasks : List SerializerTask)
      (hpending : s.pending = .write (data ++ rest) :: tasks)
      (hbuffer : s.serializer.filledBuffer = some buffer) :
      Move layoutOf numBuffers s
        { s with
          pending := .write rest :: tasks
          serializer := Serializer.handFilledBufferToWriter
            { s.serializer with filledBuffer := some (buffer ++ data) } }
  | endWrite (tasks : List SerializerTask) (hpending : s.pending = .write [] :: tasks) :
      Move layoutOf numBuffers s { s with pending := tasks }
  | noteCallback (t : UInt64) (tasks : List SerializerTask)
      (hpending : s.pending = .callback t :: tasks) :
      Move layoutOf numBuffers s
        { s with
          pending := tasks
          serializer := { s.serializer with
            commitsInBuffer := s.serializer.commitsInBuffer ++ [t] } }
  | handOver (hphase : s.serializerPhase = .finishing) : Move layoutOf numBuffers s
        { s with
          serializerPhase := .looking, buffersProcessed := false
          serializer := s.serializer.handFilledBufferToWriter }
  | dequeue (logs : Option (List UInt8) × List UInt64)
      (queue : List (Option (List UInt8) × List UInt64)) (hphase : s.consumerPhase = .writing)
      (hholding : s.holding = none) (hqueue : s.serializer.filledBufferQueue = logs :: queue) :
      Move layoutOf numBuffers s
        { s with
          holding := some logs, serializer := { s.serializer with filledBufferQueue := queue } }
  | flush (buffer : Option (List UInt8)) (callbacks : List UInt64)
      (hholding : s.holding = some (buffer, callbacks)) :
      Move layoutOf numBuffers s
        { s with
          holding := none, file := s.file ++ buffer.getD []
          commitCallbacks := s.commitCallbacks ++ callbacks
          emptyBuffers := s.emptyBuffers + buffer.toList.length }
  | persist (hphase : s.consumerPhase = .written) : Move layoutOf numBuffers s
        { s with
          consumerPhase := .persisting
          persisted := if numBuffers = 0 then s.persisted else s.file.length }
  | runCallback (t : UInt64) (callbacks : List UInt64) (hphase : s.consumerPhase = .persisting)
      (hcallbacks : s.commitCallbacks = t :: callbacks) :
      Move layoutOf numBuffers s { s with commitCallbacks := callbacks, ran := s.ran ++ [t] }

theorem step_move {layoutOf : UInt64 → BlockLayout} {numBuffers : Nat} {s s' : LogPipeline}
    {action : PipelineAction} (h : s.step layoutOf numBuffers action = some s') :
    Move layoutOf numBuffers s s' := by
  cases action with
  | stage image =>
    obtain ⟨hguard, rfl⟩ := Runs.of_guard h
    exact .stage image hguard.1 hguard.2
  | commit t commitTime oldest isReadOnly =>
    obtain ⟨hguard, rfl⟩ := Runs.of_guard h
    exact .commit t commitTime oldest isReadOnly hguard
  | abort t =>
    obtain ⟨hguard, rfl⟩ := Runs.of_guard h
    exact .abort t hguard
  | finalize t =>
    obtain ⟨hguard, rfl⟩ := Runs.of_guard h
    exact .finalize t (hguard.imp_right And.left)
  | grabFlushQueue =>
    obtain ⟨hguard, rfl⟩ := Runs.of_guard h
    exact .grab hguard.1
  | breakLoop =>
    obtain ⟨hguard, rfl⟩ := Runs.of_guard h
    exact .serializerPhase .finishing s.buffersProcessed (.inl (by simp [hguard.1]))
      (fun hp => by cases hp)
  | nextRecord =>
    rw [step] at h
    split at h
    case h_1 e segment segments hphase hpend htemp =>
      cases h
      exact .nextRecord e segment segments hpend htemp
    case h_2 => cases h
  | nextSegment =>
    rw [step] at h
    split at h
    case h_1 segments hphase hpend htemp =>
      cases h
      exact .nextSegment segments htemp
    case h_2 => cases h
  | endSegments =>
    rw [step] at h
    split at h
    case h_1 hphase hpend htemp =>
      cases h
      exact .serializerPhase .looking true (.inr ⟨hpend, htemp⟩) (fun _ => rfl)
    case h_2 => cases h
  | takeEmptyBuffer =>
    rw [step] at h
    split at h
    case h_1 data tasks n hpend hbuf hempty =>
      cases h
      exact .takeEmptyBuffer n (by simp [hpend]) hbuf hempty
    case h_2 => cases h
  | writeChunk =>
    rw [step] at h
    split at h
    case h_1 b data tasks buffer hpend hbuf =>
      obtain ⟨size, hwrite, -, hsize, -⟩ := bufferWrite_eq buffer (b :: data)
      rw [hwrite] at h
      have hdata : s.pending =
          .write ((b :: data).take size ++ (b :: data).drop size) :: tasks := by
        rw [take_append_drop, hpend]
      cases h
      by_cases hfull : (buffer ++ (b :: data).take size).length = logBufferSize
      · simp only [hfull, if_true]
        exact .writeAndHandOver buffer _ _ tasks hdata hbuf
      · simp only [hfull, if_false]
        refine .write buffer _ _ tasks hdata hbuf (fun hroom => ?_)
        have htaken : ((b :: data).take size).length ≤ size := length_take_le _ _
        rw [length_append] at hfull ⊢
        omega
    case h_2 => cases h
  | endWrite =>
    rw [step] at h
    split at h
    case h_1 tasks buffer hpend hbuf =>
      cases h
      exact .endWrite tasks hpend
    case h_2 => cases h
  | noteCallback =>
    rw [step] at h
    split at h
    case h_1 t tasks hpend =>
      cases h
      exact .noteCallback t tasks hpend
    case h_2 => cases h
  | handOver =>
    obtain ⟨hguard, rfl⟩ := Runs.of_guard h
    exact .handOver hguard
  | dequeue =>
    rw [step] at h
    split at h
    case h_1 logs queue hphase hhold hqueue =>
      cases h
      exact .dequeue logs queue hphase hhold hqueue
    case h_2 => cases h
  | flush =>
    rw [step] at h
    split at h
    case h_1 buffer callbacks hhold =>
      cases h
      exact .flush buffer callbacks hhold
    case h_2 => cases h
  | endWriting =>
    obtain ⟨hguard, rfl⟩ := Runs.of_guard h
    exact .consumerPhase .written (by decide) (.inl hguard.2.1)
  | skipPersist | endPersist =>
    obtain ⟨hguard, rfl⟩ := Runs.of_guard h
    exact .consumerPhase .writing (by decide) (.inr rfl)
  | persist =>
    obtain ⟨hguard, rfl⟩ := Runs.of_guard h
    exact .persist hguard
  | runCallback =>
    rw [step] at h
    split at h
    case h_1 t callbacks hphase hcalls =>
      cases h
      exact .runCallback t callbacks hphase hcalls
    case h_2 => cases h

/-- Log buffers with their callbacks, the oldest first: the one that is being
flushed, those in the queue, and the one that is being filled. -/
def buffers (s : LogPipeline) : List (List UInt8 × List UInt64) :=
  (s.holding.toList ++ s.serializer.filledBufferQueue).map (fun logs => (logs.1.getD [], logs.2)) ++
    [(s.serializer.filledBuffer.getD [], s.serializer.commitsInBuffer)]

structure Flows (layoutOf : UInt64 → BlockLayout) (s : LogPipeline) : Prop where
  flowing : FlushOrder.Flowing (LogEntry.bytes layoutOf) LogEntry.commitOf s.file
    (s.ran ++ s.commitCallbacks) s.buffers (s.pending.flatMap SerializerTask.bytes)
    (s.pending.flatMap SerializerTask.callbacks) s.started
  callbackLast : CallbackLast s.pending

variable {layoutOf : UInt64 → BlockLayout} {numBuffers : Nat} {s s' : LogPipeline}

theorem Flows.init : (init numBuffers).Flows layoutOf :=
  ⟨FlushOrder.Flowing.init, fun before t after heq => by simp [LogPipeline.init] at heq⟩

theorem Flows.congr (h : s.Flows layoutOf) (hfile : s'.file = s.file)
    (hran : s'.ran = s.ran) (hcalls : s'.commitCallbacks = s.commitCallbacks)
    (hhold : s'.holding = s.holding) (hserializer : s'.serializer = s.serializer)
    (hpend : s'.pending = s.pending) (hstarted : s'.started = s.started) :
    s'.Flows layoutOf := by
  refine ⟨?_, by rw [hpend]; exact h.callbackLast⟩
  have hbuffers : s'.buffers = s.buffers := by simp only [buffers, hhold, hserializer]
  rw [hfile, hran, hcalls, hbuffers, hpend, hstarted]
  exact h.flowing

theorem abort_serializer (s : LogPipeline) (t : UInt64) :
    (s.abort t).file = s.file ∧ (s.abort t).ran = s.ran ∧
      (s.abort t).commitCallbacks = s.commitCallbacks ∧ (s.abort t).holding = s.holding ∧
      (s.abort t).serializer = s.serializer ∧ (s.abort t).pending = s.pending ∧
      (s.abort t).started = s.started := by
  unfold abort
  split
  · exact ⟨rfl, rfl, rfl, rfl, rfl, rfl, rfl⟩
  · exact ⟨rfl, rfl, rfl, rfl, rfl, rfl, rfl⟩

theorem Flows.move (h : s.Flows layoutOf) (hmove : Move layoutOf numBuffers s s') :
    s'.Flows layoutOf := by
  have hflow := h.flowing
  have hlast := h.callbackLast
  cases hmove with
  | stage image | commit t commitTime oldest isReadOnly | finalize t | grab | serializerPhase
  | consumerPhase | nextSegment | persist => exact h.congr rfl rfl rfl rfl rfl rfl rfl
  | abort t =>
    obtain ⟨hfile, hran, hcalls, hhold, hserializer, hpend, hstarted⟩ :=
      s.abort_serializer t
    exact h.congr hfile hran hcalls hhold hserializer hpend hstarted
  | nextRecord e segment segments hpend htemp =>
    rw [hpend] at hflow
    refine ⟨?_, e.tasks_callbackLast layoutOf⟩
    simp only [LogEntry.tasks_callbacks]
    exact hflow.begin e
  | takeEmptyBuffer => exact ⟨hflow, hlast⟩
  | write buffer data rest tasks hpend hbuf hroom =>
    simp only [hpend, flatMap_cons, bytes, callbacks,
      append_assoc, buffers, hbuf, getD_some] at hflow hlast
    exact ⟨hflow.write, hlast.write⟩
  | writeAndHandOver buffer data rest tasks hpend hbuf =>
    simp only [hpend, flatMap_cons, bytes, callbacks,
      append_assoc, buffers, hbuf, getD_some] at hflow hlast
    refine ⟨?_, hlast.write⟩
    have hhand := hflow.write.handOver
    simpa [buffers, handFilledBufferToWriter, bytes, callbacks] using hhand
  | endWrite tasks hpend =>
    rw [hpend] at hflow hlast
    exact ⟨hflow, hlast.tail⟩
  | noteCallback t tasks hpend =>
    obtain rfl : tasks = [] := hlast [] t tasks hpend
    rw [hpend] at hflow
    refine ⟨hflow.note, ?_⟩
    intro before t after heq
    simp at heq
  | handOver hphase =>
    have hhand := hflow.handOver
    refine ⟨?_, hlast⟩
    simpa [buffers, handFilledBufferToWriter] using hhand
  | dequeue logs queue hphase hhold hqueue =>
    refine ⟨?_, hlast⟩
    simpa [buffers, hhold, hqueue] using hflow
  | flush buffer callbacks hhold =>
    rw [buffers, hhold] at hflow
    have hflush := hflow.flush
    refine ⟨?_, hlast⟩
    simpa [buffers] using hflush
  | runCallback t callbacks hphase hcalls =>
    rw [hcalls] at hflow
    refine ⟨?_, hlast⟩
    simpa [buffers] using hflow

def usedBuffers (s : LogPipeline) : Nat :=
  s.holding.toList.countP (·.1.isSome) + s.serializer.filledBufferQueue.countP (·.1.isSome) +
    s.serializer.filledBuffer.toList.length

structure Placed (numBuffers : Nat) (s : LogPipeline) : Prop where
  idle : s.serializerPhase ≠ .serializing → s.pending = [] ∧ s.tempFlushQueue = []
  fresh : s.serializerPhase = .looking → s.buffersProcessed = false →
    s.serializer.filledBuffer = none ∧ s.serializer.commitsInBuffer = []
  held : s.holding ≠ none → s.consumerPhase = .writing
  counted : s.emptyBuffers + s.usedBuffers = numBuffers
  room : ∀ buffer, s.serializer.filledBuffer = some buffer → buffer.length < logBufferSize
  noFile : numBuffers = 0 → s.file = []
  persisted_le : s.persisted ≤ s.file.length
  persisted_eq : s.consumerPhase = .persisting → s.persisted = s.file.length

theorem Placed.init : (init numBuffers).Placed numBuffers := by
  refine ⟨fun _ => ⟨rfl, rfl⟩, fun _ _ => ⟨rfl, rfl⟩, fun h => absurd rfl h, rfl,
    fun buffer hbuf => ?_, fun _ => rfl, Nat.le_refl 0, fun _ => rfl⟩
  cases hbuf

theorem Placed.congr (h : s.Placed numBuffers) (hphase : s'.serializerPhase = s.serializerPhase)
    (hproc : s'.buffersProcessed = s.buffersProcessed)
    (htemp : s'.tempFlushQueue = s.tempFlushQueue) (hpend : s'.pending = s.pending)
    (hserializer : s'.serializer = s.serializer) (hempty : s'.emptyBuffers = s.emptyBuffers)
    (hconsumer : s'.consumerPhase = s.consumerPhase) (hhold : s'.holding = s.holding)
    (hfile : s'.file = s.file) (hpersisted : s'.persisted = s.persisted) :
    s'.Placed numBuffers := by
  obtain ⟨idle, fresh, held, counted, room, noFile, persisted_le, persisted_eq⟩ := h
  refine ⟨?_, ?_, ?_, ?_, ?_, ?_, ?_, ?_⟩
  · rwa [hphase, hpend, htemp]
  · rwa [hphase, hproc, hserializer]
  · rwa [hhold, hconsumer]
  · rwa [usedBuffers, hempty, hhold, hserializer]
  · rwa [hserializer]
  · rwa [hfile]
  · rwa [hpersisted, hfile]
  · rwa [hconsumer, hpersisted, hfile]

theorem Placed.serializing (h : s.Placed numBuffers) (hpend : s.pending ≠ []) :
    s.serializerPhase = .serializing := by
  by_contra hphase
  exact hpend (h.idle hphase).1

theorem Placed.move (h : s.Placed numBuffers) (hmove : Move layoutOf numBuffers s s') :
    s'.Placed numBuffers := by
  have hcount := h.counted
  cases hmove with
  | stage image | commit t commitTime oldest isReadOnly | finalize t =>
    exact h.congr rfl rfl rfl rfl rfl rfl rfl rfl rfl rfl
  | abort t =>
    unfold abort
    split
    · exact h.congr rfl rfl rfl rfl rfl rfl rfl rfl rfl rfl
    · exact h.congr rfl rfl rfl rfl rfl rfl rfl rfl rfl rfl
  | grab hphase =>
    exact { h with
      idle := fun hne => absurd rfl hne
      fresh := fun hlooking => by cases hlooking }
  | serializerPhase p b hidle hfresh =>
    have hnothing : s.pending = [] ∧ s.tempFlushQueue = [] := hidle.elim h.idle id
    exact { h with
      idle := fun _ => hnothing
      fresh := fun hp hb => absurd (hfresh hp) (Bool.eq_false_iff.mp hb) }
  | consumerPhase c hc hheld =>
    exact { h with
      held := fun hne => hheld.resolve_left hne
      persisted_eq := fun hpersisting => absurd hpersisting hc }
  | nextRecord e segment segments hpend htemp =>
    have hser : s.serializerPhase = .serializing := by
      by_contra hphase
      simp [(h.idle hphase).2] at htemp
    exact { h with
      idle := fun hne => absurd hser hne
      fresh := fun hlooking => by simp [hser] at hlooking }
  | nextSegment segments htemp =>
    exact { h with idle := fun hne => by simp [(h.idle hne).2] at htemp }
  | takeEmptyBuffer n hpend hbuf hempty =>
    have hser := h.serializing hpend
    exact { h with
      fresh := fun hlooking => by simp [hser] at hlooking
      counted := by
        simp only [usedBuffers, hbuf, hempty, toList_none, length_nil] at hcount
        simp only [usedBuffers, getCurrentWriteBuffer, toList_some, length_singleton]
        omega
      room := fun buffer hnew => by
        simp only [getCurrentWriteBuffer, hbuf, getD_none, Option.some.injEq] at hnew
        subst hnew
        decide }
  | write buffer data rest tasks hpend hbuf hroom =>
    have hser := h.serializing (by simp [hpend])
    exact { h with
      idle := fun hne => absurd hser hne
      fresh := fun hlooking => by simp [hser] at hlooking
      counted := by simpa [usedBuffers, hbuf] using hcount
      room := fun filled hfill => by
        cases hfill
        exact hroom (h.room buffer hbuf) }
  | writeAndHandOver buffer data rest tasks hpend hbuf =>
    have hser := h.serializing (by simp [hpend])
    exact { h with
      idle := fun hne => absurd hser hne
      fresh := fun hlooking => by simp [hser] at hlooking
      counted := by
        simpa [usedBuffers, hbuf, handFilledBufferToWriter, countP_append,
          Nat.add_assoc] using hcount
      room := fun filled hfill => by cases hfill }
  | endWrite tasks hpend =>
    have hser := h.serializing (by simp [hpend])
    exact { h with
      idle := fun hne => absurd hser hne }
  | noteCallback t tasks hpend =>
    have hser := h.serializing (by simp [hpend])
    exact { h with
      idle := fun hne => absurd hser hne
      fresh := fun hlooking => by simp [hser] at hlooking }
  | handOver hphase =>
    exact { h with
      idle := fun _ => h.idle (by simp [hphase])
      fresh := fun _ _ => ⟨rfl, rfl⟩
      counted := by
        cases hbuf : s.serializer.filledBuffer <;>
          simpa [usedBuffers, hbuf, handFilledBufferToWriter, countP_append,
            Nat.add_assoc] using hcount
      room := fun filled hfill => by cases hfill }
  | dequeue logs queue hphase hhold hqueue =>
    exact { h with
      held := fun _ => hphase
      counted := by
        simp only [usedBuffers, hhold, hqueue, countP_cons, toList_none, countP_nil] at hcount
        simp only [usedBuffers, toList_some, countP_cons, countP_nil]
        omega }
  | flush buffer callbacks hhold =>
    have hphase := h.held (by simp [hhold])
    exact { h with
      held := fun hne => absurd rfl hne
      counted := by
        cases buffer <;> simp [usedBuffers, hhold] at hcount ⊢ <;> omega
      noFile := fun hzero => by
        have hnone : buffer = none := by
          cases buffer with
          | none => rfl
          | some bytes => simp [usedBuffers, hhold] at hcount; omega
        simp [h.noFile hzero, hnone]
      persisted_le := by
        have := h.persisted_le
        simp only [length_append]
        omega
      persisted_eq := fun hpersisting => by simp [hphase] at hpersisting }
  | persist hphase =>
    have hlen : (if numBuffers = 0 then s.persisted else s.file.length) = s.file.length := by
      split
      case isTrue hzero =>
        have := h.persisted_le
        rw [h.noFile hzero] at this ⊢
        exact Nat.le_zero.mp this
      case isFalse => rfl
    exact { h with
      held := fun hne => by
        have := h.held hne
        simp [hphase] at this
      persisted_le := hlen.le
      persisted_eq := fun _ => hlen }
  | runCallback t callbacks hphase hcalls => exact { h with }

structure Durable (layoutOf : UInt64 → BlockLayout) (s : LogPipeline) : Prop where
  ran : ∃ front back, s.started = front ++ back ∧
    front.flatMap (LogEntry.bytes layoutOf) <+: s.file.take s.persisted ∧
    ∀ t ∈ s.ran, t ∈ front.filterMap LogEntry.commitOf

theorem Durable.init : (init numBuffers).Durable layoutOf :=
  ⟨[], [], rfl, nil_prefix, by simp [LogPipeline.init]⟩

/-- Later the file, what was persisted of it and the records can only grow. -/
theorem Durable.mono (h : s.Durable layoutOf) (hran : s'.ran = s.ran)
    (hstarted : s.started <+: s'.started)
    (hpersisted : s.file.take s.persisted <+: s'.file.take s'.persisted) : s'.Durable layoutOf := by
  obtain ⟨front, back, hsplit, hbytes, hmarks⟩ := h.ran
  obtain ⟨more, hmore⟩ := hstarted
  refine ⟨front, back ++ more, ?_, hbytes.trans hpersisted, by rwa [hran]⟩
  rw [← hmore, hsplit, append_assoc]

theorem Durable.move (h : s.Durable layoutOf) (hflows : s.Flows layoutOf)
    (hplace : s.Placed numBuffers) (hmove : Move layoutOf numBuffers s s') :
    s'.Durable layoutOf := by
  cases hmove with
  | abort t =>
    have hfile : (s.abort t).file = s.file ∧ (s.abort t).persisted = s.persisted := by
      unfold abort
      split <;> exact ⟨rfl, rfl⟩
    obtain ⟨-, hran, -, -, -, -, hstarted⟩ := s.abort_serializer t
    exact h.mono hran (by rw [hstarted]) (by rw [hfile.1, hfile.2])
  | nextRecord e segment segments hpend htemp =>
    exact h.mono rfl (prefix_append _ _) prefix_rfl
  | flush buffer callbacks hhold =>
    refine h.mono rfl prefix_rfl ?_
    rw [take_append_of_le_length hplace.persisted_le]
  | persist hphase =>
    refine h.mono rfl prefix_rfl ?_
    split
    · exact prefix_rfl
    · rw [take_length]
      exact take_prefix _ _
  | runCallback t callbacks hphase hcalls =>
    obtain ⟨front, back, hsplit, hbytes, hmarks⟩ := hflows.flowing.flushed
    refine ⟨front, back, hsplit, ?_, fun t' ht' => ?_⟩
    · rwa [hplace.persisted_eq hphase, take_length]
    · rw [hmarks, hcalls]
      simp only [mem_append, mem_singleton] at ht'
      rcases ht' with hold | rfl
      · exact mem_append_left _ hold
      · simp
  | stage | commit | finalize | grab | serializerPhase | consumerPhase | nextSegment
  | takeEmptyBuffer | write | writeAndHandOver | endWrite | noteCallback | handOver | dequeue =>
    exact h.mono rfl prefix_rfl prefix_rfl

end LogPipeline

end Terrier
