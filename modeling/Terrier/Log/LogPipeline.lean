import Terrier.Log.LogRecord
import Terrier.Log.LogWriter

/-!
How log records get to the log file. Transactions hand segments to the flush queue; the serializer
writes the records to log buffers and hands those over with the commit callbacks; the disk log
consumer flushes them, and runs the callbacks once the file is persisted. Each access to a shared
queue is a step.
-/

namespace Terrier

/-- A record in a redo buffer. A transaction is known by its begin timestamp,
which also stands for its commit callback. -/
structure LogEntry where
  image : RecordImage
  isReadOnly : Bool
  deriving DecidableEq, Repr

inductive SerializerTask where
  | write (data : List UInt8)
  | callback (txn : UInt64)
  deriving DecidableEq, Repr

namespace LogEntry

def txn (e : LogEntry) : UInt64 := e.image.txnBegin

def values (layoutOf : UInt64 → BlockLayout) (e : LogEntry) : List (List UInt8) :=
  serializeRecord layoutOf e.image

/-- The commit record of a transaction is serialized unless the transaction is
read-only, and its callback is noted in either case. -/
def tasks (layoutOf : UInt64 → BlockLayout) (e : LogEntry) : List SerializerTask :=
  match e.image.body with
  | .commit _ _ =>
    (if e.isReadOnly then [] else (e.values layoutOf).map .write) ++ [.callback e.txn]
  | .abort => (e.values layoutOf).map .write
  | .redo _ _ _ _ => (e.values layoutOf).map .write
  | .delete _ _ _ => (e.values layoutOf).map .write

end LogEntry

structure EntryBuffer where
  bufferSeg : Option (List LogEntry)
  hasFlushed : Bool
  deriving DecidableEq, Repr

namespace EntryBuffer

def init : EntryBuffer := ⟨none, false⟩

def hasBytesLeft (segment : List LogEntry) (size : Nat) : Bool :=
  decide ((segment.map (·.image.size)).sum + size ≤ bufferSegmentSize)

/-- `RedoBuffer::NewEntry`, with the segment that it hands to the flush queue. -/
def newEntry (b : EntryBuffer) (e : LogEntry) : EntryBuffer × List (List LogEntry) :=
  match b.bufferSeg with
  | none => ({ b with bufferSeg := some [e] }, [])
  | some segment =>
    if hasBytesLeft segment e.image.size then ({ b with bufferSeg := some (segment ++ [e]) }, [])
    else (⟨some [e], true⟩, [segment])

def finalize (b : EntryBuffer) : EntryBuffer × List (List LogEntry) :=
  match b.bufferSeg with
  | none => (b, [])
  | some segment => (⟨none, true⟩, [segment])

def reset (b : EntryBuffer) : EntryBuffer :=
  { b with bufferSeg := b.bufferSeg.map fun _ => [] }

end EntryBuffer

/-- A transaction is committed once its last segment is handed over. -/
inductive TxnStatus where
  | active
  | committing
  | committed
  | aborted
  deriving DecidableEq, Repr

/-- Where `LogSerializerTask::Process` is: at the head of its loop, in it, or
behind it with a buffer to hand over. -/
inductive SerializerPhase where
  | looking
  | serializing
  | finishing
  deriving DecidableEq, Repr

/-- Where `DiskLogConsumerTaskLoop` is: in `WriteBuffersToLogFile`, behind it,
or in `PersistLogFile` after the call of `fsync`. -/
inductive ConsumerPhase where
  | writing
  | written
  | persisting
  deriving DecidableEq, Repr

/-- `persisted` is how much of the file the last `fsync` covered, `ran` are the callbacks that
were run. The last two fields only record: what each transaction staged, and the records that the
serializer began. -/
structure LogPipeline where
  status : UInt64 → TxnStatus
  redoBuffer : UInt64 → EntryBuffer
  flushQueue : List (List LogEntry)
  serializerPhase : SerializerPhase
  buffersProcessed : Bool
  tempFlushQueue : List (List LogEntry)
  pending : List SerializerTask
  serializer : Serializer UInt64
  emptyBuffers : Nat
  consumerPhase : ConsumerPhase
  holding : Option (Option (List UInt8) × List UInt64)
  file : List UInt8
  persisted : Nat
  commitCallbacks : List UInt64
  ran : List UInt64
  staged : UInt64 → List LogEntry
  started : List LogEntry

inductive PipelineAction where
  | stage (image : RecordImage)
  | commit (txn commitTime oldestActiveTxn : UInt64) (isReadOnly : Bool)
  | abort (txn : UInt64)
  | finalize (txn : UInt64)
  | grabFlushQueue
  | breakLoop
  | nextRecord
  | nextSegment
  | endSegments
  | takeEmptyBuffer
  | writeChunk
  | endWrite
  | noteCallback
  | handOver
  | dequeue
  | flush
  | endWriting
  | skipPersist
  | persist
  | runCallback
  | endPersist
  deriving DecidableEq, Repr

namespace LogPipeline

def init (numBuffers : Nat) : LogPipeline where
  status := fun _ => .active
  redoBuffer := fun _ => .init
  flushQueue := []
  serializerPhase := .looking
  buffersProcessed := false
  tempFlushQueue := []
  pending := []
  serializer := .init
  emptyBuffers := numBuffers
  consumerPhase := .writing
  holding := none
  file := []
  persisted := 0
  commitCallbacks := []
  ran := []
  staged := fun _ => []
  started := []

def setRedoBuffer (s : LogPipeline) (t : UInt64) (b : EntryBuffer)
    (flushed : List (List LogEntry)) : LogPipeline :=
  { s with
    redoBuffer := Function.update s.redoBuffer t b
    flushQueue := s.flushQueue ++ flushed }

def setStatus (s : LogPipeline) (t : UInt64) (status : TxnStatus) : LogPipeline :=
  { s with status := Function.update s.status t status }

def noteStaged (s : LogPipeline) (e : LogEntry) : LogPipeline :=
  { s with staged := Function.update s.staged e.txn (s.staged e.txn ++ [e]) }

/-- `NewEntry` on the buffer `b` of the transaction. -/
def newEntry (s : LogPipeline) (b : EntryBuffer) (e : LogEntry) (status : TxnStatus) :
    LogPipeline :=
  let (b, flushed) := b.newEntry e
  ((s.setRedoBuffer e.txn b flushed).noteStaged e).setStatus e.txn status

def stage (s : LogPipeline) (image : RecordImage) : LogPipeline :=
  s.newEntry (s.redoBuffer image.txnBegin) ⟨image, false⟩ .active

def commit (s : LogPipeline) (e : LogEntry) : LogPipeline :=
  s.newEntry (s.redoBuffer e.txn) e .committing

/-- `LogAbort`. The records that are still in the buffer are discarded. -/
def abort (s : LogPipeline) (t : UInt64) : LogPipeline :=
  if (s.redoBuffer t).hasFlushed then
    s.newEntry (s.redoBuffer t).reset ⟨.initializeRecord t .abort, false⟩ .aborted
  else (s.setRedoBuffer t ⟨none, false⟩ []).setStatus t .aborted

/-- `Finalize`, with which `LogCommit` and `LogAbort` end if a record was added. -/
def finalize (s : LogPipeline) (t : UInt64) : LogPipeline :=
  let (b, last) := (s.redoBuffer t).finalize
  (s.setRedoBuffer t b last).setStatus t
    (if s.status t = .committing then .committed else .aborted)

def isChange (image : RecordImage) : Bool :=
  match image.body with
  | .redo _ _ _ _ => true
  | .delete _ _ _ => true
  | .commit _ _ => false
  | .abort => false

/-- The steps of transactions, of the serializer and of the consumer. `GetCurrentWriteBuffer`
waits for an empty buffer; the loop of `WriteValue` calls it at the start and after each buffer
that it handed over. -/
def step (layoutOf : UInt64 → BlockLayout) (numBuffers : Nat) (s : LogPipeline) :
    PipelineAction → Option LogPipeline
  | .stage image =>
    if s.status image.txnBegin = .active ∧ isChange image = true then some (s.stage image)
    else none
  | .commit t commitTime oldestActiveTxn isReadOnly =>
    if s.status t = .active then
      some (s.commit ⟨.initializeRecord t (.commit commitTime oldestActiveTxn), isReadOnly⟩)
    else none
  | .abort t => if s.status t = .active then some (s.abort t) else none
  | .finalize t =>
    if s.status t = .committing ∨
        s.status t = .aborted ∧ (s.redoBuffer t).bufferSeg.isSome then some (s.finalize t)
    else none
  | .grabFlushQueue =>
    if s.serializerPhase = .looking ∧ s.flushQueue ≠ [] then
      some { s with
        serializerPhase := .serializing
        tempFlushQueue := s.flushQueue
        flushQueue := [] }
    else none
  | .breakLoop =>
    if s.serializerPhase = .looking ∧ s.flushQueue = [] ∧ s.buffersProcessed = true then
      some { s with serializerPhase := .finishing }
    else none
  | .nextRecord =>
    match s.serializerPhase, s.pending, s.tempFlushQueue with
    | .serializing, [], (e :: segment) :: segments =>
      some { s with
        tempFlushQueue := segment :: segments
        pending := e.tasks layoutOf
        started := s.started ++ [e] }
    | _, _, _ => none
  | .nextSegment =>
    match s.serializerPhase, s.pending, s.tempFlushQueue with
    | .serializing, [], [] :: segments => some { s with tempFlushQueue := segments }
    | _, _, _ => none
  | .endSegments =>
    match s.serializerPhase, s.pending, s.tempFlushQueue with
    | .serializing, [], [] =>
      some { s with serializerPhase := .looking, buffersProcessed := true }
    | _, _, _ => none
  | .takeEmptyBuffer =>
    match s.pending, s.serializer.filledBuffer, s.emptyBuffers with
    | .write _ :: _, none, n + 1 =>
      some { s with serializer := s.serializer.getCurrentWriteBuffer, emptyBuffers := n }
    | _, _, _ => none
  | .writeChunk =>
    match s.pending, s.serializer.filledBuffer with
    | .write (b :: data) :: tasks, some buffer =>
      let (filled, size) := bufferWrite buffer (b :: data)
      let written := { s.serializer with filledBuffer := some filled }
      some { s with
        pending := .write ((b :: data).drop size) :: tasks
        serializer :=
          if filled.length = logBufferSize then written.handFilledBufferToWriter
          else written }
    | _, _ => none
  | .endWrite =>
    match s.pending, s.serializer.filledBuffer with
    | .write [] :: tasks, some _ => some { s with pending := tasks }
    | _, _ => none
  | .noteCallback =>
    match s.pending with
    | .callback t :: tasks =>
      some { s with
        pending := tasks
        serializer := { s.serializer with
          commitsInBuffer := s.serializer.commitsInBuffer ++ [t] } }
    | _ => none
  | .handOver =>
    if s.serializerPhase = .finishing then
      some { s with
        serializerPhase := .looking
        buffersProcessed := false
        serializer := s.serializer.handFilledBufferToWriter }
    else none
  | .dequeue =>
    match s.consumerPhase, s.holding, s.serializer.filledBufferQueue with
    | .writing, none, logs :: queue =>
      some { s with
        holding := some logs
        serializer := { s.serializer with filledBufferQueue := queue } }
    | _, _, _ => none
  | .flush =>
    match s.holding with
    | some (buffer, callbacks) =>
      some { s with
        holding := none
        file := s.file ++ buffer.getD []
        commitCallbacks := s.commitCallbacks ++ callbacks
        emptyBuffers := s.emptyBuffers + buffer.toList.length }
    | none => none
  | .endWriting =>
    if s.consumerPhase = .writing ∧ s.holding = none ∧ s.serializer.filledBufferQueue = [] then
      some { s with consumerPhase := .written }
    else none
  | .skipPersist =>
    if s.consumerPhase = .written then some { s with consumerPhase := .writing } else none
  | .persist =>
    if s.consumerPhase = .written then
      some { s with
        consumerPhase := .persisting
        persisted := if numBuffers = 0 then s.persisted else s.file.length }
    else none
  | .runCallback =>
    match s.consumerPhase, s.commitCallbacks with
    | .persisting, t :: callbacks =>
      some { s with commitCallbacks := callbacks, ran := s.ran ++ [t] }
    | _, _ => none
  | .endPersist =>
    if s.consumerPhase = .persisting ∧ s.commitCallbacks = [] then
      some { s with consumerPhase := .writing }
    else none

def run (layoutOf : UInt64 → BlockLayout) (numBuffers : Nat) (s : LogPipeline) :
    List PipelineAction → Option LogPipeline
  | [] => some s
  | action :: actions =>
    (s.step layoutOf numBuffers action).bind fun next => next.run layoutOf numBuffers actions

/-- Nothing is left for the serializer or the consumer to do. -/
def IsDrained (s : LogPipeline) : Prop :=
  s.flushQueue = [] ∧ s.serializerPhase = .looking ∧ s.buffersProcessed = false ∧
    s.serializer.filledBufferQueue = [] ∧ s.holding = none ∧ s.commitCallbacks = []

end LogPipeline

def PipelineAction.isBackground : PipelineAction → Bool
  | .stage _ => false
  | .commit _ _ _ _ => false
  | .abort _ => false
  | .finalize _ => false
  | _ => true

end Terrier
