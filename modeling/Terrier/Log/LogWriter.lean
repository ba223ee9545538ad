import Terrier.Log.RecordImage

/-!
The buffers that the serializer writes to. `WriteValue` copies as much as fits and hands the
buffer over when it is full, so a value can end up in several buffers. Buffers travel with the
commit callbacks of the records finished since the last one.
-/

namespace Terrier

def logBufferSize : Nat := 4096

/-- `BufferedLogWriter::BufferWrite`, with the number of bytes it took. -/
def bufferWrite (buffer data : List UInt8) : List UInt8 × Nat :=
  let size :=
    if data.length ≤ logBufferSize - buffer.length then data.length
    else logBufferSize - buffer.length
  (buffer ++ data.take size, size)

theorem bufferWrite_eq (buffer data : List UInt8) : ∃ size,
    bufferWrite buffer data = (buffer ++ data.take size, size) ∧ size ≤ data.length ∧
      size ≤ logBufferSize - buffer.length ∧
      (data ≠ [] → buffer.length < logBufferSize → 0 < size) := by
  by_cases hall : data.length ≤ logBufferSize - buffer.length
  · exact ⟨data.length, by simp only [bufferWrite, if_pos hall], le_rfl, hall,
      fun hdata _ => List.length_pos_iff.mpr hdata⟩
  · exact ⟨logBufferSize - buffer.length, by simp only [bufferWrite, if_neg hall], by omega, le_rfl,
      fun _ hroom => by omega⟩

structure Serializer (κ : Type) where
  filledBuffer : Option (List UInt8)
  commitsInBuffer : List κ
  filledBufferQueue : List (Option (List UInt8) × List κ)
  deriving DecidableEq, Repr

namespace Serializer

variable {κ : Type}

def init : Serializer κ := ⟨none, [], []⟩

/-- Buffers in the queue of empty ones hold nothing. -/
def getCurrentWriteBuffer (s : Serializer κ) : Serializer κ :=
  { s with filledBuffer := some (s.filledBuffer.getD []) }

def handFilledBufferToWriter (s : Serializer κ) : Serializer κ :=
  { filledBuffer := none
    commitsInBuffer := []
    filledBufferQueue := s.filledBufferQueue ++ [(s.filledBuffer, s.commitsInBuffer)] }

/-- A round of the loop of `WriteValue`, with the bytes that are left. -/
def writeRound (s : Serializer κ) (data : List UInt8) : Serializer κ × List UInt8 :=
  let (buffer, size) := bufferWrite (s.filledBuffer.getD []) data
  let written := { s with filledBuffer := some buffer }
  (if buffer.length = logBufferSize then
      written.handFilledBufferToWriter.getCurrentWriteBuffer
    else written, data.drop size)

def writeRounds : Nat → Serializer κ → List UInt8 → Serializer κ
  | 0, s, _ => s
  | fuel + 1, s, data =>
    if data = [] then s
    else
      let (next, rest) := s.writeRound data
      writeRounds fuel next rest

/-- `LogSerializerTask::WriteValue`. Each round takes a byte at least. -/
def writeValue (s : Serializer κ) (data : List UInt8) : Serializer κ :=
  writeRounds data.length s.getCurrentWriteBuffer data

def serializeRecord (layoutOf : UInt64 → BlockLayout) (s : Serializer κ) (record : RecordImage) :
    Serializer κ :=
  (Terrier.serializeRecord layoutOf record).foldl writeValue s

end Serializer

def queuedBytes {κ : Type} (queue : List (Option (List UInt8) × List κ)) : List UInt8 :=
  queue.flatMap (·.1.getD [])

end Terrier
