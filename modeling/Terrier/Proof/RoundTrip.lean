import Terrier.Log.LogWriter
import Terrier.Proof.RecordCodec

/-!
A log that is written through buffers and read back. The buffers, one after another, hold the
values that were written, and the reader reads each record to its end and no further.
-/

namespace Terrier

open List

namespace Serializer

variable {κ : Type}

def written (s : Serializer κ) : List UInt8 :=
  queuedBytes s.filledBufferQueue ++ s.filledBuffer.getD []

def HasRoom (s : Serializer κ) : Prop :=
  (s.filledBuffer.getD []).length < logBufferSize

@[simp] theorem written_getCurrentWriteBuffer (s : Serializer κ) :
    s.getCurrentWriteBuffer.written = s.written := rfl

theorem HasRoom.getCurrentWriteBuffer {s : Serializer κ} (h : s.HasRoom) :
    s.getCurrentWriteBuffer.HasRoom := h

@[simp] theorem written_handFilledBufferToWriter (s : Serializer κ) :
    s.handFilledBufferToWriter.written = s.written := by
  simp [written, handFilledBufferToWriter, queuedBytes]

theorem hasRoom_handFilledBufferToWriter (s : Serializer κ) :
    s.handFilledBufferToWriter.HasRoom := by
  simp [HasRoom, handFilledBufferToWriter, logBufferSize]

section

variable {s : Serializer κ} (h : s.HasRoom)
include h

variable {data : List UInt8}

theorem HasRoom.writeRound (hdata : data ≠ []) {next : Serializer κ} {rest : List UInt8}
    (hround : s.writeRound data = (next, rest)) :
    next.HasRoom ∧ next.written ++ rest = s.written ++ data ∧ rest.length < data.length := by
  have hroom : (s.filledBuffer.getD []).length < logBufferSize := h
  obtain ⟨size, hbuf, hsmall, hfits, hsize⟩ := bufferWrite_eq (s.filledBuffer.getD []) data
  have hsize := hsize hdata hroom
  rw [Serializer.writeRound, hbuf] at hround
  obtain ⟨hnext, rfl⟩ := Prod.mk.inj hround
  have hwrit : next.written = s.written ++ data.take size := by
    have hall : written { s with filledBuffer := some (s.filledBuffer.getD [] ++ data.take size) } =
        s.written ++ data.take size := by
      simp [written]
    rw [← hnext]
    split
    · rw [written_getCurrentWriteBuffer, written_handFilledBufferToWriter, hall]
    · exact hall
  refine ⟨?_, ?_, by rw [length_drop]; omega⟩
  · rw [← hnext]
    split
    case isTrue => exact (hasRoom_handFilledBufferToWriter _).getCurrentWriteBuffer
    case isFalse hnotFull =>
      have hle : (s.filledBuffer.getD [] ++ data.take size).length ≤ logBufferSize := by
        rw [length_append, length_take]
        omega
      exact lt_of_le_of_ne hle hnotFull
  · rw [hwrit, append_assoc, take_append_drop]

theorem HasRoom.writeRounds {fuel : Nat} (hfuel : data.length ≤ fuel) :
    (writeRounds fuel s data).HasRoom ∧ (writeRounds fuel s data).written = s.written ++ data := by
  induction fuel generalizing s data with
  | zero =>
    obtain rfl : data = [] := length_eq_zero_iff.mp (by omega)
    exact ⟨h, by simp [Serializer.writeRounds]⟩
  | succ fuel ih =>
    rw [Serializer.writeRounds]
    split
    case isTrue hempty => exact ⟨h, by simp [hempty]⟩
    case isFalse hdata =>
      rcases hround : s.writeRound data with ⟨next, rest⟩
      obtain ⟨hnext, hwrit, hless⟩ := h.writeRound hdata hround
      rw [← hwrit]
      exact ih hnext (by omega)

theorem HasRoom.writeValue (data : List UInt8) :
    (s.writeValue data).HasRoom ∧ (s.writeValue data).written = s.written ++ data :=
  h.getCurrentWriteBuffer.writeRounds le_rfl

theorem HasRoom.writeValues (values : List (List UInt8)) :
    (values.foldl Serializer.writeValue s).HasRoom ∧
      (values.foldl Serializer.writeValue s).written = s.written ++ values.flatten := by
  induction values generalizing s with
  | nil => exact ⟨h, by simp⟩
  | cons data values ih =>
    obtain ⟨hroom, hwrit⟩ := h.writeValue data
    obtain ⟨hlast, hall⟩ := ih hroom
    exact ⟨hlast, by simpa [hwrit] using hall⟩

variable {layoutOf : UInt64 → BlockLayout}

def serializeRecords (s : Serializer κ) (records : List (StagedRecord layoutOf)) : Serializer κ :=
  records.foldl (fun s record => s.serializeRecord layoutOf record.image) s

theorem HasRoom.serializeRecords (records : List (StagedRecord layoutOf)) :
    (s.serializeRecords records).HasRoom ∧
      (s.serializeRecords records).written = s.written ++ records.flatMap StagedRecord.bytes := by
  induction records generalizing s with
  | nil => exact ⟨h, by simp [Serializer.serializeRecords]⟩
  | cons record records ih =>
    obtain ⟨hroom, hwrit⟩ := h.writeValues (Terrier.serializeRecord layoutOf record.image)
    obtain ⟨hlast, hall⟩ := ih hroom
    refine ⟨hlast, hall.trans ?_⟩
    rw [hwrit, append_assoc]
    rfl

end

end Serializer

/-- The log as `Process` leaves it: the last buffer is handed over as well. -/
def writtenLog {layoutOf : UInt64 → BlockLayout} (records : List (StagedRecord layoutOf)) :
    List UInt8 :=
  queuedBytes ((Serializer.init (κ := Unit)).serializeRecords
    records).handFilledBufferToWriter.filledBufferQueue

variable {layoutOf : UInt64 → BlockLayout}

theorem writtenLog_eq (records : List (StagedRecord layoutOf)) :
    writtenLog records = records.flatMap StagedRecord.bytes := by
  have hroom : (Serializer.init (κ := Unit)).HasRoom := by
    simp [Serializer.HasRoom, Serializer.init, logBufferSize]
  have hwrit := (hroom.serializeRecords records).2
  have hhand := Serializer.written_handFilledBufferToWriter
    ((Serializer.init (κ := Unit)).serializeRecords records)
  rw [hwrit] at hhand
  simpa [Serializer.written, Serializer.handFilledBufferToWriter, Serializer.init, queuedBytes,
    writtenLog] using hhand

def bytesSource (size : Nat) (input : List UInt8) : (List UInt8 × Bool) × List UInt8 :=
  ((input.take size, decide (size ≤ input.length)), input.drop size)

theorem bytesSource_serves : ByteReader.Serves bytesSource Eq := by
  intro input bytes left hinput
  simp [bytesSource, hinput]

theorem bytesSource_ok (input bytes left : List UInt8) (h : input = bytes ++ left) :
    (bytesSource bytes.length input).1.2 = true := by
  simp [bytesSource, h]

/-- Reading records while there are bytes. `none` means that bytes were missing
or no record was recognised. -/
def readRecords : Nat → List UInt8 → Option (List RecordImage)
  | 0, input => if input = [] then some [] else none
  | fuel + 1, input =>
    if input = [] then some []
    else
      match LogReader.readNextRecord.run bytesSource input with
      | (.ok record, rest, true) => (readRecords fuel rest).map (record :: ·)
      | _ => none

/-- Every record takes a byte at least. -/
def readLog (input : List UInt8) : Option (List RecordImage) :=
  readRecords input.length input

theorem StagedRecord.bytes_ne_nil (record : StagedRecord layoutOf) : record.bytes ≠ [] := by
  simp [StagedRecord.bytes, serializeRecord]

theorem readRecords_of_length_le {records : List (StagedRecord layoutOf)} {fuel : Nat}
    (hfuel : records.length ≤ fuel) : readRecords fuel (records.flatMap StagedRecord.bytes) =
      some (records.map StagedRecord.image) := by
  induction records generalizing fuel with
  | nil => cases fuel <;> rfl
  | cons record records ih =>
    obtain ⟨fuel, rfl⟩ : ∃ n, fuel = n + 1 := ⟨fuel - 1, by simp at hfuel; omega⟩
    have hreads := LogReader.readNextRecord_reads record
    obtain ⟨hvalue, hleft⟩ := ByteReader.run_of_reads bytesSource bytesSource_serves hreads
      (s := record.bytes ++ records.flatMap StagedRecord.bytes) rfl
    have hok := ByteReader.run_ok_of_reads bytesSource bytesSource_serves bytesSource_ok hreads
      (s := record.bytes ++ records.flatMap StagedRecord.bytes) rfl
    rw [flatMap_cons, readRecords, if_neg (by simp [record.bytes_ne_nil])]
    generalize LogReader.readNextRecord.run bytesSource _ = result at hvalue hleft hok
    obtain ⟨value, rest, ok⟩ := result
    obtain rfl : value = .ok record.image := hvalue
    obtain rfl : rest = records.flatMap StagedRecord.bytes := hleft
    obtain rfl : ok = true := hok
    simp [ih (Nat.le_of_succ_le_succ hfuel)]

theorem length_le_length_flatMap (records : List (StagedRecord layoutOf)) :
    records.length ≤ (records.flatMap StagedRecord.bytes).length := by
  induction records with
  | nil => simp
  | cons record records ih =>
    have hpos := length_pos_iff.mpr record.bytes_ne_nil
    rw [flatMap_cons, length_append, length_cons]
    omega

def StagedRecord.SizesRecomputed {layoutOf : UInt64 → BlockLayout}
    (record : StagedRecord layoutOf) : Prop :=
  match record.image.body with
  | .redo _ _ slot delta =>
    let sizes := delta.colIds.map fun id => (layoutOf slot).attrSize id.toNat
    (List.range delta.columns.length).map
      (attrSizeFromBoundaries (computeAttributeSizeBoundaries sizes)) = sizes
  | .delete _ _ _ => True
  | .commit _ _ => True
  | .abort => True

theorem StagedRecord.sizesRecomputed (record : StagedRecord layoutOf) : record.SizesRecomputed := by
  obtain ⟨⟨size, txnBegin, body⟩, hover, hsize⟩ := record
  cases body with
  | redo dbOid tableOid slot delta => exact Delta.Over.recomputed_sizes hover
  | delete dbOid tableOid slot => trivial
  | commit txnCommit oldestActiveTxn => trivial
  | abort => trivial

/-- A log of any records, over tables of any layouts, reads back as it was
written. -/
theorem log_round_trip (layoutOf : UInt64 → BlockLayout) (records : List (StagedRecord layoutOf)) :
    readLog (writtenLog records) = some (records.map StagedRecord.image) ∧
      ∀ record ∈ records, record.SizesRecomputed := by
  refine ⟨?_, fun record _ => record.sizesRecomputed⟩
  rw [writtenLog_eq, readLog]
  exact readRecords_of_length_le (length_le_length_flatMap records)

end Terrier
