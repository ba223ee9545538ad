import Terrier.Log.LogWriter

/-!
Reading a log file. `BufferedLogReader` takes the file in pieces of the buffer's size and learns
from a shorter piece that it has reached the end. When a read falls short its result is not
looked at in a release build, and the rest of the destination keeps what was in memory.
-/

namespace Terrier

/-- `buffer` is the part of the buffer that was not read yet, `file` what is
left in the file behind the descriptor. -/
structure BufferedLogReader where
  isOpen : Bool
  buffer : List UInt8
  file : List UInt8
  deriving DecidableEq, Repr

namespace BufferedLogReader

def ofFile (file : List UInt8) : BufferedLogReader := ⟨true, [], file⟩

def hasMore (r : BufferedLogReader) : Bool := !r.buffer.isEmpty || r.isOpen

def readFromBuffer (r : BufferedLogReader) (size : Nat) : List UInt8 × BufferedLogReader :=
  (r.buffer.take size, { r with buffer := r.buffer.drop size })

/-- `RefillBuffer`. It is reached with an open file only, so it does not throw. -/
def refillBuffer (r : BufferedLogReader) : BufferedLogReader :=
  { isOpen := decide (logBufferSize ≤ r.file.length)
    buffer := r.file.take logBufferSize
    file := r.file.drop logBufferSize }

def readLoop : Nat → Nat → BufferedLogReader → List UInt8 → (List UInt8 × Bool) × BufferedLogReader
  | 0, _, r, got => ((got, false), r)
  | fuel + 1, left, r, got =>
    if left = 0 then ((got, true), r)
    else if r.hasMore then
      let readSize := min left r.buffer.length
      let filled := if readSize = 0 then r.refillBuffer else r
      let (bytes, next) := filled.readFromBuffer readSize
      readLoop fuel (left - readSize) next (got ++ bytes)
    else ((got, false), r)

/-- `BufferedLogReader::Read`. A round of the loop takes a byte or refills the
buffer, so the rounds are enough. -/
def read (size : Nat) (r : BufferedLogReader) : (List UInt8 × Bool) × BufferedLogReader :=
  if size ≤ r.buffer.length then
    let (bytes, next) := r.readFromBuffer size
    ((bytes, true), next)
  else readLoop (2 * size + 2) size r []

end BufferedLogReader

/-- The reader, and the memory that reads are made into: what a read does not
overwrite is found there. -/
structure DiskLogProvider where
  reader : BufferedLogReader
  memory : Nat → UInt8

namespace DiskLogProvider

def ofFile (file : List UInt8) (memory : Nat → UInt8) : DiskLogProvider := ⟨.ofFile file, memory⟩

/-- `Read`, with what the destination holds afterwards. -/
def source (size : Nat) (p : DiskLogProvider) : (List UInt8 × Bool) × DiskLogProvider :=
  let ((bytes, ok), reader) := p.reader.read size
  let missing := size - bytes.length
  ((bytes ++ (List.range missing).map p.memory, ok), ⟨reader, fun i => p.memory (missing + i)⟩)

end DiskLogProvider

inductive ScanEnd where
  | nullRecord
  | threw (error : ReadError)
  | outOfFuel
  deriving DecidableEq, Repr

/-- The records that `GetNextRecord` returned, how it came to an end, and
whether no `Read` returned false. -/
structure LogScan where
  records : List RecordImage
  ending : ScanEnd
  readsOk : Bool
  deriving DecidableEq, Repr

/-- Calling `GetNextRecord` until it returns no record or throws. -/
def DiskLogProvider.scan : Nat → DiskLogProvider → LogScan
  | 0, _ => ⟨[], .outOfFuel, true⟩
  | fuel + 1, p =>
    if p.reader.hasMore then
      match LogReader.readNextRecord.run source p with
      | (.error error, _, ok) => ⟨[], .threw error, ok⟩
      | (.ok record, next, ok) =>
        let rest := scan fuel next
        { rest with records := record :: rest.records, readsOk := ok && rest.readsOk }
    else ⟨[], .nullRecord, true⟩

/-- A scan of a file. There is a byte for each record, one more record can come
out of memory, and the last call returns no record. -/
def scanFile (file : List UInt8) (memory : Nat → UInt8) : LogScan :=
  (DiskLogProvider.ofFile file memory).scan (file.length + 2)

end Terrier
