import Terrier.Lib.BigEndian
import Terrier.Network.IoUtils

/-!
The buffer that a connection reads into, and the reading of what was sent. The memory behind the
filled part is not cleared; a read past it finds bytes that are given as an argument.
-/

namespace Terrier.Network

namespace Buffer

def full (b : Buffer) : Bool := b.size = socketBufferCapacity

def moveContentToHead (b : Buffer) : Buffer := ⟨b.remaining, 0⟩

def readValue (b : Buffer) (width : Nat) (memory : List UInt8) : Nat × Buffer :=
  (BigEndian.decode ((b.remaining ++ memory).take width), b.skip width)

def readIntoView (b : Buffer) (bytes : Nat) : List UInt8 × Buffer :=
  (b.remaining.take bytes, b.skip bytes)

/-- `ReadString`: it throws if there is no nul byte. -/
def readString (b : Buffer) : Option (List UInt8 × Buffer) :=
  if 0 ∈ b.remaining then
    let text := b.remaining.takeWhile (· ≠ 0)
    some (text, b.skip (text.length + 1))
  else none

end Buffer

/-- The answer to a read: `received n` stands for `n + 1` bytes, or for as many as there are and fit
if those are fewer. -/
inductive ReadResult
  | received (n : Nat)
  | eintr
  | eof
  | error
  deriving DecidableEq, Repr

/-- The loop of `FillReadBuffer`. The list holds the answers before the one that there is nothing to
read; a read that finds nothing has that answer, too. -/
def fillLoop (result : Transition) (b : Buffer) (stream : List UInt8) :
    List ReadResult → Transition × Buffer × List UInt8
  | [] => (result, b, stream)
  | answer :: rest =>
    if b.full then (result, b, stream)
    else
      match answer with
      | .received n =>
        let count := min (n + 1) (min (socketBufferCapacity - b.size) stream.length)
        if count = 0 then (result, b, stream)
        else
          fillLoop .proceed { b with content := b.content ++ stream.take count }
            (stream.drop count) rest
      | .eintr => fillLoop result b stream rest
      | .eof => (if result = .proceed then .proceed else .terminate, b, stream)
      | .error => (.terminate, b, stream)

def fillReadBuffer (b : Buffer) (stream : List UInt8) (answers : List ReadResult) :
    Transition × Buffer × List UInt8 :=
  let b := if b.hasMore then b else .empty
  let b := if b.hasMore && b.full then b.moveContentToHead else b
  fillLoop .needRead b stream answers

end Terrier.Network
