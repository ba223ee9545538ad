import Terrier.Network.IoUtils

/-!
Reading from and writing to the socket of a connection. The answers of the operating system are a
list; a call takes one for each system call, and has no result when the list is too short.
-/

namespace Terrier.Network

/-- The answer to a write: `wrote n` stands for `n + 1` bytes, or for all that were offered if those
are fewer. -/
inductive WriteResult
  | wrote (n : Nat)
  | eintr
  | eagain
  | epipe
  | error
  deriving DecidableEq, Repr

structure Flush (σ : Type) where
  result : Except String Transition
  state : σ
  sent : List UInt8
  rest : List WriteResult

namespace Flush

variable {σ τ : Type}

/-- A call before which some bytes had been sent already. -/
def after (sent : List UInt8) (f : Flush σ) : Flush σ := { f with sent := sent ++ f.sent }

def map (g : σ → τ) (f : Flush σ) : Flush τ := ⟨f.result, g f.state, f.sent, f.rest⟩

/-- Whether the call returned `PROCEED`. -/
def proceeds (f : Flush σ) : Bool :=
  match f.result with
  | .ok .proceed => true
  | _ => false

def needsWrite (f : Flush σ) : Bool :=
  match f.result with
  | .ok .needWrite => true
  | _ => false

end Flush

/-- One `WriteOutTo`: as many bytes as the socket took are taken out of the buffer. -/
def Buffer.writeOut (b : Buffer) (n : Nat) : List UInt8 × Buffer :=
  let written := min (n + 1) (b.size - b.offset)
  (b.remaining.take written, b.skip written)

def flushWriteBuffer (b : Buffer) (schedule : List WriteResult) : Option (Flush Buffer) :=
  if b.hasMore then
    match schedule with
    | [] => none
    | .wrote n :: rest => (flushWriteBuffer (b.writeOut n).2 rest).map (.after (b.writeOut n).1)
    | .eintr :: rest => flushWriteBuffer b rest
    | .eagain :: rest => some ⟨.ok .needWrite, b, [], rest⟩
    | .epipe :: rest => some ⟨.ok .terminate, b, [], rest⟩
    | .error :: rest => some ⟨.error "Fatal error during write", b, [], rest⟩
  else
    some ⟨.ok .proceed, .empty, [], schedule⟩

/-- The loop of `FlushAllWrites`. The next head is fetched before the current one is marked. -/
def flushLoop : Nat → Option Nat → WriteQueue → List WriteResult → Option (Flush WriteQueue)
  | 0, _, _, _ => none
  | _ + 1, none, _, schedule => some ⟨.ok .proceed, .reset, [], schedule⟩
  | fuel + 1, some head, q, schedule => do
      let f ← flushWriteBuffer (q.buffers.getD head .empty) schedule
      let q := { q with buffers := q.buffers.set head f.state }
      if f.proceeds then
        (flushLoop fuel q.flushHead q.markHeadFlushed f.rest).map (.after f.sent)
      else
        some ⟨f.result, q, f.sent, f.rest⟩

/-- The first buffer is visited twice and the others once. -/
def flushAllWrites (q : WriteQueue) (schedule : List WriteResult) : Option (Flush WriteQueue) :=
  flushLoop (q.buffers.length + 2) q.flushHead q schedule

/-- `FlushAllWrites` called until it does not return `NEED_WRITE`. -/
def transmitLoop : Nat → WriteQueue → List WriteResult → Option (Flush WriteQueue)
  | 0, _, _ => none
  | fuel + 1, q, schedule => do
      let f ← flushAllWrites q schedule
      if f.needsWrite then (transmitLoop fuel f.state f.rest).map (.after f.sent) else some f

/-- Every call that is repeated has used up an answer. -/
def transmit (q : WriteQueue) (schedule : List WriteResult) : Option (Flush WriteQueue) :=
  transmitLoop (schedule.length + 1) q schedule

end Terrier.Network
