import Mathlib.Tactic

/-!
The buffers of a connection. A buffer holds the bytes that were put into it and
the offset up to which they have been taken out again; what is sent to a client
is collected in a queue of such buffers.
-/

namespace Terrier.Network

inductive Transition
  | none
  | wakeup
  | proceed
  | needRead
  | needReadTimeout
  | needResult
  | terminate
  | needSslHandshake
  | needWrite
  deriving DecidableEq, Repr

def socketBufferCapacity : Nat := 8192

structure Buffer where
  content : List UInt8
  offset : Nat
  deriving DecidableEq, Repr

namespace Buffer

def size (b : Buffer) : Nat := b.content.length

def empty : Buffer := ⟨[], 0⟩

def skip (b : Buffer) (bytes : Nat) : Buffer := { b with offset := b.offset + bytes }

def hasMore (b : Buffer) (bytes : Nat := 1) : Bool := b.offset + bytes ≤ b.size

def remaining (b : Buffer) : List UInt8 := b.content.drop b.offset

@[simp] theorem remaining_empty : empty.remaining = [] := rfl

@[simp] theorem remaining_fresh (bytes : List UInt8) :
    (⟨bytes, 0⟩ : Buffer).remaining = bytes := List.drop_zero

theorem remaining_skip (b : Buffer) (bytes : Nat) :
    (b.skip bytes).remaining = b.remaining.drop bytes := by
  simp [remaining, skip, List.drop_drop]

theorem length_remaining (b : Buffer) : b.remaining.length = b.size - b.offset := by
  simp [remaining, size]

theorem hasMore_iff (b : Buffer) (bytes : Nat) (h : 0 < bytes) :
    b.hasMore bytes = true ↔ bytes ≤ b.remaining.length := by
  rw [hasMore, decide_eq_true_iff, length_remaining]
  omega

end Buffer

structure WriteQueue where
  buffers : List Buffer
  offset : Nat
  flush : Bool
  deriving DecidableEq, Repr

namespace WriteQueue

def reset : WriteQueue := ⟨[.empty], 0, false⟩

def flushHead (q : WriteQueue) : Option Nat :=
  if q.offset < q.buffers.length then some q.offset else Option.none

def markHeadFlushed (q : WriteQueue) : WriteQueue := { q with offset := q.offset + 1 }

def waiting (q : WriteQueue) : List Buffer := q.buffers.drop q.offset

/-- The bytes that are still to be sent. -/
def queued (q : WriteQueue) : List UInt8 := (q.waiting.map Buffer.remaining).flatten

/-- A queue in which buffers were filled and none has been flushed. -/
def filled (first : List UInt8) (others : List (List UInt8)) : WriteQueue :=
  ⟨⟨first, 0⟩ :: others.map fun bytes => ⟨bytes, 0⟩, 0, false⟩

end WriteQueue

end Terrier.Network
