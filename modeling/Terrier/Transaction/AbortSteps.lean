import Terrier.Transaction.TransactionManager

/-!
`TransactionManager::Abort` in small steps. The slots are rolled back, the abort time is checked
out, and then each undo record gets its timestamp by a store of its own. Others begin and read
between the steps. Run without interruption the steps are `State.abort`.
-/

namespace Terrier

open List

variable {V : Type}

inductive Aborter where
  | rollback (rest : List Nat) (slotsRolledBack : List TupleSlot)
  | publish (abortTime : Nat) (rest : List Nat)
  | done

def abortStep (cfg : Config) (t : Nat) (txn : TransactionContext V) (σ : State V) :
    Aborter → State V × Aborter
  | .rollback (a :: rest) slotsRolledBack =>
    let (next, slots) := State.rollbackRecord txn.finishTime (σ, slotsRolledBack) a
    (next, .rollback rest slots)
  | .rollback [] _ => (σ.checkOutTimestamp, .publish σ.time txn.undoBuffer)
  | .publish abortTime (a :: rest) =>
    (σ.storeTimestamp (.time abortTime) a, .publish abortTime rest)
  | .publish abortTime [] =>
    ((σ.logAbort cfg t { txn with
      finishTime := .time abortTime, aborted := true }).pushCompleted t, .done)
  | .done => (σ, .done)

inductive AbortMove where
  | abort
  | begin

def abortMove (cfg : Config) (t : Nat) (txn : TransactionContext V)
    (s : State V × Aborter) : AbortMove → State V × Aborter
  | .abort => abortStep cfg t txn s.1 s.2
  | .begin => (s.1.beginTransaction, s.2)

/-- An abort from its first step on, interleaved with other transactions. -/
def interleave (cfg : Config) (t : Nat) (txn : TransactionContext V) (σ : State V)
    (moves : List AbortMove) : State V × Aborter :=
  moves.foldl (abortMove cfg t txn) (σ, .rollback txn.undoBuffer [])

/-- What every move keeps holds along every interleaving. -/
theorem interleave_invariant {cfg : Config} {t : Nat} {txn : TransactionContext V}
    {I : State V → Aborter → Prop}
    (habort : ∀ σ pc, I σ pc → I (abortStep cfg t txn σ pc).1 (abortStep cfg t txn σ pc).2)
    (hbegin : ∀ σ pc, I σ pc → I σ.beginTransaction pc) {σ : State V}
    (hbase : I σ (.rollback txn.undoBuffer [])) (moves : List AbortMove) :
    I (interleave cfg t txn σ moves).1 (interleave cfg t txn σ moves).2 := by
  have hall : ∀ s : State V × Aborter, I s.1 s.2 →
      I (moves.foldl (abortMove cfg t txn) s).1 (moves.foldl (abortMove cfg t txn) s).2 := by
    induction moves with
    | nil => exact fun s hs => hs
    | cons move moves ih =>
      intro s hs
      refine ih _ ?_
      cases move with
      | abort => exact habort s.1 s.2 hs
      | begin => exact hbegin s.1 s.2 hs
  exact hall _ hbase

section Uninterrupted

variable (cfg : Config) (t : Nat) (txn : TransactionContext V)

private theorem foldl_rollback (buffer : List Nat) (σ : State V) (slots : List TupleSlot) :
    (replicate buffer.length AbortMove.abort).foldl (abortMove cfg t txn)
        (σ, .rollback buffer slots) =
      ((buffer.foldl (State.rollbackRecord txn.finishTime) (σ, slots)).1,
        .rollback [] (buffer.foldl (State.rollbackRecord txn.finishTime) (σ, slots)).2) := by
  induction buffer generalizing σ slots with
  | nil => rfl
  | cons a buffer ih =>
    rw [length_cons, replicate_succ, foldl_cons, foldl_cons]
    exact ih (State.rollbackRecord txn.finishTime (σ, slots) a).1
      (State.rollbackRecord txn.finishTime (σ, slots) a).2

private theorem foldl_publish (abortTime : Nat) (buffer : List Nat) (σ : State V) :
    (replicate buffer.length AbortMove.abort).foldl (abortMove cfg t txn)
        (σ, .publish abortTime buffer) =
      (σ.storeTimestamps (.time abortTime) buffer, .publish abortTime []) := by
  induction buffer generalizing σ with
  | nil => rfl
  | cons a buffer ih =>
    rw [length_cons, replicate_succ, foldl_cons]
    exact ih (σ.storeTimestamp (.time abortTime) a)

/-- The steps of an abort that nobody interrupts are `TransactionManager::Abort`. -/
theorem interleave_uninterrupted (σ : State V) : interleave cfg t txn σ
        (replicate txn.undoBuffer.length .abort ++ [.abort] ++
          replicate txn.undoBuffer.length .abort ++ [.abort]) =
      (σ.abort cfg t txn, .done) := by
  unfold interleave
  simp only [foldl_append]
  rw [foldl_rollback]
  change abortMove cfg t txn (foldl _ (_, .publish _ txn.undoBuffer) _) .abort = _
  rw [foldl_publish]
  rfl

end Uninterrupted

end Terrier
