import Mathlib.Tactic

/-!
Timestamps of the transaction engine. The source keeps times and the identity of a running
transaction in one unsigned 64-bit `timestamp_t`; the identity is `start + INT64_MIN`, above every
time. Here they are two constructors over an unbounded counter; wrap-around is left out, as
`timestamp_manager.h` leaves it out.
-/

namespace Terrier

/-- `time t` was handed out by the timestamp manager; `txnId start` is the
finish time of a transaction that has neither committed nor aborted. -/
inductive Timestamp where
  | time (t : Nat)
  | txnId (start : Nat)
  deriving DecidableEq, Repr

namespace Timestamp

/-- `TransactionUtil::NewerThan`, the unsigned comparison `a > b`. -/
def newerThan : Timestamp → Timestamp → Bool
  | .time a, .time b => decide (b < a)
  | .txnId _, .time _ => true
  | .time _, .txnId _ => false
  | .txnId a, .txnId b => decide (b < a)

/-- `TransactionUtil::Committed`, the sign test on the 64-bit word. -/
def committed : Timestamp → Bool
  | .time _ => true
  | .txnId _ => false

/-- The 64-bit word of the source, for counters below `2 ^ 63`. -/
def toWord : Timestamp → Nat
  | .time t => t
  | .txnId start => start + 2 ^ 63

/-- As long as the counter has not reached `2 ^ 63`, the constructors compare as the words do. -/
theorem newerThan_iff_toWord (a b : Timestamp) (ha : a.committed = true → a.toWord < 2 ^ 63)
    (hb : b.committed = true → b.toWord < 2 ^ 63) : a.newerThan b = true ↔ b.toWord < a.toWord := by
  cases a <;> cases b <;> simp_all [toWord, committed, newerThan] <;> omega

@[simp] theorem newerThan_time_time (a b : Nat) :
    (time a).newerThan (time b) = decide (b < a) := rfl

@[simp] theorem newerThan_txnId_time (a b : Nat) : (txnId a).newerThan (time b) = true := rfl

@[simp] theorem newerThan_time_txnId (a b : Nat) : (time a).newerThan (txnId b) = false := rfl

@[simp] theorem newerThan_txnId_txnId (a b : Nat) :
    (txnId a).newerThan (txnId b) = decide (b < a) := rfl

@[simp] theorem committed_time (t : Nat) : (time t).committed = true := rfl

@[simp] theorem committed_txnId (t : Nat) : (txnId t).committed = false := rfl

/-- `a.precedes b`: a record stamped `a` may stand in front of one stamped `b`. Times do not
increase, and uncommitted records come first and belong to one transaction. -/
def precedes : Timestamp → Timestamp → Prop
  | .time a, .time b => b ≤ a
  | .txnId _, .time _ => True
  | .time _, .txnId _ => False
  | .txnId a, .txnId b => a = b

@[simp] theorem precedes_time_time (a b : Nat) : (time a).precedes (time b) ↔ b ≤ a := Iff.rfl

@[simp] theorem precedes_txnId_time (a b : Nat) : (txnId a).precedes (time b) := trivial

@[simp] theorem precedes_time_txnId (a b : Nat) : ¬ (time a).precedes (txnId b) := id

@[simp] theorem precedes_txnId_txnId (a b : Nat) : (txnId a).precedes (txnId b) ↔ a = b := Iff.rfl

/-- A version that is too old for a reader hides everything behind it. -/
theorem newerThan_of_precedes {a b : Timestamp} {start : Nat} (h : a.precedes b)
    (ha : a.newerThan (time start) = false) : b.newerThan (time start) = false := by
  cases a <;> cases b <;> simp_all
  omega

/-- A version below the horizon has only such versions behind it. -/
theorem newerThan_horizon_of_precedes {a b : Timestamp} {oldest : Nat} (h : a.precedes b)
    (ha : (time oldest).newerThan a = true) : (time oldest).newerThan b = true := by
  cases a <;> cases b <;> simp_all
  omega

theorem newerThan_of_precedes_self {a b : Timestamp} (h : a.precedes b) :
    b.newerThan a = false := by
  cases a <;> cases b <;> simp_all

end Timestamp

end Terrier
