import Mathlib.Data.List.ReduceOption
import Mathlib.Tactic

/-!
The aggregates of `aggregators.h`. All but the counts keep a running value and a flag that stays
set while only NULLs have arrived; they differ in the first value and in how values are
combined.
-/

namespace Terrier.Sql

/-- An aggregate class: its fields in a fresh object, `Advance`, `Merge` and the result. A NULL is
`none`. -/
structure Aggregator (α σ β : Type) where
  fresh : σ
  advance : σ → Option α → σ
  merge : σ → σ → σ
  result : σ → β

def countAggregate {α : Type} : Aggregator α Nat Nat where
  fresh := 0
  advance count val := count + val.isSome.toNat
  merge count that := count + that
  result count := count

def countStarAggregate {α : Type} : Aggregator α Nat Nat where
  fresh := 0
  advance count _ := count + 1
  merge count that := count + that
  result count := count

structure RunningValue (α : Type) where
  value : α
  null : Bool

def runningAggregate {α : Type} (seed : α) (combine : α → α → α) :
    Aggregator α (RunningValue α) (Option α) where
  fresh := ⟨seed, true⟩
  advance agg
    | none => agg
    | some val => ⟨combine val agg.value, false⟩
  merge agg that := if that.null then agg else ⟨combine that.value agg.value, false⟩
  result agg := if agg.null then none else some agg.value

abbrev SignedWord : Type := Set.Icc (-2 ^ 63 : ℤ) (2 ^ 63 - 1)

/-- The doubles other than NaN, as numbers and the two infinities. -/
abbrev Double : Type := WithBot (WithTop ℚ)

/-- The value of `std::numeric_limits<double>::min()`, the smallest positive normal double. -/
def smallestNormal : Double := ((1 / 2 ^ 1022 : ℚ) : WithTop ℚ)

/-- The value of `std::numeric_limits<double>::max()`. -/
def largestFinite : Double := (((2 ^ 53 - 1) * 2 ^ 971 : ℚ) : WithTop ℚ)

def integerSumAggregate := runningAggregate (0 : ℤ) (· + ·)
def integerMaxAggregate := runningAggregate (⟨-2 ^ 63, by norm_num⟩ : SignedWord) max
def integerMinAggregate := runningAggregate (⟨2 ^ 63 - 1, by norm_num⟩ : SignedWord) min
def realMaxAggregate := runningAggregate smallestNormal max
def realMinAggregate := runningAggregate largestFinite min

variable {α σ β : Type}

def Aggregator.over (A : Aggregator α σ β) (vals : List (Option α)) : σ :=
  vals.foldl A.advance A.fresh

/-- A way to merge aggregates over parts of the input: each merge takes the second aggregate into
the first, and both may be the outcome of merges. -/
inductive Merging (α : Type) where
  | part (vals : List (Option α))
  | merge (agg that : Merging α)

def Merging.vals : Merging α → List (Option α)
  | .part vals => vals
  | .merge agg that => agg.vals ++ that.vals

def Merging.outcome (A : Aggregator α σ β) : Merging α → σ
  | .part vals => A.over vals
  | .merge agg that => A.merge (agg.outcome A) (that.outcome A)

end Terrier.Sql
