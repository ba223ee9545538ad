import Terrier.Execution.Aggregators
import Mathlib.Algebra.BigOperators.Group.List.Basic
import Mathlib.Data.List.Induction

/-!
Aggregates over parts of the input merge to the aggregate over the whole. The seeds of the
largest and of the smallest real are not neutral, and the SQL value comes out exactly where some
input is on the seed's side.
-/

namespace Terrier.Sql

open List

variable {α σ β : Type}

/-- However the values are split and the parts merged, the result is that of one aggregate over
the sequence, and it is the SQL value. -/
def Aggregator.MergesTo (A : Aggregator α σ β) (vals : List (Option α)) (sqlValue : β) : Prop :=
  (∀ m : Merging α, m.vals.Perm vals → A.result (m.outcome A) = A.result (A.over vals)) ∧
    A.result (A.over vals) = sqlValue

structure PartialsMerge (vals : List (Option α)) (ints : List (Option SignedWord))
    (reals : List (Option Double)) : Prop where
  count : countAggregate.MergesTo vals vals.reduceOption.length
  countStar : countStarAggregate.MergesTo vals vals.length
  sum : integerSumAggregate.MergesTo (ints.map (Option.map Subtype.val))
    (if ints.reduceOption = [] then none else some (ints.reduceOption.map Subtype.val).sum)
  max : integerMaxAggregate.MergesTo ints ints.reduceOption.max?
  min : integerMinAggregate.MergesTo ints ints.reduceOption.min?
  realMax : realMaxAggregate.MergesTo reals reals.reduceOption.max?
  realMin : realMinAggregate.MergesTo reals reals.reduceOption.min?

structure Aggregator.Mergeable (A : Aggregator α σ β) : Prop where
  append (xs ys : List (Option α)) : A.merge (A.over xs) (A.over ys) = A.over (xs ++ ys)
  perm {xs ys : List (Option α)} : xs.Perm ys → A.over xs = A.over ys

theorem Aggregator.Mergeable.mergesTo {A : Aggregator α σ β} (hA : A.Mergeable)
    {vals : List (Option α)} {sqlValue : β} :
    A.MergesTo vals sqlValue ↔ A.result (A.over vals) = sqlValue := by
  refine and_iff_right fun m hm => ?_
  have outcome : ∀ m : Merging α, m.outcome A = A.over m.vals := by
    intro m
    induction m with
    | part vals => rfl
    | merge agg that hagg hthat => rw [Merging.outcome, hagg, hthat, hA.append, Merging.vals]
  rw [outcome, hA.perm hm]

/-- What one more value does to a summary of the values so far decides what `over` gives. -/
theorem Aggregator.over_eq {A : Aggregator α σ β} (summary : List (Option α) → σ)
    (hfresh : A.fresh = summary [])
    (hadvance : ∀ vals val, A.advance (summary vals) val = summary (vals ++ [val]))
    (vals : List (Option α)) : A.over vals = summary vals := by
  induction vals using List.reverseRecOn with
  | nil => exact hfresh
  | append_singleton vals val ih =>
    rw [← hadvance, ← ih, Aggregator.over, Aggregator.over, foldl_append]
    rfl

theorem over_countAggregate (vals : List (Option α)) :
    countAggregate.over vals = vals.reduceOption.length := by
  apply Aggregator.over_eq (fun vals => vals.reduceOption.length) rfl
  intro vals val
  cases val <;> simp [countAggregate, reduceOption_append]

theorem over_countStarAggregate (vals : List (Option α)) :
    countStarAggregate.over vals = vals.length := by
  apply Aggregator.over_eq length rfl
  simp [countStarAggregate]

theorem countAggregate_mergeable : (countAggregate (α := α)).Mergeable where
  append xs ys := by
    simp only [over_countAggregate, reduceOption_append, length_append]
    rfl
  perm h := by
    rw [over_countAggregate, over_countAggregate]
    exact (h.filterMap id).length_eq

theorem countStarAggregate_mergeable : (countStarAggregate (α := α)).Mergeable where
  append xs ys := by
    simp only [over_countStarAggregate, length_append]
    rfl
  perm h := by rw [over_countStarAggregate, over_countStarAggregate, h.length_eq]

section Running

variable {seed : α} {combine : α → α → α} (comm : ∀ x y, combine x y = combine y x)
include comm

theorem over_runningAggregate (vals : List (Option α)) : (runningAggregate seed combine).over vals =
      ⟨vals.reduceOption.foldl combine seed, vals.reduceOption.isEmpty⟩ := by
  apply Aggregator.over_eq (fun vals =>
    RunningValue.mk (vals.reduceOption.foldl combine seed) vals.reduceOption.isEmpty) rfl
  intro vals val
  cases val <;> simp [runningAggregate, reduceOption_append, comm]

/-- A seed may be combined in once for each part if that is the same as once. -/
theorem runningAggregate_mergeable [Std.Associative combine] (hseed : combine seed seed = seed) :
    (runningAggregate seed combine).Mergeable where
  append xs ys := by
    simp only [over_runningAggregate comm, reduceOption_append]
    cases ys.reduceOption with
    | nil => simp [runningAggregate]
    | cons y ys =>
      have hmerge : combine ((y :: ys).foldl combine seed) (xs.reduceOption.foldl combine seed) =
          (xs.reduceOption ++ y :: ys).foldl combine seed := by
        rw [foldl_append, comm, ← @foldl_assoc α combine, comm, ← @foldl_assoc α combine, hseed]
      simpa [runningAggregate] using hmerge
  perm h := by
    have hperm := h.filterMap id
    simp only [over_runningAggregate comm]
    congr 1
    · apply hperm.foldl_eq'
      intro x _ y _ z
      have assoc : ∀ x y z, combine (combine x y) z = combine x (combine y z) :=
        Std.Associative.assoc
      rw [assoc, comm x, assoc]
    · exact hperm.isEmpty_eq

end Running

/-- The largest value comes out of an aggregate with any seed, unless the seed is above it. -/
theorem max_mergesTo [LinearOrder α] {seed : α} {vals : List (Option α)} :
    (runningAggregate seed max).MergesTo vals vals.reduceOption.max? ↔
      vals.reduceOption = [] ∨ ∃ v ∈ vals.reduceOption, seed ≤ v := by
  rw [(runningAggregate_mergeable max_comm (max_self seed)).mergesTo,
    over_runningAggregate max_comm]
  cases vals.reduceOption with
  | nil => simp [runningAggregate]
  | cons v vs =>
    obtain ⟨hmem, hle⟩ := max?_eq_some_iff.mp (rfl : (v :: vs).max? = some (vs.foldl max v))
    have hbound : seed ≤ vs.foldl max v ↔ ∃ x ∈ v :: vs, seed ≤ x :=
      ⟨fun h => ⟨_, hmem, h⟩, fun ⟨x, hx, h⟩ => h.trans (hle x hx)⟩
    have hvalue : (v :: vs).foldl max seed = max seed (vs.foldl max v) :=
      foldl_assoc
    rw [← hbound, ← max_eq_right_iff, ← hvalue]
    simp [runningAggregate, List.max?]

theorem min_mergesTo [LinearOrder α] {seed : α} {vals : List (Option α)} :
    (runningAggregate seed min).MergesTo vals vals.reduceOption.min? ↔
      vals.reduceOption = [] ∨ ∃ v ∈ vals.reduceOption, v ≤ seed :=
  max_mergesTo (α := αᵒᵈ)

theorem sum_mergesTo (vals : List (Option ℤ)) : integerSumAggregate.MergesTo vals
      (if vals.reduceOption = [] then none else some vals.reduceOption.sum) := by
  rw [integerSumAggregate, (runningAggregate_mergeable add_comm (add_zero 0)).mergesTo,
    over_runningAggregate add_comm, sum_eq_foldl]
  simp [runningAggregate]

theorem seed_reached {P : α → Prop} (h : ∀ v, P v) {vs : List α} : vs = [] ∨ ∃ v ∈ vs, P v := by
  cases vs with
  | nil => exact .inl rfl
  | cons v vs => exact .inr ⟨v, mem_cons_self, h v⟩

/-- Partial aggregates merge to the SQL values exactly where a largest real is at least the
smallest positive normal double and a smallest real at most the largest finite one. -/
theorem partialsMerge_iff (vals : List (Option α)) (ints : List (Option SignedWord))
    (reals : List (Option Double)) :
    PartialsMerge vals ints reals ↔ reals.reduceOption = [] ∨
      (∃ v ∈ reals.reduceOption, smallestNormal ≤ v) ∧
        ∃ v ∈ reals.reduceOption, v ≤ largestFinite := by
  rw [or_and_left]
  constructor
  · intro h
    exact ⟨max_mergesTo.mp h.realMax, min_mergesTo.mp h.realMin⟩
  · rintro ⟨hmax, hmin⟩
    exact {
      count := countAggregate_mergeable.mergesTo.mpr (over_countAggregate vals)
      countStar := countStarAggregate_mergeable.mergesTo.mpr (over_countStarAggregate vals)
      sum := by
        have hsum := sum_mergesTo (ints.map (Option.map Subtype.val))
        simp only [reduceOption_map, map_eq_nil_iff] at hsum
        exact hsum
      max := max_mergesTo.mpr (seed_reached fun v => v.2.1)
      min := min_mergesTo.mpr (seed_reached fun v => v.2.2)
      realMax := max_mergesTo.mpr hmax
      realMin := min_mergesTo.mpr hmin }

theorem negative_not_partialsMerge :
    ¬ PartialsMerge [some ()] [] [some (((-1 : ℚ) : WithTop ℚ) : Double), none] := by
  intro h
  have hseed : ¬ smallestNormal ≤ ((-1 : ℚ) : WithTop ℚ) := by
    rw [smallestNormal, WithBot.coe_le_coe, WithTop.coe_le_coe, not_le]
    exact neg_one_lt_zero.trans (by positivity)
  obtain hnil | ⟨v, hv, hle⟩ := max_mergesTo.mp h.realMax
  · cases hnil
  · rw [mem_singleton.mp hv] at hle
    exact hseed hle

end Terrier.Sql
