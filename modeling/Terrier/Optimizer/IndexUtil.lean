import Mathlib.Data.List.AList
import Terrier.Sql.Predicate

/-!
The choice of an index for a scan. The comparisons of key columns with constants
are collected into two maps, the low ends and the high ends of ranges; a walk over
the key columns turns them into bounds of the scan and a scan type.
-/

namespace Terrier.Optimizer

open Network (Value)
open Sql

inductive IndexKind
  | bwTree
  | hash
  deriving DecidableEq, Repr

structure Index where
  kind : IndexKind
  columns : List Nat
  deriving DecidableEq, Repr

inductive IndexScanType
  | exact
  | ascendingClosed
  | ascendingOpenHigh
  | ascendingOpenLow
  | ascendingOpenBoth
  deriving DecidableEq, Repr

/-- A constant used as a bound. Expressions are compared as pointers: two are the same
only if they stand in the same predicate. -/
structure IndexExpression where
  source : Nat
  value : Value
  deriving DecidableEq

/-! ### `IndexUtil::CheckPredicates` -/

def reverseComparison : CompareOp → CompareOp
  | .less => .greater
  | .lessEqual => .greaterEqual
  | .greater => .less
  | .greaterEqual => .lessEqual
  | op => op

def indexComparison : Predicate → Option (Nat × CompareOp × Value)
  | .compare op (.column column) (.constant value) => some (column, op, value)
  | .compare op (.constant value) (.column column) => some (column, reverseComparison op, value)
  | _ => none

abbrev BoundMap := AList fun _ : Nat => IndexExpression

def emplace (map : BoundMap) (key : Nat) (expr : IndexExpression) : Option BoundMap :=
  if key ∈ map then none else some (map.insert key expr)

/-- `open_highs`, the low ends of ranges, and `open_lows`, the high ends. -/
structure OpenRanges where
  highs : BoundMap
  lows : BoundMap

def addComparison (ranges : OpenRanges) (key : Nat) (expr : IndexExpression) :
    CompareOp → Option OpenRanges
  | .equal => do
      let highs ← emplace ranges.highs key expr
      let lows ← emplace ranges.lows key expr
      return ⟨highs, lows⟩
  | .less | .lessEqual => do
      let lows ← emplace ranges.lows key expr
      return ⟨ranges.highs, lows⟩
  | .greater | .greaterEqual => do
      let highs ← emplace ranges.highs key expr
      return ⟨highs, ranges.lows⟩
  | .notEqual => some ranges

/-- One predicate of the list. Comparisons that name no key column are left to the
predicate of the scan; anything but a comparison is rejected. -/
def addPredicate (index : Index) (ranges : OpenRanges) (predicate : Predicate) (source : Nat) :
    Option OpenRanges :=
  match predicate with
  | .compare .. =>
    match indexComparison predicate with
    | some (column, op, value) =>
      if column ∈ index.columns then
        addComparison ranges (index.columns.idxOf column) ⟨source, value⟩ op
      else some ranges
    | none => some ranges
  | _ => none

def collectRanges (index : Index) : List Predicate → Nat → OpenRanges → Option OpenRanges
  | [], _, ranges => some ranges
  | predicate :: rest, source, ranges => do
      let ranges ← addPredicate index ranges predicate source
      collectRanges index rest (source + 1) ranges

structure KeyBound where
  key : Nat
  lo : Option IndexExpression
  hi : Option IndexExpression
  deriving DecidableEq

/-- The walk over the key columns. It stops at a column without a bound, or at a bound
that does not go with the scan type reached. -/
def chooseBounds (ranges : OpenRanges) : List Nat → IndexScanType → IndexScanType × List KeyBound
  | [], type => (type, [])
  | key :: rest, type =>
    match ranges.highs.lookup key, ranges.lows.lookup key with
    | none, none => (type, [])
    | some lo, some hi =>
      let next := chooseBounds ranges rest
        (if lo ≠ hi ∧ type = .exact then .ascendingClosed else type)
      (next.1, ⟨key, some lo, some hi⟩ :: next.2)
    | some lo, none =>
      if type = .ascendingOpenLow ∨ type = .ascendingOpenBoth then (type, [])
      else
        let next := chooseBounds ranges rest .ascendingOpenHigh
        (next.1, ⟨key, some lo, none⟩ :: next.2)
    | none, some hi =>
      if type = .ascendingOpenHigh ∨ type = .ascendingOpenBoth then (type, [])
      else
        let next := chooseBounds ranges rest .ascendingOpenLow
        (next.1, ⟨key, none, some hi⟩ :: next.2)

def initialType (index : Index) (ranges : OpenRanges) : IndexScanType :=
  if ranges.highs.keys.length = ranges.lows.keys.length ∧
      ranges.highs.keys.length = index.columns.length then .exact
  else .ascendingClosed

/-- `SatisfiesPredicateWithIndex`: the scan type and the bounds, if the index can be used. -/
def checkPredicates (index : Index) (predicates : List Predicate) :
    Option (IndexScanType × List KeyBound) := do
  let ranges ← collectRanges index predicates 0 ⟨∅, ∅⟩
  if ranges.highs.keys = [] ∧ ranges.lows.keys = [] then none
  else
    let chosen := chooseBounds ranges (List.range index.columns.length) (initialType index ranges)
    if chosen.2 = [] then none else some chosen

/-! ### `IndexUtil::SatisfiesSortWithIndex` -/

structure SortColumn where
  column : Option Nat
  ascending : Bool
  deriving DecidableEq, Repr

def checkSortProperty (sort : List SortColumn) : Bool :=
  sort.all fun key => key.ascending && key.column.isSome

def satisfiesSortWithIndex (index : Index) (sort : List SortColumn) : Bool :=
  sort.length ≤ index.columns.length &&
    (sort.zip index.columns).all fun (key, column) => key.column == some column

/-! ### `PlanGenerator::Visit(IndexScan)` -/

structure IndexScanPlan where
  type : IndexScanType
  indexColumns : List (Nat × Value)
  loColumns : List (Nat × Value)
  hiColumns : List (Nat × Value)
  deriving DecidableEq

def loColumnsOf (bounds : List KeyBound) : List (Nat × Value) :=
  bounds.filterMap fun bound => bound.lo.map fun expr => (bound.key, expr.value)

def hiColumnsOf (bounds : List KeyBound) : List (Nat × Value) :=
  bounds.filterMap fun bound => bound.hi.map fun expr => (bound.key, expr.value)

def visitIndexScan (type : IndexScanType) (bounds : List KeyBound) : IndexScanPlan :=
  match type with
  | .exact => ⟨type, loColumnsOf bounds, [], []⟩
  | .ascendingClosed => ⟨type, [], loColumnsOf bounds, hiColumnsOf bounds⟩
  | .ascendingOpenHigh => ⟨type, [], loColumnsOf bounds, []⟩
  | .ascendingOpenLow => ⟨type, [], [], hiColumnsOf bounds⟩
  | .ascendingOpenBoth => ⟨type, [], [], []⟩

def predicateScan (index : Index) (predicates : List Predicate) : Option IndexScanPlan :=
  (checkPredicates index predicates).map fun chosen => visitIndexScan chosen.1 chosen.2

/-- The plan for a required order. -/
def sortScan (index : Index) (sort : List SortColumn) : Option IndexScanPlan :=
  if checkSortProperty sort && satisfiesSortWithIndex index sort then
    some (visitIndexScan .ascendingOpenBoth [])
  else none

/-- `JoinAnnotatedExprs`. -/
def joinPredicates : List Predicate → Option Predicate
  | [] => none
  | first :: rest => some (rest.foldl .and first)

end Terrier.Optimizer
