import Mathlib.Tactic

/-!
The comparator that is generated for ORDER BY. Comparisons of SQL values are NULL if an operand is,
and an `if` takes NULL for false. Comparisons with a NaN are false.
-/

namespace Terrier.Compiler

variable {ρ α : Type} [LinearOrder α]

inductive OrderByOrderingType
  | asc
  | desc
  deriving DecidableEq, Repr

inductive KeyValue (α : Type)
  | null
  | nan
  | ordered (value : α)
  deriving DecidableEq, Repr

structure SortKey (ρ α : Type) where
  value : ρ → KeyValue α
  order : OrderByOrderingType

def sqlLess : KeyValue α → KeyValue α → Option Bool
  | .null, _ | _, .null => none
  | .ordered left, .ordered right => some (decide (left < right))
  | _, _ => some false

def sqlGreater (left right : KeyValue α) : Option Bool :=
  sqlLess right left

def genComparisons : List (SortKey ρ α) → ρ → ρ → Int
  | [], _, _ => 0
  | key :: keys, lhs, rhs =>
    let retValue : Int := if key.order = .asc then -1 else 1
    if sqlLess (key.value lhs) (key.value rhs) = some true then retValue
    else if sqlGreater (key.value lhs) (key.value rhs) = some true then -retValue
    else genComparisons keys lhs rhs

end Terrier.Compiler
