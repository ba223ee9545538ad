import Terrier.Compiler.InsertTranslator
import Terrier.Optimizer.IndexUtil

/-!
The code generated for an index scan and for a sequential scan. The index is
taken to hold the visible rows of the table in the order of their keys, and to
return those whose keys lie between the bounds it is given.
-/

namespace Terrier.Compiler

open Network (ColumnType Value)
open Sql Optimizer

/-- One attribute of a key is below another. NULL comes first; `less` compares values
that are not integers. -/
def attributeLess (less : Value → Value → Bool) : Option Value → Option Value → Bool
  | none, some _ => true
  | _, none => false
  | some (.integer left), some (.integer right) => left < right
  | some left, some right => less left right

/-- `PartialLessThan`: not above, up to the attributes given. -/
def partialLessThan (less : Value → Value → Bool) : List (Option Value) → List (Option Value) → Bool
  | left :: lefts, right :: rights =>
    if attributeLess less left right then true
    else if attributeLess less right left then false
    else partialLessThan less lefts rights
  | _, _ => true

/-- `FillKey`: the constants, cast to the types of the key columns. What is not set is
NULL. -/
def fillKey (types : Nat → ColumnType) (index : Index) (exprs : List (Nat × Value))
    (numAttrs : Nat) : List (Option Value) :=
  (index.columns.take numAttrs).zipIdx.map fun (column, key) =>
    (exprs.lookup key).map fun value => prSet (types column) (initValue value)

def rowKey (index : Index) (row : Row) (numAttrs : Nat) : List (Option Value) :=
  (index.columns.take numAttrs).map row

def IndexScanPlan.numAttrs (plan : IndexScanPlan) : Nat :=
  max plan.loColumns.length plan.hiColumns.length

def lowKeyExists (type : IndexScanType) : Bool :=
  type = .ascendingClosed || type = .ascendingOpenHigh

def highKeyExists (type : IndexScanType) : Bool :=
  type = .ascendingClosed || type = .ascendingOpenLow

def withinBounds (less : Value → Value → Bool) (types : Nat → ColumnType) (index : Index)
    (plan : IndexScanPlan) (row : Row) : Bool :=
  let numAttrs := IndexScanPlan.numAttrs plan
  (!lowKeyExists plan.type || partialLessThan less (fillKey types index plan.loColumns numAttrs)
        (rowKey index row numAttrs)) &&
    (!highKeyExists plan.type || partialLessThan less (rowKey index row numAttrs)
        (fillKey types index plan.hiColumns numAttrs))

/-- The rows the index iterator returns, `entries` being all of them in the order of their
keys. A hash index has no `ScanAscending`. -/
def indexIterator (less : Value → Value → Bool) (types : Nat → ColumnType) (index : Index)
    (entries : List Row) (plan : IndexScanPlan) : Option (List Row) :=
  if plan.type = .exact then
    some (entries.filter fun row => rowKey index row index.columns.length =
      fillKey types index plan.indexColumns index.columns.length)
  else
    match index.kind with
    | .hash => none
    | .bwTree => some (entries.filter (withinBounds less types index plan))

def acceptedRows (accept : Row → Option Bool) : List Row → Option (List Row)
  | [] => some []
  | row :: rest => do
      let accepted ← accept row
      let others ← acceptedRows accept rest
      return if accepted then row :: others else others

def scanAccepts (holds : CompareOp → Value → Value → Bool) (types : Nat → ColumnType)
    (predicates : List Predicate) (row : Row) : Option Bool :=
  match joinPredicates predicates with
  | none => some true
  | some predicate => accepts holds (fun column => (types column).kind) row predicate

def runIndexScan (holds : CompareOp → Value → Value → Bool) (less : Value → Value → Bool)
    (types : Nat → ColumnType) (index : Index) (predicates : List Predicate)
    (plan : IndexScanPlan) (entries : List Row) : Option (List Row) := do
  let rows ← indexIterator less types index entries plan
  acceptedRows (scanAccepts holds types predicates) rows

def runSeqScan (holds : CompareOp → Value → Value → Bool) (types : Nat → ColumnType)
    (predicates : List Predicate) (table : List Row) : Option (List Row) :=
  acceptedRows (scanAccepts holds types predicates) table

end Terrier.Compiler
