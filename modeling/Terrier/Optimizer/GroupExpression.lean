import Mathlib.Data.List.MinMax

/-!
The table of lowest costs of a group expression. A property set is given by its value and the
address it is at; costs are of a linear order.
-/

namespace Terrier.Optimizer

variable {α κ : Type}

/-- The arguments of `SetLocalHashTable`, or an entry of the table. -/
structure CostEntry (α κ : Type) where
  properties : α
  output : Nat
  inputs : List Nat
  cost : κ
  deriving DecidableEq

def CostEntry.pointers (entry : CostEntry α κ) : List Nat := entry.output :: entry.inputs

structure GroupExpression (α κ : Type) where
  lowestCostTable : List (CostEntry α κ)
  deleted : List Nat
  deriving DecidableEq

variable [DecidableEq α] [LinearOrder κ]

/-- The table after a call, and what the call deletes. `pending_deletion` is a reference to the
list that is passed, so the old list is stored again with the lower cost. -/
def insertLowest (call : CostEntry α κ) :
    List (CostEntry α κ) → List (CostEntry α κ) × List Nat
  | [] => ([call], [])
  | entry :: rest =>
    if entry.properties = call.properties then
      if call.cost < entry.cost then
        ({ entry with cost := call.cost } :: rest, call.output :: entry.inputs)
      else (entry :: rest, call.output :: call.inputs)
    else (entry :: (insertLowest call rest).1, (insertLowest call rest).2)

def setLocalHashTable (expr : GroupExpression α κ) (call : CostEntry α κ) : GroupExpression α κ :=
  ⟨(insertLowest call expr.lowestCostTable).1,
    expr.deleted ++ (insertLowest call expr.lowestCostTable).2⟩

/-- What is deleted in the whole life of the object, the destructor included. -/
def destroyed (expr : GroupExpression α κ) : List Nat :=
  expr.deleted ++ expr.lowestCostTable.flatMap CostEntry.pointers

def runCalls (calls : List (CostEntry α κ)) : GroupExpression α κ :=
  calls.foldl setLocalHashTable ⟨[], []⟩

end Terrier.Optimizer
