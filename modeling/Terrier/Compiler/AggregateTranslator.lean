import Terrier.Optimizer.AggregatePlan

/-!
The code generated for a grouping plan. The bottom translator keeps, for each
group, a payload of group-by terms followed by aggregates; the top translator
reads the payload by (tuple, offset) pairs.
-/

namespace Terrier.Compiler

open Network (Value)
open Optimizer

structure Group where
  columns : Nat → Option Value
  aggregates : Aggregate → Option Value

def Group.value (group : Group) : OutputExpr → Option Value
  | .column index => group.columns index
  | .aggregate term => group.aggregates term

structure Payload where
  groupByTerms : List (Option Value)
  aggregateTerms : List (Option Value)
  deriving DecidableEq

def fillTerm (tuple : List (Option Value)) : PlanExpr → Option (Option Value)
  | .derived _ offset => tuple[offset]?
  | .columnValue _ | .aggregate _ => none

def fillPayload (plan : AggregatePlan) (children : List Nat) (group : Group) : Option Payload := do
  let terms ← plan.groupByTerms.mapM (fillTerm (children.map group.columns))
  pure ⟨terms, plan.aggregateTerms.map group.aggregates⟩

/-- `AggregateBottomTranslator::GetOutput`; a member the payload does not have gives
no code. -/
def Payload.getOutput (payload : Payload) (attrIdx : Nat) : Option (Option Value) :=
  if attrIdx < payload.groupByTerms.length then payload.groupByTerms[attrIdx]?
  else payload.aggregateTerms[attrIdx - payload.groupByTerms.length]?

def Payload.getChildOutput (payload : Payload) (childIdx attrIdx : Nat) : Option (Option Value) :=
  payload.getOutput (attrIdx + childIdx * payload.groupByTerms.length)

/-- An expression above the payload. Columns and aggregates have no translator there. -/
def Payload.deriveExpr (payload : Payload) : PlanExpr → Option (Option Value)
  | .derived childIdx attrIdx => payload.getChildOutput childIdx attrIdx
  | .columnValue _ | .aggregate _ => none

def topOutput (plan : AggregatePlan) (payload : Payload) (attrIdx : Nat) : Option (Option Value) :=
  plan.outputs[attrIdx]?.bind payload.deriveExpr

abbrev Tests := Nat → List (Option Value) → Bool

def allHold (tests : Tests) (values : List (List (Option Value))) : Bool :=
  values.zipIdx.all fun (conjunct, index) => tests index conjunct

/-- `GenHaving`: whether the group is passed on. -/
def keepsGroup (plan : AggregatePlan) (payload : Payload) (tests : Tests) : Option Bool :=
  (plan.having.mapM (List.mapM payload.deriveExpr)).map (allHold tests)

end Terrier.Compiler
