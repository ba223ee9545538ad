import Terrier.Network.PacketWriter

/-!
The plan of a grouping query. The column deriver lists what the grouping has to
put out and which columns it needs of its child; the plan generator replaces
every column and aggregate by a place in a tuple below.
-/

namespace Terrier.Optimizer

open Network (Value)

inductive ArithmeticOp
  | plus
  | minus
  | multiply
  | divide
  deriving DecidableEq, Repr

inductive ArgumentExpr
  | star
  | column (index : Nat)
  | constant (value : Int)
  | arithmetic (op : ArithmeticOp) (left right : ArgumentExpr)
  deriving DecidableEq, Repr

/-- The columns an argument mentions (`GetTupleValueExprs`). -/
def ArgumentExpr.columns : ArgumentExpr → List Nat
  | .star | .constant _ => []
  | .column index => [index]
  | .arithmetic _ left right => left.columns ++ right.columns

inductive AggregateType
  | count
  | sum
  | min
  | max
  | avg
  deriving DecidableEq, Repr

structure Aggregate where
  type : AggregateType
  distinct : Bool
  name : String
  argument : ArgumentExpr
  deriving DecidableEq, Repr

inductive OutputExpr
  | column (index : Nat)
  | aggregate (term : Aggregate)
  deriving DecidableEq, Repr

def OutputExpr.isColumn : OutputExpr → Bool
  | .column _ => true
  | .aggregate _ => false

def OutputExpr.aggregate? : OutputExpr → Option Aggregate
  | .column _ => none
  | .aggregate term => some term

def OutputExpr.columns : OutputExpr → List Nat
  | .column index => [index]
  | .aggregate term => term.argument.columns

/-- A grouping query over some child: its grouping columns, the expressions it
has to put out and, for each conjunct of HAVING, the expressions mentioned. -/
structure GroupedQuery where
  groupBy : List Nat
  required : List OutputExpr
  having : List (List OutputExpr)
  required_grouped : ∀ index, .column index ∈ required → index ∈ groupBy
  having_grouped : ∀ exprs ∈ having, ∀ index, .column index ∈ exprs → index ∈ groupBy

namespace GroupedQuery

/-- HAVING as the physical operator has it: `Aggregate`, which implements a query
without grouping columns, has none. -/
def keptHaving (query : GroupedQuery) : List (List OutputExpr) :=
  if query.groupBy = [] then [] else query.having

/-! ### `InputColumnDeriver::AggregateHelper` -/

def addOutput (outputs : List OutputExpr) (expr : OutputExpr) : List OutputExpr :=
  if expr ∈ outputs then outputs else outputs ++ [expr]

def requiredColumns (query : GroupedQuery) : List OutputExpr :=
  query.required.foldl addOutput []

/-- `GetTupleAndAggregateExprs`: the columns of a conjunct come before its aggregates. -/
def conjunctExprs (exprs : List OutputExpr) : List OutputExpr :=
  exprs.filter (·.isColumn) ++ exprs.filter (! ·.isColumn)

def outputColumns (query : GroupedQuery) : List OutputExpr :=
  (query.keptHaving.flatMap conjunctExprs).foldl addOutput query.requiredColumns

/-- The columns asked of the child. The deriver keeps them in an unordered set. -/
def inputColumns (query : GroupedQuery) : List Nat :=
  (query.required.filterMap (·.aggregate?)).flatMap (·.argument.columns) ++ query.groupBy ++
    query.keptHaving.flatten.flatMap (·.columns)

def Enumerates (query : GroupedQuery) (children : List Nat) : Prop :=
  children.Nodup ∧ ∀ index, index ∈ children ↔ index ∈ query.inputColumns

end GroupedQuery

/-! ### `PlanGenerator::BuildAggregatePlan` -/

inductive PlanExpr
  /-- A `DerivedValueExpression`. -/
  | derived (tuple offset : Nat)
  | columnValue (index : Nat)
  | aggregate (term : Aggregate)
  deriving DecidableEq, Repr

structure AggregatePlan where
  groupByTerms : List PlanExpr
  aggregateTerms : List Aggregate
  outputs : List PlanExpr
  having : List (List PlanExpr)
  deriving DecidableEq, Repr

def childColumn (children : List Nat) (index : Nat) : PlanExpr :=
  if index ∈ children then .derived 0 (children.idxOf index) else .columnValue index

def planOutputs (children : List Nat) : Nat → List OutputExpr → List PlanExpr
  | _, [] => []
  | aggId, .aggregate _ :: rest => .derived 1 aggId :: planOutputs children (aggId + 1) rest
  | aggId, .column index :: rest => childColumn children index :: planOutputs children aggId rest

/-- An expression of HAVING. `EvaluateExpression` first replaces the columns found
among the outputs, also those inside an aggregate; an aggregate changed so is no
longer found by `ConvertExprCVNodes` and stays. -/
def planHaving (outputs : List OutputExpr) : OutputExpr → PlanExpr
  | .column index =>
    if .column index ∈ outputs then .derived 0 (outputs.idxOf (.column index))
    else .columnValue index
  | .aggregate term =>
    if term.argument.columns.any (fun index => .column index ∈ outputs) then .aggregate term
    else if .aggregate term ∈ outputs then .derived 0 (outputs.idxOf (.aggregate term))
    else .aggregate term

def buildAggregatePlan (query : GroupedQuery) (children : List Nat) : AggregatePlan where
  groupByTerms := query.groupBy.map (childColumn children)
  aggregateTerms := query.outputColumns.filterMap (·.aggregate?)
  outputs := planOutputs children 0 query.outputColumns
  having := query.keptHaving.map (·.map (planHaving query.outputColumns))

end Terrier.Optimizer
