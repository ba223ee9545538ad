import Terrier.Compiler.ExpressionTranslator
import Terrier.Sql.Insert

/-!
The execution of an `INSERT ... VALUES`. The generated code fills a row of the
whole table, which starts with every column NULL.
-/

namespace Terrier.Compiler

open Network (ColumnType Value)
open Sql

abbrev Tuple := List (Option Value)

def prSet (type : ColumnType) (value : Value) : Value :=
  match type, value with
  | .tinyint, .integer val => .integer val.toInt8.toInt64
  | .smallint, .integer val => .integer val.toInt16.toInt64
  | .integer, .integer val => .integer val.toInt32.toInt64
  | _, value => value

/-- `GenSetTablePR`: the values go to the columns of the schema one after the other. Nothing reads
the columns of the plan. -/
def genSetTablePR : List Column → List Constant → Except Failure Tuple
  | columns, [] => .ok (columns.map fun _ => none)
  | [], _ :: _ => .error .undefined
  | column :: columns, c :: values => do
      let rest ← genSetTablePR columns values
      match c.value with
      | some value => return some (prSet column.type (initValue value)) :: rest
      | none => .error .undefined

def produce (schema : Schema) (plan : InsertPlan) : Except Failure (List Tuple) :=
  plan.values.mapM (genSetTablePR schema.columns)

def runInsert (conversions : Conversions) (schema : Schema) (stmt : InsertStatement) :
    Except Failure (List Tuple) := do
  let plan ← planInsert conversions schema stmt
  produce schema plan

end Terrier.Compiler
