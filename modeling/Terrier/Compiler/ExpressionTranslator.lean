import Terrier.Sql.Predicate

/-!
The code that is generated for a predicate. A translator derives an expression
of TPL; the type checker knows two kinds of booleans, those of SQL, which may be
NULL, and primitive ones, and puts casts between them.
-/

namespace Terrier.Compiler

open Network (Value ValueKind)
open Sql

inductive TplType
  | bool
  | nil
  | sql (kind : ValueKind)
  deriving DecidableEq, Repr

inductive CastKind
  | sqlBoolToBool
  | boolToSqlBool
  deriving DecidableEq, Repr

inductive BinaryOp
  | and
  | or
  | equal
  | notEqual
  deriving DecidableEq, Repr

/-- Expressions of TPL; `toSql` stands for the calls that make a constant an SQL value. -/
inductive TplExpr
  | column (index : Nat)
  | boolLiteral (val : Bool)
  | toSql (value : Value)
  | nilLiteral
  | compare (op : CompareOp) (left right : TplExpr)
  | binary (op : BinaryOp) (left right : TplExpr)
  | cast (kind : CastKind) (child : TplExpr)

def peekValue : Value → TplExpr
  | .bool val => .boolLiteral val
  | value => .toSql value

def deriveOperand : Operand → TplExpr
  | .column index => .column index
  | .constant value => peekValue value

/-- `DeriveExpr` of the expression translators. A NULL check becomes a binary operation, not a
comparison; the translator factory has no translator for NOT. -/
def deriveExpr : Predicate → Option TplExpr
  | .compare op left right => some (.compare op (deriveOperand left) (deriveOperand right))
  | .isNull operand => some (.binary .equal .nilLiteral (deriveOperand operand))
  | .isNotNull operand => some (.binary .notEqual .nilLiteral (deriveOperand operand))
  | .and left right => do return .binary .and (← deriveExpr left) (← deriveExpr right)
  | .or left right => do return .binary .or (← deriveExpr left) (← deriveExpr right)
  | .not _ => none

abbrev Typed := TplExpr × TplType

def castToBool (e : Typed) : Typed :=
  if e.2 = .sql .bool then (.cast .sqlBoolToBool e.1, .bool) else e

def checkLogicalOperands (op : BinaryOp) (left right : Typed) : Option Typed :=
  let left := castToBool left
  let right := castToBool right
  if left.2 = .bool ∧ right.2 = .bool then some (.binary op left.1 right.1, .bool) else none

def comparisonType : TplType → TplType
  | .sql _ => .sql .bool
  | _ => .bool

/-- Operands of different types are only compared if they are booleans; the numbers that occur here
are SQL values, between which there is no cast. -/
def checkComparisonOperands (op : CompareOp) (left right : Typed) : Option Typed :=
  if left.2 = right.2 then some (.compare op left.1 right.1, comparisonType left.2)
  else if left.2 = .bool ∧ right.2 = .sql .bool then
    some (.compare op (.cast .boolToSqlBool left.1) right.1, .sql .bool)
  else if left.2 = .sql .bool ∧ right.2 = .bool then
    some (.compare op left.1 (.cast .boolToSqlBool right.1), .sql .bool)
  else none

def resolve (columns : Nat → ValueKind) : TplExpr → Option Typed
  | .column index => some (.column index, .sql (columns index))
  | .boolLiteral val => some (.boolLiteral val, .bool)
  | .toSql value => some (.toSql value, .sql value.kind)
  | .nilLiteral => some (.nilLiteral, .nil)
  | .compare op left right => do
      let left ← resolve columns left
      let right ← resolve columns right
      checkComparisonOperands op left right
  | .binary op left right => do
      let left ← resolve columns left
      let right ← resolve columns right
      match op with
      | .and | .or => checkLogicalOperands op left right
      | .equal | .notEqual => none
  | .cast _ _ => none

def checkCondition (columns : Nat → ValueKind) (e : TplExpr) : Option TplExpr := do
  let e ← resolve columns e
  let e := castToBool e
  if e.2 = .bool then some e.1 else none

inductive TplValue
  | bool (val : Bool)
  | nil
  | sql (value : Option Value)
  deriving DecidableEq

/-- The SQL value that is made of a constant: `InitInteger` takes an integer of 32 bits. -/
def initValue : Value → Value
  | .integer val => .integer val.toInt32.toInt64
  | value => value

def forceTruth : Option Value → Option Bool
  | none => some false
  | some (.bool val) => some val
  | some _ => none

/-- The evaluation of a checked expression. It has no result where the code is undefined. -/
def evaluate (holds : CompareOp → Value → Value → Bool) (row : Row) : TplExpr → Option TplValue
  | .column index => some (.sql (row index))
  | .boolLiteral val => some (.bool val)
  | .toSql value => some (.sql (some (initValue value)))
  | .nilLiteral => some .nil
  | .compare op left right => do
      match ← evaluate holds row left, ← evaluate holds row right with
      | .bool left, .bool right => some (.bool (holds op (.bool left) (.bool right)))
      | .sql left, .sql right => some (.sql ((compare3 holds op left right).map .bool))
      | _, _ => none
  | .binary op left right => do
      match op, ← evaluate holds row left with
      | .and, .bool true => evaluate holds row right
      | .and, .bool false => some (.bool false)
      | .or, .bool true => some (.bool true)
      | .or, .bool false => evaluate holds row right
      | _, _ => none
  | .cast kind child => do
      match kind, ← evaluate holds row child with
      | .sqlBoolToBool, .sql value => (forceTruth value).map .bool
      | .boolToSqlBool, .bool val => some (.sql (some (.bool val)))
      | _, _ => none

def accepts (holds : CompareOp → Value → Value → Bool) (columns : Nat → ValueKind) (row : Row)
    (predicate : Predicate) : Option Bool := do
  let condition ← checkCondition columns (← deriveExpr predicate)
  match ← evaluate holds row condition with
  | .bool val => some val
  | _ => none

end Terrier.Compiler
