import Terrier.Execution.Ast

/-!
The semantic analysis at the ends of functions. Return statements have a value exactly in
functions that return one, and a body ends in a terminating statement; otherwise a return is added
if the function returns nothing. Other checks only reject more programs. Without assertions, for-in
statements and bad expressions are passed over.
-/

namespace Terrier.Tpl

mutual

/-- `Stmt::IsTerminating`. There is no result where it asks for the last statement of an empty
block. -/
def isTerminating : Stmt → Option Bool
  | .block statements => lastIsTerminating statements
  | .if _ thenStmt elseStmt =>
    match elseStmt with
    | none => some false
    | some elseStmt => do
        if ← isTerminating thenStmt then isTerminating elseStmt else return false
  | .return _ => some true
  | _ => some false

def lastIsTerminating : List Stmt → Option Bool
  | [] => none
  | [statement] => isTerminating statement
  | _ :: statements => lastIsTerminating statements

end

namespace Sema

/-- The end of `VisitFunctionLitExpr`, after the visit of the body. An empty body is not asked for
its last statement. -/
def endFunction (returnsNil : Bool) (statements : List Stmt) : Option (List Stmt) := do
  let terminating ← (if statements.isEmpty then some false else lastIsTerminating statements)
  if terminating then
    return statements
  else if returnsNil then
    return statements ++ [.return none]
  else
    none

variable (nilType : List Nat → Expr → Bool)

mutual

/-- An expression after the analysis, or nothing if it is rejected. `nilType` says whether a
function of the type returns nothing; the path tells where the type stands. -/
def visitExpr (path : List Nat) : Expr → Option Expr
  | .functionLit typeRepr body => do
      return .functionLit typeRepr (← visitFunction path (nilType path typeRepr) body)
  | .binaryOp op left right => do
      return .binaryOp op (← visitExpr (0 :: path) left) (← visitExpr (1 :: path) right)
  | .comparisonOp op left right => do
      return .comparisonOp op (← visitExpr (0 :: path) left) (← visitExpr (1 :: path) right)
  | .call function arguments => do return .call function (← visitExprs path 0 arguments)
  | .builtinCall function arguments => do
      return .builtinCall function (← visitExprs path 0 arguments)
  | .index object index => do
      return .index (← visitExpr (0 :: path) object) (← visitExpr (1 :: path) index)
  | .member object member => do return .member (← visitExpr (0 :: path) object) member
  | .unaryOp op expression => do return .unaryOp op (← visitExpr (0 :: path) expression)
  | expression => some expression

def visitExprs (path : List Nat) : Nat → List Expr → Option (List Expr)
  | _, [] => some []
  | k, expression :: expressions => do
      return (← visitExpr (k :: path) expression) :: (← visitExprs path (k + 1) expressions)

def visitFunction (path : List Nat) (returnsNil : Bool) : Stmt → Option Stmt
  | .block statements => do
      return .block (← endFunction returnsNil (← visitStmts path returnsNil 0 statements))
  | _ => none

/-- A statement of a function that returns nothing, or of one that returns a value. Functions are
not declared in statements. -/
def visitStmt (path : List Nat) (returnsNil : Bool) : Stmt → Option Stmt
  | .assignment destination source => do
      return .assignment (← visitExpr (0 :: path) destination) (← visitExpr (1 :: path) source)
  | .block statements => do return .block (← visitStmts path returnsNil 0 statements)
  | .decl (.variable name typeRepr initial) => do
      return .decl (.variable name typeRepr (← visitExpr? (0 :: path) initial))
  | .decl (.struct name typeRepr) => some (.decl (.struct name typeRepr))
  | .decl (.function ..) => none
  | .expression expression => do return .expression (← visitExpr (0 :: path) expression)
  | .for init condition next body => do
      return .for (← visitStmt? (0 :: path) returnsNil init) (← visitExpr? (1 :: path) condition)
        (← visitStmt? (3 :: path) returnsNil next) (← visitStmt (2 :: path) returnsNil body)
  | .forIn target iter body => some (.forIn target iter body)
  | .if condition thenStmt elseStmt => do
      return .if (← visitExpr (0 :: path) condition) (← visitStmt (1 :: path) returnsNil thenStmt)
        (← visitStmt? (2 :: path) returnsNil elseStmt)
  | .return none => if returnsNil then some (.return none) else none
  | .return (some ret) => do
      if returnsNil then none else return .return (some (← visitExpr (0 :: path) ret))

def visitStmts (path : List Nat) (returnsNil : Bool) : Nat → List Stmt → Option (List Stmt)
  | _, [] => some []
  | k, statement :: statements => do
      return (← visitStmt (k :: path) returnsNil statement) ::
        (← visitStmts path returnsNil (k + 1) statements)

def visitExpr? (path : List Nat) : Option Expr → Option (Option Expr)
  | none => some none
  | some expression => do return some (← visitExpr path expression)

def visitStmt? (path : List Nat) (returnsNil : Bool) : Option Stmt → Option (Option Stmt)
  | none => some none
  | some statement => do return some (← visitStmt path returnsNil statement)

end

end Sema

end Terrier.Tpl
