import Terrier.Execution.Ast

/-!
The locals of a function. Parameters come first, behind the hidden one for the return value;
variables and temporaries are allocated as the body is visited, and a variable is the first local of
its name. Function literals are generated in the frame of the function around them.
-/

namespace Terrier.Tpl

inductive LocalId where
  | returnValue
  | parameter (index : Nat)
  | variable (path : List Nat)
  | temporary (number : Nat)
deriving DecidableEq

structure LocalInfo where
  name : Identifier
  id : LocalId

/-- A local that is allocated in a visit of the tree, for a variable that is declared there or for a
value. -/
inductive Allocation where
  | variable (name : Identifier) (path : List Nat)
  | temporary

structure FunctionInfo where
  locals : List LocalInfo
  numTemps : Nat

namespace FunctionInfo

def text (string : String) : Identifier :=
  string.toList.map fun char => Int8.ofNat char.toNat

def newLocal (info : FunctionInfo) (name : Identifier) (id : LocalId) : FunctionInfo :=
  { info with locals := info.locals ++ [⟨name, id⟩] }

def newTemporary (info : FunctionInfo) : FunctionInfo :=
  { info.newLocal (text ("tmp" ++ toString (info.numTemps + 1))) (.temporary (info.numTemps + 1))
    with numTemps := info.numTemps + 1 }

def allocate (info : FunctionInfo) : Allocation → FunctionInfo
  | .variable name path => info.newLocal name (.variable path)
  | .temporary => info.newTemporary

/-- `LookupLocal`: the first local of this name. There may be none. -/
def lookupLocal (info : FunctionInfo) (name : Identifier) : Option LocalId :=
  (info.locals.find? fun l => l.name = name).map LocalInfo.id

def allocateFunc (returnsNil : Bool) (params : List Identifier) : FunctionInfo :=
  { locals := (if returnsNil then [] else [⟨text "hiddenRv", .returnValue⟩]) ++
      params.mapIdx fun i name => ⟨name, .parameter i⟩
    numTemps := 0 }

end FunctionInfo

/-- What the visitors of expressions do to the frame: which operands they visit, and how many
temporaries they allocate before each of them and behind the last. -/
structure Allocator where
  visited : List Nat → Expr → List Nat
  temporaries : List Nat → Expr → Nat → Nat

namespace Allocator

variable (a : Allocator)

def newTemporaries (path : List Nat) (expression : Expr) (k : Nat) : List Allocation :=
  .replicate (a.temporaries path expression k) .temporary

/-- What is allocated in a visit of an expression, given what is allocated for its operands. -/
def nodeFrom (path : List Nat) (expression : Expr) (operands : List (List Allocation)) :
    Nat → List Nat → List Allocation
  | k, [] => a.newTemporaries path expression k
  | k, operand :: rest =>
    a.newTemporaries path expression k ++
      (operands.getD operand [] ++ nodeFrom path expression operands (k + 1) rest)

def node (path : List Nat) (expression : Expr) (operands : List (List Allocation)) :
    List Allocation :=
  a.nodeFrom path expression operands 0 (a.visited path expression)

mutual

def visitExpr (path : List Nat) : Expr → List Allocation
  | .binaryOp op left right =>
    a.node path (.binaryOp op left right) [visitExpr (0 :: path) left, visitExpr (1 :: path) right]
  | .comparisonOp op left right =>
    a.node path (.comparisonOp op left right)
      [visitExpr (0 :: path) left, visitExpr (1 :: path) right]
  | .call function arguments =>
    a.node path (.call function arguments) (visitExprs path 0 arguments)
  | .builtinCall function arguments =>
    a.node path (.builtinCall function arguments) (visitExprs path 0 arguments)
  | .index object index =>
    a.node path (.index object index) [visitExpr (0 :: path) object, visitExpr (1 :: path) index]
  | .member object member => a.node path (.member object member) [visitExpr (0 :: path) object]
  | .unaryOp op expression =>
    a.node path (.unaryOp op expression) [visitExpr (0 :: path) expression]
  | .functionLit _ body => visitStmt (0 :: path) body
  | expression => a.node path expression []

def visitExprs (path : List Nat) : Nat → List Expr → List (List Allocation)
  | _, [] => []
  | k, expression :: expressions =>
    visitExpr (k :: path) expression :: visitExprs path (k + 1) expressions

def visitStmt (path : List Nat) : Stmt → List Allocation
  | .assignment destination source =>
    visitExpr (0 :: path) destination ++ visitExpr (1 :: path) source
  | .block statements => visitStmts path 0 statements
  | .decl (.variable name _ initial) =>
    .variable name path :: visitExpr? (0 :: path) initial
  | .decl _ | .forIn .. => []
  | .expression expression => visitExpr (0 :: path) expression
  | .for init condition next body =>
    visitStmt? (0 :: path) init ++ (visitExpr? (1 :: path) condition ++
      (visitStmt (2 :: path) body ++ visitStmt? (3 :: path) next))
  | .if condition thenStmt elseStmt =>
    visitExpr (0 :: path) condition ++
      (visitStmt (1 :: path) thenStmt ++ visitStmt? (2 :: path) elseStmt)
  | .return ret => visitExpr? (0 :: path) ret

def visitStmts (path : List Nat) : Nat → List Stmt → List Allocation
  | _, [] => []
  | k, statement :: statements =>
    visitStmt (k :: path) statement ++ visitStmts path (k + 1) statements

def visitExpr? (path : List Nat) : Option Expr → List Allocation
  | none => []
  | some expression => visitExpr path expression

def visitStmt? (path : List Nat) : Option Stmt → List Allocation
  | none => []
  | some statement => visitStmt path statement

end

end Allocator

end Terrier.Tpl
