import Terrier.Lib.ControlFlow
import Terrier.Execution.Sema
import Terrier.Execution.BytecodeEmitter

/-!
The control flow of the bytecode generator, built without assertions. Statements, logical operators
and function literals are translated as in the source. The visitors of all other expressions visit
some of the operands, each at most once, and emit instructions without jumps; which ones is left
open.
-/

namespace Terrier.Tpl

open ControlFlow (Code Item)

inductive LabelKind where
  | thenLabel
  | elseLabel
  | endLabel
  | headerLabel
  | continueLabel
  | breakLabel
deriving DecidableEq

/-- A label belongs to the node of the syntax tree that its builder is made for. The node is given
by the way to it, from the node up. -/
structure Label where
  path : List Nat
  kind : LabelKind
deriving DecidableEq

structure PlainEmission where
  emission : Emission Label
  not_jump : Bytecodes.isJump emission.instruction.bytecode = false
  not_return : emission.instruction.bytecode ≠ .return
  fits : emission.instruction.Fits

structure Test where
  jumpIf : Bool
  cond : LocalVar

def Test.bytecode (test : Test) : Bytecode :=
  if test.jumpIf then .jumpIfTrue else .jumpIfFalse

/-- Code of a function. A return instruction says whether it belongs to a return statement with a
value. -/
abbrev TplCode := Code Label PlainEmission Test Bool

def emitCall : Item Label PlainEmission Test Bool → EmitCall Label
  | .plain instruction => .emit instruction.emission
  | .jump label => .emit (.jump .jump label)
  | .branch test label => .emit (.conditionalJump test.bytecode test.cond label)
  | .ret _ => .emit .return
  | .bind label => .bind label

/-- What the visitors of expressions do apart from control flow, at the nodes of a tree. -/
structure Visitors where
  /-- The operands that the visitor of an expression visits, in this order. -/
  visited : List Nat → Expr → List Nat
  visited_nodup : ∀ path expression, (visited path expression).Nodup
  /-- What it emits before each of them, and behind the last. The implicit casts of the operands
  and of the expression are among it. -/
  straight : List Nat → Expr → Nat → List PlainEmission
  /-- Where the value of an expression is found. -/
  destination : List Nat → Expr → LocalVar
  /-- `BuildAssign` of a returned value. -/
  assign : List Nat → Expr → List PlainEmission
  /-- Whether the visitor itself throws or is undefined. It may look at the execution result where
  there is none, in an expression statement, or at a local that there is not. -/
  fails : List Nat → Expr → Bool

namespace Visitors

variable (v : Visitors)

def nodeFrom (path : List Nat) (expression : Expr) (codes : List TplCode) : Nat → List Nat → TplCode
  | k, [] => (v.straight path expression k).map .plain
  | k, operand :: operands =>
    (v.straight path expression k).map .plain ++
      (codes.getD operand [] ++ nodeFrom path expression codes (k + 1) operands)

def node (path : List Nat) (expression : Expr) (codes : List TplCode) : TplCode :=
  v.nodeFrom path expression codes 0 (v.visited path expression)

def logical (jumpIf : Bool) (path : List Nat) (expression : Expr) (left right : TplCode) :
    TplCode :=
  left ++ (ControlFlow.skip ⟨jumpIf, v.destination path expression⟩ ⟨path, .endLabel⟩ right ++
      (v.straight path expression 0).map .plain)

/-- `VisitIfStmt`. The jump to the end is left out behind a terminating statement. -/
def ifThenElse (path : List Nat) (cond : LocalVar) (terminating : Bool)
    (thenCode elseCode : TplCode) : TplCode :=
  if terminating then
    ControlFlow.skip ⟨false, cond⟩ ⟨path, .elseLabel⟩ (.bind ⟨path, .thenLabel⟩ :: thenCode) ++
      (elseCode ++ [.bind ⟨path, .endLabel⟩])
  else
    ControlFlow.diamond ⟨false, cond⟩ ⟨path, .elseLabel⟩ ⟨path, .endLabel⟩
      (.bind ⟨path, .thenLabel⟩ :: thenCode) elseCode

def ifThen (path : List Nat) (cond : LocalVar) (thenCode : TplCode) : TplCode :=
  ControlFlow.skip ⟨false, cond⟩ ⟨path, .elseLabel⟩ (.bind ⟨path, .thenLabel⟩ :: thenCode) ++
    [.bind ⟨path, .endLabel⟩]

def forLoop (path : List Nat) (cond : LocalVar) (condition body next : TplCode) : TplCode :=
  ControlFlow.loop ⟨false, cond⟩ ⟨path, .headerLabel⟩ ⟨path, .breakLabel⟩ condition
    (body ++ (.bind ⟨path, .continueLabel⟩ :: next))

def forEver (path : List Nat) (body next : TplCode) : TplCode :=
  ControlFlow.forever ⟨path, .headerLabel⟩ (body ++ (.bind ⟨path, .continueLabel⟩ :: next)) ++
    [.bind ⟨path, .breakLabel⟩]

mutual

def visitExpr (path : List Nat) : Expr → TplCode
  | .binaryOp .or left right =>
    v.logical true path (.binaryOp .or left right) (visitExpr (0 :: path) left)
      (visitExpr (1 :: path) right)
  | .binaryOp .and left right =>
    v.logical false path (.binaryOp .and left right) (visitExpr (0 :: path) left)
      (visitExpr (1 :: path) right)
  | .binaryOp op left right =>
    v.node path (.binaryOp op left right) [visitExpr (0 :: path) left, visitExpr (1 :: path) right]
  | .comparisonOp op left right =>
    v.node path (.comparisonOp op left right)
      [visitExpr (0 :: path) left, visitExpr (1 :: path) right]
  | .call function arguments =>
    v.node path (.call function arguments) (visitExprs path 0 arguments)
  | .builtinCall function arguments =>
    v.node path (.builtinCall function arguments) (visitExprs path 0 arguments)
  | .index object index =>
    v.node path (.index object index) [visitExpr (0 :: path) object, visitExpr (1 :: path) index]
  | .member object member => v.node path (.member object member) [visitExpr (0 :: path) object]
  | .unaryOp op expression =>
    v.node path (.unaryOp op expression) [visitExpr (0 :: path) expression]
  | .functionLit _ body => visitStmt (0 :: path) body
  | expression => v.node path expression []

def visitExprs (path : List Nat) : Nat → List Expr → List TplCode
  | _, [] => []
  | k, expression :: expressions =>
    visitExpr (k :: path) expression :: visitExprs path (k + 1) expressions

/-- The code of a statement. There is none for a for-in statement, and functions are not declared in
statements. -/
def visitStmt (path : List Nat) : Stmt → TplCode
  | .assignment destination source =>
    visitExpr (0 :: path) destination ++ visitExpr (1 :: path) source
  | .block statements => visitStmts path 0 statements
  | .decl (.variable _ _ (some initial)) => visitExpr (0 :: path) initial
  | .decl _ => []
  | .expression expression => visitExpr (0 :: path) expression
  | .for init (some condition) next body =>
    visitStmt? (0 :: path) init ++
      forLoop path (v.destination (1 :: path) condition) (visitExpr (1 :: path) condition)
        (visitStmt (2 :: path) body) (visitStmt? (3 :: path) next)
  | .for init none next body =>
    visitStmt? (0 :: path) init ++
      forEver path (visitStmt (2 :: path) body) (visitStmt? (3 :: path) next)
  | .forIn .. => []
  | .if condition thenStmt none =>
    visitExpr (0 :: path) condition ++
      ifThen path (v.destination (0 :: path) condition) (visitStmt (1 :: path) thenStmt)
  | .if condition thenStmt (some elseStmt) =>
    visitExpr (0 :: path) condition ++ ifThenElse path (v.destination (0 :: path) condition)
        (isTerminating thenStmt = some true) (visitStmt (1 :: path) thenStmt)
        (visitStmt (2 :: path) elseStmt)
  | .return none => [.ret false]
  | .return (some ret) =>
    visitExpr (0 :: path) ret ++ ((v.assign path ret).map .plain ++ [.ret true])

def visitStmts (path : List Nat) : Nat → List Stmt → TplCode
  | _, [] => []
  | k, statement :: statements =>
    visitStmt (k :: path) statement ++ visitStmts path (k + 1) statements

def visitStmt? (path : List Nat) : Option Stmt → TplCode
  | none => []
  | some statement => visitStmt path statement

end

def visitedHave (path : List Nat) (expression : Expr) (operands : List Bool) : Bool :=
  !v.fails path expression &&
    (v.visited path expression).all fun operand => operands.getD operand true

mutual

/-- The visit of an expression ends, and nothing in it is undefined. -/
def supportsExpr (path : List Nat) : Expr → Bool
  | .binaryOp .or left right =>
    !v.fails path (.binaryOp .or left right) && supportsExpr (0 :: path) left &&
      supportsExpr (1 :: path) right
  | .binaryOp .and left right =>
    !v.fails path (.binaryOp .and left right) && supportsExpr (0 :: path) left &&
      supportsExpr (1 :: path) right
  | .binaryOp op left right =>
    v.visitedHave path (.binaryOp op left right)
      [supportsExpr (0 :: path) left, supportsExpr (1 :: path) right]
  | .comparisonOp op left right =>
    v.visitedHave path (.comparisonOp op left right)
      [supportsExpr (0 :: path) left, supportsExpr (1 :: path) right]
  | .call function arguments =>
    v.visitedHave path (.call function arguments) (supportsExprs path 0 arguments)
  | .builtinCall function arguments =>
    v.visitedHave path (.builtinCall function arguments) (supportsExprs path 0 arguments)
  | .index object index =>
    v.visitedHave path (.index object index)
      [supportsExpr (0 :: path) object, supportsExpr (1 :: path) index]
  | .member object member =>
    v.visitedHave path (.member object member) [supportsExpr (0 :: path) object]
  | .unaryOp op expression =>
    v.visitedHave path (.unaryOp op expression) [supportsExpr (0 :: path) expression]
  | .functionLit _ body => supportsStmt (0 :: path) body
  | expression => v.visitedHave path expression []

def supportsExprs (path : List Nat) : Nat → List Expr → List Bool
  | _, [] => []
  | k, expression :: expressions =>
    supportsExpr (k :: path) expression :: supportsExprs path (k + 1) expressions

def supportsStmt (path : List Nat) : Stmt → Bool
  | .assignment destination source =>
    supportsExpr (0 :: path) destination && supportsExpr (1 :: path) source
  | .block statements => supportsStmts path 0 statements
  | .decl (.variable _ _ (some initial)) => supportsExpr (0 :: path) initial
  | .decl (.function ..) => false
  | .decl _ | .forIn .. | .return none => true
  | .expression expression => supportsExpr (0 :: path) expression
  | .for init (some condition) next body =>
    supportsStmt? (0 :: path) init && supportsExpr (1 :: path) condition &&
      supportsStmt (2 :: path) body && supportsStmt? (3 :: path) next
  | .for init none next body =>
    supportsStmt? (0 :: path) init && supportsStmt (2 :: path) body &&
      supportsStmt? (3 :: path) next
  | .if condition thenStmt none =>
    supportsExpr (0 :: path) condition && supportsStmt (1 :: path) thenStmt
  | .if condition thenStmt (some elseStmt) =>
    -- The generator asks whether the first statement is terminating.
    supportsExpr (0 :: path) condition && supportsStmt (1 :: path) thenStmt &&
      (isTerminating thenStmt).isSome && supportsStmt (2 :: path) elseStmt
  | .return (some ret) => supportsExpr (0 :: path) ret

def supportsStmts (path : List Nat) : Nat → List Stmt → Bool
  | _, [] => true
  | k, statement :: statements =>
    supportsStmt (k :: path) statement && supportsStmts path (k + 1) statements

def supportsStmt? (path : List Nat) : Option Stmt → Bool
  | none => true
  | some statement => supportsStmt path statement

end

end Visitors

structure TplFunction where
  returnsNil : Bool
  body : Stmt

namespace Visitors

variable (v : Visitors)

def supports (k : Nat) (function : TplFunction) : Bool :=
  v.supportsStmt [k] function.body

def visitFunctionDecl (k : Nat) (function : TplFunction) : Option TplCode :=
  if v.supports k function then some (v.visitStmt [k] function.body) else none

/-- `VisitFile` on function declarations, the first of which has the given number. -/
def visitFile : Nat → List TplFunction → Option (List TplCode)
  | _, [] => some []
  | k, function :: functions => do
      return (← v.visitFunctionDecl k function) :: (← visitFile (k + 1) functions)

end Visitors

def Sema.visitFile (nilType : List Nat → Expr → Bool) :
    Nat → List TplFunction → Option (List TplFunction)
  | _, [] => some []
  | k, function :: functions => do
      let body ← Sema.visitFunction nilType [k] function.returnsNil function.body
      return ⟨function.returnsNil, body⟩ :: (← Sema.visitFile nilType (k + 1) functions)

end Terrier.Tpl
