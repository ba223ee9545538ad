import Terrier.Execution.Ast

/-!
How the semantic analysis resolves names. A name is declared in the innermost scope unless it is
visible already; a variable declaration is rejected only if the innermost scope has the name.
The types of expressions, and the other checks, are parameters.
-/

namespace Terrier.Tpl

variable {τ : Type}

abbrev Scopes (τ : Type) := List (List (Identifier × τ))

namespace Scopes

def lookupLocal (scope : List (Identifier × τ)) (name : Identifier) : Option τ :=
  (scope.find? fun decl => decl.1 = name).map Prod.snd

def lookup (scopes : Scopes τ) (name : Identifier) : Option τ :=
  scopes.findSome? fun scope => lookupLocal scope name

def declare (scopes : Scopes τ) (name : Identifier) (type : τ) : Scopes τ :=
  if (scopes.lookup name).isSome then
    scopes
  else
    ((name, type) :: scopes.headD []) :: scopes.tail

def declareAll (scopes : Scopes τ) (decls : List (Identifier × τ)) : Scopes τ :=
  decls.foldl (fun scopes decl => scopes.declare decl.1 decl.2) scopes

end Scopes

/-- The typing rules of the analysis, at the nodes of a tree and in the types of the names that are
visible there. -/
structure TypeRules (τ : Type) where
  builtinType : Identifier → Option τ
  /-- `Resolve` of an expression or of a type. -/
  resolve : List Nat → (Identifier → Option τ) → Expr → Option τ
  /-- The types of the parameters of a function literal. -/
  paramType : List Nat → (Identifier → Option τ) → Expr → Nat → τ
  /-- The checks of a statement that are left. -/
  allows : List Nat → (Identifier → Option τ) → Stmt → Bool

def paramNames : Expr → List Identifier
  | .functionType parameters _ => parameters.filterMap fun (.mk name _) => name
  | _ => []

namespace TypeRules

variable (rules : TypeRules τ)

/-- `VisitIdentifierExpr`. -/
def typeOf (scopes : Scopes τ) (name : Identifier) : Option τ :=
  (scopes.lookup name).or (rules.builtinType name)

def declaredType (path : List Nat) (scopes : Scopes τ) : Option Expr → Option Expr → Option τ
  | some typeRepr, _ => rules.resolve (1 :: path) (rules.typeOf scopes) typeRepr
  | none, some initial => rules.resolve (0 :: path) (rules.typeOf scopes) initial
  | none, none => none

def literalParams (path : List Nat) (scopes : Scopes τ) (typeRepr : Expr) : List (Identifier × τ) :=
  (paramNames typeRepr).mapIdx fun i name =>
    (name, rules.paramType path (rules.typeOf scopes) typeRepr i)

mutual

/-- Every name in an expression is visible. The function of a call and the types are left to
`resolve`. -/
def checkExpr (path : List Nat) (scopes : Scopes τ) : Expr → Bool
  | .identifier name => (rules.typeOf scopes name).isSome
  | .binaryOp _ left right =>
    checkExpr (0 :: path) scopes left && checkExpr (1 :: path) scopes right
  | .comparisonOp _ left right =>
    checkExpr (0 :: path) scopes left && checkExpr (1 :: path) scopes right
  | .call _ arguments => checkExprs path scopes 0 arguments
  | .builtinCall _ arguments => checkExprs path scopes 0 arguments
  | .index object index => checkExpr (0 :: path) scopes object && checkExpr (1 :: path) scopes index
  | .member object _ => checkExpr (0 :: path) scopes object
  | .unaryOp _ expression => checkExpr (0 :: path) scopes expression
  | .functionLit typeRepr body =>
    (checkStmt (0 :: path)
      (Scopes.declareAll ([] :: scopes) (rules.literalParams path scopes typeRepr)) body).isSome
  | .bad => false
  | _ => true

def checkExprs (path : List Nat) (scopes : Scopes τ) : Nat → List Expr → Bool
  | _, [] => true
  | k, expression :: expressions =>
    checkExpr (k :: path) scopes expression && checkExprs path scopes (k + 1) expressions

/-- The scopes behind a statement, or nothing if it is rejected. Functions and structs are not
declared in statements. -/
def checkStmt (path : List Nat) (scopes : Scopes τ) (statement : Stmt) : Option (Scopes τ) :=
  if rules.allows path (rules.typeOf scopes) statement then
    match statement with
    | .assignment destination source =>
      if checkExpr (0 :: path) scopes destination && checkExpr (1 :: path) scopes source then
        some scopes
      else
        none
    | .block statements => do
        let after ← checkStmts path ([] :: scopes) 0 statements
        return after.tail
    | .decl (.variable name typeRepr initial) =>
      -- `LookupLocal` in the current scope, before anything else.
      if (Scopes.lookupLocal (scopes.headD []) name).isSome then
        none
      else if checkExpr? (0 :: path) scopes initial then do
        let type ← rules.declaredType path scopes typeRepr initial
        return scopes.declare name type
      else
        none
    | .decl _ => none
    | .expression expression =>
      if checkExpr (0 :: path) scopes expression then some scopes else none
    | .for init condition next body => do
        let scopes ← checkStmt? (0 :: path) ([] :: scopes) init
        if checkExpr? (1 :: path) scopes condition then
          let scopes ← checkStmt? (3 :: path) scopes next
          let scopes ← checkStmt (2 :: path) scopes body
          return scopes.tail
        else
          none
    | .forIn .. => none
    | .if condition thenStmt elseStmt =>
      if checkExpr (0 :: path) scopes condition then do
        let scopes ← checkStmt (1 :: path) scopes thenStmt
        checkStmt? (2 :: path) scopes elseStmt
      else
        none
    | .return ret => if checkExpr? (0 :: path) scopes ret then some scopes else none
  else
    none

def checkStmts (path : List Nat) (scopes : Scopes τ) : Nat → List Stmt → Option (Scopes τ)
  | _, [] => some scopes
  | k, statement :: statements => do
      let scopes ← checkStmt (k :: path) scopes statement
      checkStmts path scopes (k + 1) statements

def checkExpr? (path : List Nat) (scopes : Scopes τ) : Option Expr → Bool
  | none => true
  | some expression => checkExpr path scopes expression

def checkStmt? (path : List Nat) (scopes : Scopes τ) : Option Stmt → Option (Scopes τ)
  | none => some scopes
  | some statement => checkStmt path scopes statement

end

end TypeRules

end Terrier.Tpl
