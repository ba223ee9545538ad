import Terrier.Execution.Token

/-!
The syntax trees of TPL.  Type representations are expressions, as in the source.  A child the
parser may leave out, or fails to parse, is optional.  Source positions are left out.
-/

namespace Terrier.Tpl

abbrev Identifier := List Int8

mutual

inductive Expr where
  | bad
  | binaryOp (op : TokenType) (left right : Expr)
  | call (function : Expr) (arguments : List Expr)
  | builtinCall (function : Expr) (arguments : List Expr)
  | comparisonOp (op : TokenType) (left right : Expr)
  | functionLit (typeRepr : Expr) (body : Stmt)
  | identifier (name : Identifier)
  | index (object index : Expr)
  | nilLit
  | boolLit (value : Bool)
  | intLit (digits : Identifier)
  | floatLit (digits : Identifier)
  | stringLit (value : Identifier)
  | member (object member : Expr)
  | unaryOp (op : TokenType) (expression : Expr)
  | arrayType (length : Option Expr) (elementType : Option Expr)
  | functionType (parameters : List FieldDecl) (returnType : Option Expr)
  | mapType (keyType valueType : Option Expr)
  | pointerType (base : Option Expr)
  | structType (fields : List FieldDecl)

inductive FieldDecl where
  | mk (name : Option Identifier) (typeRepr : Option Expr)

inductive Stmt where
  | assignment (destination source : Expr)
  | block (statements : List Stmt)
  | decl (declaration : Decl)
  | expression (expression : Expr)
  | for (init : Option Stmt) (condition : Option Expr) (next : Option Stmt) (body : Stmt)
  | forIn (target iter : Expr) (body : Stmt)
  | if (condition : Expr) (thenStmt : Stmt) (elseStmt : Option Stmt)
  | return (ret : Option Expr)

inductive Decl where
  | function (name : Identifier) (function : Expr)
  | struct (name : Identifier) (typeRepr : Expr)
  | variable (name : Identifier) (typeRepr : Option Expr) (initial : Option Expr)

end

end Terrier.Tpl
