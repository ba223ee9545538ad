import Mathlib.Tactic

/-!
The tables of a query block, and the binding of column references. A chain of contexts is a list
with the innermost block first, so that the depth of a block is the number of contexts behind it.
Types of columns are a parameter.
-/

namespace Terrier.Binder

variable {τ : Type}

structure Column (τ : Type) where
  name : String
  oid : Nat
  type : τ
  deriving DecidableEq

structure TableMetadata (τ : Type) where
  dbOid : Nat
  tableOid : Nat
  schema : List (Column τ)

structure BinderContext (τ : Type) where
  regularTableAliasMap : List (String × TableMetadata τ)
  nestedTableAliasMap : List (String × List (String × τ))

/-- A column reference after binding; the oids of its database, table and column are left invalid
when the table is derived. -/
structure BoundColumn (τ : Type) where
  tableName : String
  name : String
  oids : Option (Nat × Nat × Nat)
  type : τ
  depth : Nat
  deriving DecidableEq

def columnInSchema (tableName name : String) (depth : Nat) (table : TableMetadata τ) :
    Option (BoundColumn τ) :=
  (table.schema.find? (·.name = name)).map fun column =>
    ⟨tableName, name, some (table.dbOid, table.tableOid, column.oid), column.type, depth⟩

def nestedColumn (tableAlias name : String) (depth : Nat) (columns : List (String × τ)) :
    Option (BoundColumn τ) :=
  (columns.lookup name).map fun type => ⟨tableAlias, name, none, type, depth⟩

/-- `SetColumnPosTuple`: a second match in the block is an error. -/
def setColumnPosTuple (name : String) :
    List (BinderContext τ) → Except String (Option (BoundColumn τ))
  | [] => .ok none
  | context :: upper =>
    match (context.regularTableAliasMap.filterMap fun entry =>
          columnInSchema entry.1 name upper.length entry.2) ++
        context.nestedTableAliasMap.filterMap fun entry =>
          nestedColumn entry.1 name upper.length entry.2 with
    | [] => setColumnPosTuple name upper
    | [bound] => .ok (some bound)
    | _ => .error s!"Ambiguous column name {name}"

def getRegularTableObj (tableAlias : String) :
    List (BinderContext τ) → Option (TableMetadata τ × Nat)
  | [] => none
  | context :: upper =>
    match context.regularTableAliasMap.lookup tableAlias with
    | some table => some (table, upper.length)
    | none => getRegularTableObj tableAlias upper

def checkNestedTableColumn (tableAlias name : String) :
    List (BinderContext τ) → Except String (Option (BoundColumn τ))
  | [] => .ok none
  | context :: upper =>
    match context.nestedTableAliasMap.lookup tableAlias with
    | some columns =>
      match nestedColumn tableAlias name upper.length columns with
      | some bound => .ok (some bound)
      | none => .error s!"Cannot find column {name}"
    | none => checkNestedTableColumn tableAlias name upper

/-- The visit of a column reference that has not been bound. Without a table the name is empty. -/
def visitColumnValue (contexts : List (BinderContext τ)) (tableName colName : String) :
    Except String (BoundColumn τ) := do
  let tableAlias := tableName.toLower
  let name := colName.toLower
  if tableAlias = "" then
    match ← setColumnPosTuple name contexts with
    | some bound => .ok bound
    | none => .error s!"Cannot find column {name}"
  else
    match getRegularTableObj tableAlias contexts with
    | some (table, depth) =>
      match columnInSchema tableName name depth table with
      | some bound => .ok bound
      | none => .error s!"Cannot find column {name}"
    | none =>
      match ← checkNestedTableColumn tableAlias name contexts with
      | some bound => .ok bound
      | none => .error s!"Invalid table reference {tableName}"

/-- A table of a FROM clause. An item of a select list has an alias or the name of a column, or
neither, and a type. -/
inductive TableRef (τ : Type)
  | base (tableAlias : String) (table : TableMetadata τ)
  | derived (tableAlias : String) (selectList : List (Option String × τ))

def addNestedColumn (columns : List (String × τ)) : Option String × τ → List (String × τ)
  | (some name, type) => (name.toLower, type) :: columns.filter (·.1 ≠ name.toLower)
  | (none, _) => columns

/-- The visit of a table reference, with `AddRegularTable` and `AddNestedTable`. -/
def addTable (context : BinderContext τ) : TableRef τ → Except String (BinderContext τ)
  | .base tableAlias table =>
    if tableAlias ∈ context.nestedTableAliasMap.map Prod.fst ++
        context.regularTableAliasMap.map Prod.fst then
      .error s!"Duplicate alias {tableAlias}"
    else
      .ok ⟨context.regularTableAliasMap ++ [(tableAlias, table)], context.nestedTableAliasMap⟩
  | .derived tableAlias selectList =>
    if tableAlias = "" then
      .error "Alias not found for query derived table"
    else if tableAlias ∈ context.regularTableAliasMap.map Prod.fst ++
        context.nestedTableAliasMap.map Prod.fst then
      .error s!"Duplicate alias {tableAlias}"
    else
      .ok ⟨context.regularTableAliasMap,
        context.nestedTableAliasMap ++ [(tableAlias, selectList.foldl addNestedColumn [])]⟩

/-- The contexts of query blocks, each inside the next. -/
def enterBlocks (blocks : List (List (TableRef τ))) : Except String (List (BinderContext τ)) :=
  blocks.mapM fun tables => tables.foldlM addTable ⟨[], []⟩

def regularColumns (depth : Nat) (entry : String × TableMetadata τ) : List (BoundColumn τ) :=
  entry.2.schema.map fun column => ⟨entry.1, column.name,
    some (entry.2.dbOid, entry.2.tableOid, column.oid), column.type, depth⟩

def nestedColumns (depth : Nat) (entry : String × List (String × τ)) : List (BoundColumn τ) :=
  entry.2.map fun column => ⟨entry.1, column.1, none, column.2, depth⟩

def generateAllColumnExpressions (depth : Nat) (context : BinderContext τ) :
    List (BoundColumn τ) :=
  context.regularTableAliasMap.flatMap (regularColumns depth) ++
    context.nestedTableAliasMap.flatMap (nestedColumns depth)

end Terrier.Binder
