import Terrier.Network.PacketWriter

/-!
`INSERT ... VALUES` from the parsed statement to the plan: the binder converts
the constants to the types of the columns, the transformer checks the column
list. Both throw to reject a statement.
-/

namespace Terrier.Sql

open Network (ColumnType Value)

/-- A column; `default` is the value of its default expression if it has one. -/
structure Column where
  name : String
  type : ColumnType
  nullable : Bool
  default : Option (Option Value)
  deriving DecidableEq

structure Schema where
  columns : List Column
  nodup : (columns.map Column.name).Nodup

def Schema.getColumn (schema : Schema) (name : String) : Option Column :=
  schema.columns.find? (·.name = name)

/-- A constant as it is written; floating-point numbers are given by their bits. -/
inductive Literal
  | integer (n : Int)
  | decimal (bits : UInt64)
  | string (content : List UInt8)
  | null
  deriving DecidableEq

/-- Conversions that are not spelled out here: of numbers to floating-point numbers, whether such a
number is exactly a given integer, and of texts to dates and timestamps. -/
structure Conversions where
  toDouble : Int → UInt64
  exact : UInt64 → Int → Bool
  parseDate : List UInt8 → Option UInt32
  parseTimestamp : List UInt8 → Option UInt64

/-- A `TransientValue`: its type, which NULL does not have, and its value. -/
structure Constant where
  type : Option ColumnType
  value : Option Value
  deriving DecidableEq

/-- The parser's constants. A number that is not an integer of 32 bits is a floating-point number,
also if it is written without a point. -/
def valueTransform (conversions : Conversions) : Literal → Constant
  | .integer n =>
    if n.natAbs < 2 ^ 31 then ⟨some .integer, some (.integer (Int64.ofInt n))⟩
    else ⟨some .decimal, some (.real (conversions.toDouble n))⟩
  | .decimal bits => ⟨some .decimal, some (.real bits)⟩
  | .string content => ⟨some .varchar, some (.string content)⟩
  | .null => ⟨none, none⟩

/-- Why a statement has no result: it was rejected with a message, or memory outside of a vector was
accessed. -/
inductive Failure
  | rejected (message : String)
  | undefined
  deriving DecidableEq, Repr

def convertInteger (message : String) (type : ColumnType) (f : Int64 → Value) (c : Constant) :
    Except Failure Constant :=
  match c.type, c.value with
  | some .integer, some (.integer val) => .ok ⟨some type, some (f val)⟩
  | _, _ => .error (.rejected message)

def convertText (message unparsed : String) (type : ColumnType) (f : List UInt8 → Option Value)
    (c : Constant) : Except Failure Constant :=
  match c.type, c.value with
  | some .varchar, some (.string content) =>
    match f content with
    | some value => .ok ⟨some type, some value⟩
    | none => .error (.rejected unparsed)
  | _, _ => .error (.rejected message)

def convert (conversions : Conversions) (c : Constant) : ColumnType → Except Failure Constant
  | .tinyint =>
    convertInteger "Can't convert to TINYINT." .tinyint
      (fun val => .integer val.toInt32.toInt8.toInt64) c
  | .smallint =>
    convertInteger "Can't convert to SMALLINT." .smallint
      (fun val => .integer val.toInt32.toInt16.toInt64) c
  | .bigint =>
    convertInteger "Can't convert to BIGINT." .bigint (fun val => .integer val) c
  | .decimal =>
    convertInteger "Can't convert to DECIMAL." .decimal
      (fun val => .real (conversions.toDouble val.toInt)) c
  | .date =>
    convertText "Can't convert to DATE." "Unable to parse the date." .date
      (fun content => (conversions.parseDate content).map .date) c
  | .timestamp =>
    convertText "Can't convert to TIMESTAMP." "Unable to parse the timestamp." .timestamp
      (fun content => (conversions.parseTimestamp content).map .timestamp) c
  | .boolean | .integer | .varchar => .error (.rejected "Unimplemented binder conversion.")

def bindValue (conversions : Conversions) (type : ColumnType) (c : Constant) :
    Except Failure Constant :=
  if c.type = some type then .ok c else convert conversions c type

/-- The constants of a row are converted to the types of the first columns of the table, whatever
the column list says. -/
def bindValues (conversions : Conversions) :
    List Column → List Constant → Except Failure (List Constant)
  | _, [] => .ok []
  | [], _ :: _ => .error .undefined
  | column :: columns, c :: values => do
      let c ← bindValue conversions column.type c
      let rest ← bindValues conversions columns values
      return c :: rest

structure InsertStatement where
  table : String
  columns : List String
  values : List (List Literal)
  deriving DecidableEq

def bindRow (conversions : Conversions) (schema : Schema) (columns : List String)
    (row : List Literal) : Except Failure (List Constant) :=
  let specified := columns.length ≠ 0
  if specified ∧ row.length = columns.length ∨ ¬ specified ∧ row.length = schema.columns.length then
    bindValues conversions schema.columns (row.map (valueTransform conversions))
  else
    .error (.rejected "Mismatch in number of insert columns and number of insert values.")

def bindInsert (conversions : Conversions) (schema : Schema) (stmt : InsertStatement) :
    Except Failure (List (List Constant)) :=
  if stmt.columns.all fun name => (schema.getColumn name).isSome then
    stmt.values.mapM (bindRow conversions schema stmt.columns)
  else .error (.rejected "Insert column does not exist")

def notNullMessage (column : Column) : String :=
  "Null value in column \"" ++ column.name ++ "\" violates not-null constraint"

def Column.omissible (column : Column) : Bool := column.nullable || column.default.isSome

def checkOmitted (columns : List Column) : Except Failure Unit :=
  match columns.find? fun column => !column.omissible with
  | some column => .error (.rejected (notNullMessage column))
  | none => .ok ()

def missingMessage (table name : String) : String :=
  "Column \"" ++ name ++ "\" of relation \"" ++ table ++ "\" does not exist"

def transformInsert (schema : Schema) (table : String) (columns : List String)
    (rows : List (List Constant)) : Except Failure (List String) :=
  if columns = [] then do
    rows.forM fun row =>
      if schema.columns.length < row.length then
        .error (.rejected "INSERT has more expressions than target columns")
      else checkOmitted (schema.columns.drop row.length)
    return schema.columns.map Column.name
  else do
    rows.forM fun row =>
      if columns.length < row.length then
        .error (.rejected "INSERT has more expressions than target columns")
      else if row.length < columns.length then
        .error (.rejected "INSERT has more target columns than expressions")
      else .ok ()
    match columns.find? fun name => (schema.getColumn name).isNone with
    | some name => .error (.rejected (missingMessage table name))
    | none =>
      checkOmitted (schema.columns.filter fun column => column.name ∉ columns)
      return columns

structure InsertPlan where
  values : List (List Constant)
  parameterInfo : List String

def planInsert (conversions : Conversions) (schema : Schema) (stmt : InsertStatement) :
    Except Failure InsertPlan := do
  let rows ← bindInsert conversions schema stmt
  let columns ← transformInsert schema stmt.table stmt.columns rows
  return ⟨rows, columns⟩

end Terrier.Sql
