import Terrier.Lib.BigEndian

/-!
The packets that carry the rows of a result. The writer walks over the columns of the schema
with an offset into the row. A value that is read where no value starts, or as one of another
kind, is undefined and has no result.
-/

namespace Terrier.Network

inductive ColumnType
  | boolean | tinyint | smallint | integer | bigint | decimal | timestamp | date | varchar
  deriving DecidableEq, Repr

inductive ValueKind
  | bool | integer | real | date | timestamp | string
  deriving DecidableEq, Repr

def ColumnType.kind : ColumnType → ValueKind
  | .boolean => .bool
  | .tinyint | .smallint | .integer | .bigint => .integer
  | .decimal => .real
  | .timestamp => .timestamp
  | .date => .date
  | .varchar => .string

/-- A value that is not NULL; floating-point numbers are given by their bits. -/
inductive Value
  | bool (val : Bool)
  | integer (val : Int64)
  | real (val : UInt64)
  | date (val : UInt32)
  | timestamp (val : UInt64)
  | string (content : List UInt8)
  deriving DecidableEq

def Value.kind : Value → ValueKind
  | .bool _ => .bool
  | .integer _ => .integer
  | .real _ => .real
  | .date _ => .date
  | .timestamp _ => .timestamp
  | .string _ => .string

/-- `ValUtil::GetSqlSize`: the sizes of the values, aligned to eight bytes. -/
def getSqlSize (type : ColumnType) : Nat :=
  match type.kind with
  | .bool => 8
  | .integer => 16
  | .real => 16
  | .date => 8
  | .timestamp => 16
  | .string => 24

theorem getSqlSize_pos (type : ColumnType) : 0 < getSqlSize type := by
  cases type <;> decide

structure Cell where
  type : ColumnType
  value : Option Value
  kind_eq : ∀ v ∈ value, v.kind = type.kind

def cellAt : List Cell → Nat → Option Cell
  | [], _ => none
  | cell :: cells, offset =>
    if offset = 0 then some cell
    else if offset < getSqlSize cell.type then none
    else cellAt cells (offset - getSqlSize cell.type)

inductive FieldFormat
  | text
  | binary
  deriving DecidableEq, Repr

/-- The texts of numbers and dates, and what `AppendValue` makes of a floating-point number: an
integer, with the bytes reversed, as a floating-point number again. -/
structure TextForms where
  real : UInt64 → List UInt8
  date : UInt32 → List UInt8
  timestamp : UInt64 → List UInt8
  appended : UInt64 → UInt64

def ascii (text : String) : List UInt8 := text.toList.map fun c => UInt8.ofNat c.toNat

namespace Value

def text (forms : TextForms) : Value → List UInt8
  | .bool val => if val then ascii "t" else ascii "f"
  | .integer val => ascii (toString val.toInt)
  | .real val => forms.real val
  | .date val => forms.date val
  | .timestamp val => forms.timestamp val
  | .string content => content

def binary (forms : TextForms) : Value → List UInt8
  | .bool val => [if val then 1 else 0]
  | .integer val => BigEndian.encode 8 val.toUInt64.toNat
  | .real val => (BigEndian.encode 8 (forms.appended val).toNat).reverse
  | .date val => BigEndian.encode 4 val.toNat
  | .timestamp val => BigEndian.encode 8 val.toNat
  | .string content => content

end Value

/-- A packet that is being written. The length counts what was appended, in 32 bits. -/
structure OpenPacket where
  type : UInt8
  length : UInt32
  body : List UInt8
  deriving DecidableEq, Repr

namespace OpenPacket

def beginPacket (type : UInt8) : OpenPacket := ⟨type, 0, []⟩

def appendRaw (p : OpenPacket) (src : List UInt8) : OpenPacket :=
  { p with length := p.length + UInt32.ofNat src.length, body := p.body ++ src }

def appendValue (p : OpenPacket) (width n : Nat) : OpenPacket :=
  p.appendRaw (BigEndian.encode width n)

/-- The bytes of the packet: the length includes its own four bytes. -/
def endPacket (p : OpenPacket) : List UInt8 :=
  p.type :: (BigEndian.encode 4 (p.length + 4).toNat ++ p.body)

/-- A column that is not NULL. In binary the announced length is the size of the value in the
engine, except for strings. -/
def appendField (p : OpenPacket) (forms : TextForms) (format : FieldFormat) (type : ColumnType)
    (value : Value) : OpenPacket :=
  match format with
  | .text => (p.appendValue 4 (value.text forms).length).appendRaw (value.text forms)
  | .binary =>
    match value with
    | .string content => (p.appendValue 4 content.length).appendRaw content
    | value => (p.appendValue 4 (getSqlSize type)).appendRaw (value.binary forms)

/-- The loop over the columns. A NULL is written as the length -1, and the offset stays. -/
def writeColumns (forms : TextForms) (format : FieldFormat) (tuple : List Cell) :
    OpenPacket → Nat → List ColumnType → Option OpenPacket
  | p, _, [] => some p
  | p, offset, type :: types => do
      let cell ← cellAt tuple offset
      match cell.value with
      | none => writeColumns forms format tuple (p.appendValue 4 (2 ^ 32 - 1)) offset types
      | some value =>
        if value.kind = type.kind then
          writeColumns forms format tuple (p.appendField forms format type value)
            (offset + getSqlSize type) types
        else none

end OpenPacket

def writeDataRow (forms : TextForms) (format : FieldFormat) (tuple : List Cell) :
    Option (List UInt8) :=
  let columns := tuple.map Cell.type
  ((OpenPacket.beginPacket 68).appendValue 2 columns.length
    |>.writeColumns forms format tuple 0 columns).map OpenPacket.endPacket

end Terrier.Network
