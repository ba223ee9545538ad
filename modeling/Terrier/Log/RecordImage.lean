import Terrier.Lib.ByteReader
import Terrier.Log.BlockLayout

/-!
Log records as they stand in memory and in the log. `serializeRecord` is the sequence of
`WriteValue` calls, `readNextRecord` the reader of recovery, which has no layout and recomputes
sizes from the boundaries.
-/

namespace Terrier

inductive LogRecordType where
  | redo
  | delete
  | commit
  | abort
  deriving DecidableEq, Repr

namespace LogRecordType

def toByte : LogRecordType → UInt8
  | redo => 1
  | delete => 2
  | commit => 3
  | abort => 4

def ofByte (b : UInt8) : Option LogRecordType :=
  if b = 1 then some redo
  else if b = 2 then some delete
  else if b = 3 then some commit
  else if b = 4 then some abort
  else none

end LogRecordType

def inlineThreshold : Nat := 12

/-- The value of a column: bytes in the row, or a varlen entry whose content is
in the entry or behind a pointer. -/
inductive AttrValue where
  | fixed (bytes : List UInt8)
  | inlined (bytes : List UInt8)
  | external (content : List UInt8)
  deriving DecidableEq, Repr

namespace AttrValue

def content : AttrValue → List UInt8
  | fixed bytes => bytes
  | inlined bytes => bytes
  | external content => content

end AttrValue

/-- A projected row: column ids with their values, `none` for NULL. -/
structure Delta where
  size : Nat
  columns : List (UInt16 × Option AttrValue)
  deriving DecidableEq, Repr

namespace Delta

def colIds (delta : Delta) : List UInt16 := delta.columns.map Prod.fst

def notNull (delta : Delta) : List Bool := delta.columns.map (·.2.isSome)

end Delta

inductive RecordBody where
  | redo (dbOid tableOid : UInt32) (slot : UInt64) (delta : Delta)
  | delete (dbOid tableOid : UInt32) (slot : UInt64)
  | commit (txnCommit oldestActiveTxn : UInt64)
  | abort
  deriving DecidableEq, Repr

namespace RecordBody

def recordType : RecordBody → LogRecordType
  | redo _ _ _ _ => .redo
  | delete _ _ _ => .delete
  | commit _ _ => .commit
  | abort => .abort

/-- `Size()` of the record classes, the 16 bytes of `LogRecord` included. -/
def memorySize : RecordBody → Nat
  | redo _ _ _ delta => 16 + 16 + delta.size
  | delete _ _ _ => 16 + 16
  | commit _ _ => 16 + 56
  | abort => 16 + 16

end RecordBody

structure RecordImage where
  size : Nat
  txnBegin : UInt64
  body : RecordBody
  deriving DecidableEq, Repr

namespace RecordImage

def initializeRecord (txnBegin : UInt64) (body : RecordBody) : RecordImage :=
  ⟨body.memorySize, txnBegin, body⟩

end RecordImage

def serializeAttr (layout : BlockLayout) (column : UInt16 × Option AttrValue) : List (List UInt8) :=
  match column.2 with
  | none => []
  | some value =>
    if layout.isVarlen column.1.toNat then
      [LittleEndian.encode 4 value.content.length, value.content]
    else [value.content.take (layout.attrSize column.1.toNat)]

def serializeDelta (layout : BlockLayout) (delta : Delta) : List (List UInt8) :=
  [LittleEndian.encode 2 delta.columns.length,
    delta.colIds.flatMap (fun id => LittleEndian.encode 2 id.toNat),
    (computeAttributeSizeBoundaries (delta.colIds.map fun id => layout.attrSize id.toNat)).flatMap
      (LittleEndian.encode 2),
    LittleEndian.packBits delta.notNull] ++
  delta.columns.flatMap (serializeAttr layout)

def serializeBody (layoutOf : UInt64 → BlockLayout) : RecordBody → List (List UInt8)
  | .redo dbOid tableOid slot delta =>
    [LittleEndian.encode 4 dbOid.toNat, LittleEndian.encode 4 tableOid.toNat,
      LittleEndian.encode 8 slot.toNat] ++ serializeDelta (layoutOf slot) delta
  | .delete dbOid tableOid slot =>
    [LittleEndian.encode 4 dbOid.toNat, LittleEndian.encode 4 tableOid.toNat,
      LittleEndian.encode 8 slot.toNat]
  | .commit txnCommit oldestActiveTxn =>
    [LittleEndian.encode 8 txnCommit.toNat, LittleEndian.encode 8 oldestActiveTxn.toNat]
  | .abort => []

/-- `LogSerializerTask::SerializeRecord`, as the values it writes. `layoutOf`
is the layout of the table that a slot's block belongs to. -/
def serializeRecord (layoutOf : UInt64 → BlockLayout) (record : RecordImage) : List (List UInt8) :=
  [LittleEndian.encode 4 record.size, [record.body.recordType.toByte],
    LittleEndian.encode 8 record.txnBegin.toNat] ++ serializeBody layoutOf record.body

inductive ReadError where
  | tooManyColumns
  | unknownRecordType (type : UInt8)
  deriving DecidableEq, Repr

namespace ReadError

def message : ReadError → String
  | tooManyColumns =>
    "Number of columns deserialized exceeds max columns. possible data corrution"
  | unknownRecordType type =>
    "Unknown log record type during deserialization: " ++ toString type.toNat

end ReadError

abbrev LogReader := ByteReader ReadError

namespace LogReader

def bytes (size : Nat) : LogReader (List UInt8) := .read size .done

def readValue (size : Nat) : LogReader Nat := do
  let value ← bytes size
  pure (LittleEndian.decode value)

def readValues (size : Nat) : Nat → LogReader (List Nat)
  | 0 => pure []
  | n + 1 => do
      let value ← readValue size
      let rest ← readValues size n
      pure (value :: rest)

/-- The value of a column that is not NULL. Size 16 means varlen. -/
def readAttr (attrSize : Nat) : LogReader AttrValue :=
  if attrSize = attrSizeBytes varlenColumn then do
    let size ← readValue 4
    let content ← bytes size
    if size ≤ inlineThreshold then pure (.inlined content) else pure (.external content)
  else do
    let value ← bytes attrSize
    pure (.fixed value)

def readColumn (bitmap : List UInt8) (i attrSize : Nat) : LogReader (Option AttrValue) :=
  if LittleEndian.testBit bitmap i then do
    let value ← readAttr attrSize
    pure (some value)
  else pure none

/-- The loop over the columns of a redo record, from index `i`. -/
def readColumns (bitmap : List UInt8) (attrSizeOf : Nat → Nat) :
    Nat → List UInt16 → LogReader (List (UInt16 × Option AttrValue))
  | _, [] => pure []
  | i, id :: ids => do
      let value ← readColumn bitmap i (attrSizeOf i)
      let rest ← readColumns bitmap attrSizeOf (i + 1) ids
      pure ((id, value) :: rest)

def readDelta : LogReader Delta := do
  let numCols ← readValue 2
  if maxCol < numCols then .fail .tooManyColumns
  else
    let ids ← readValues 2 numCols
    let boundaries ← readValues 2 numAttrBoundaries
    let attrSizes := (List.range numCols).map (attrSizeFromBoundaries boundaries)
    let bitmap ← bytes (sizeInBytes numCols)
    let columns ← readColumns bitmap (fun i => attrSizes.getD i 0) 0 (ids.map UInt16.ofNat)
    pure ⟨projectedRowSize attrSizes, columns⟩

/-- `AbstractLogProvider::ReadNextRecord`. The size in the header is used for
the allocation only; `Initialize` computes it again. -/
def readNextRecord : LogReader RecordImage := do
  let _size ← readValue 4
  let recordType ← readValue 1
  let txnBegin ← readValue 8
  match LogRecordType.ofByte (UInt8.ofNat recordType) with
  | some .commit =>
    let txnCommit ← readValue 8
    let oldestActiveTxn ← readValue 8
    pure (.initializeRecord (.ofNat txnBegin) (.commit (.ofNat txnCommit) (.ofNat oldestActiveTxn)))
  | some .abort => pure (.initializeRecord (.ofNat txnBegin) .abort)
  | some .delete =>
    let dbOid ← readValue 4
    let tableOid ← readValue 4
    let slot ← readValue 8
    pure (.initializeRecord (.ofNat txnBegin)
      (.delete (.ofNat dbOid) (.ofNat tableOid) (.ofNat slot)))
  | some .redo =>
    let dbOid ← readValue 4
    let tableOid ← readValue 4
    let slot ← readValue 8
    let delta ← readDelta
    pure (.initializeRecord (.ofNat txnBegin)
      (.redo (.ofNat dbOid) (.ofNat tableOid) (.ofNat slot) delta))
  | none => .fail (.unknownRecordType (UInt8.ofNat recordType))

end LogReader

/-- A column of the layout can hold the value. -/
def BlockLayout.Stores (layout : BlockLayout) (col : Nat) : AttrValue → Prop
  | .fixed bytes => layout.isVarlen col = false ∧ bytes.length = layout.attrSize col
  | .inlined bytes => layout.isVarlen col = true ∧ bytes.length ≤ inlineThreshold
  | .external content => layout.isVarlen col = true ∧ inlineThreshold < content.length ∧
      content.length < 2 ^ 31

/-- A row that `ProjectedRowInitializer` made for columns of the layout. The
version pointer is not among them: inserts and updates are never given it. -/
structure Delta.Over (layout : BlockLayout) (delta : Delta) : Prop where
  nonempty : delta.columns ≠ []
  ascending : delta.colIds.Pairwise (· < ·)
  inRange : ∀ id ∈ delta.colIds, numReservedColumns ≤ id.toNat ∧ id.toNat < layout.numColumns
  stored : ∀ column ∈ delta.columns, ∀ value, column.2 = some value →
    layout.Stores column.1.toNat value
  size_eq : delta.size = projectedRowSize (delta.colIds.map fun id => layout.attrSize id.toNat)

def RecordBody.Over (layoutOf : UInt64 → BlockLayout) : RecordBody → Prop
  | .redo _ _ slot delta => delta.Over (layoutOf slot)
  | .delete _ _ _ => True
  | .commit _ _ => True
  | .abort => True

structure StagedRecord (layoutOf : UInt64 → BlockLayout) where
  image : RecordImage
  overLayout : image.body.Over layoutOf
  size_eq : image.size = image.body.memorySize

def StagedRecord.bytes {layoutOf : UInt64 → BlockLayout} (record : StagedRecord layoutOf) :
    List UInt8 :=
  (serializeRecord layoutOf record.image).flatten

end Terrier
