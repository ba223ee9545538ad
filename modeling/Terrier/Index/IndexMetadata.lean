import Terrier.Log.BlockLayout

/-!
`IndexMetadata` and `IndexBuilder`: the sizes of key columns, where they stand in a row and
which key type an index gets. A `nullptr` of the builder is `none`; the definitions of key
columns and uniqueness are left out.
-/

namespace Terrier.Index

inductive TypeId where
  | boolean | tinyint | smallint | integer | bigint
  | decimal | timestamp | date | varchar | varbinary
  deriving DecidableEq, Repr

def getTypeSize : TypeId → Nat
  | .boolean | .tinyint => 1
  | .smallint => 2
  | .integer | .date => 4
  | .bigint | .decimal | .timestamp => 8
  | .varchar | .varbinary => varlenColumn

def TypeId.isVarlen : TypeId → Bool
  | varchar | varbinary => true
  | _ => false

structure KeyColumn where
  type : TypeId
  maxVarlenSize : UInt16
  nullable : Bool
  deriving DecidableEq, Repr

inductive IndexType where
  | bwTree | hashMap | bPlusTree
  deriving DecidableEq, Repr

structure IndexSchema where
  columns : List KeyColumn
  type : IndexType
  nonempty : columns ≠ []

def varlenEntrySize : Nat := 16

def inlineThreshold : Nat := varlenEntrySize - 4

def computeAttributeSizes (schema : IndexSchema) : List Nat :=
  schema.columns.map fun key => getTypeSize key.type

def computeKeySize (schema : IndexSchema) : Nat :=
  schema.columns.foldl
    (fun keySize key => (keySize + attrSizeBytes (getTypeSize key.type)) % 2 ^ 16) 0

/-- A varlen has a size field in front of it, unless an entry is as large. -/
def KeyColumn.inlinedSize (key : KeyColumn) : Nat :=
  if key.type.isVarlen then max ((key.maxVarlenSize.toNat + 4) % 2 ^ 16) varlenEntrySize
  else getTypeSize key.type

def computeInlinedAttributeSizes (schema : IndexSchema) : List Nat :=
  schema.columns.map KeyColumn.inlinedSize

def computeMustInlineVarlen (schema : IndexSchema) : Bool :=
  schema.columns.any fun key =>
    key.type.isVarlen && decide (inlineThreshold < key.maxVarlenSize.toNat)

def computeCompactIntsOffsets (attrSizes : List Nat) : List Nat :=
  ((attrSizes.dropLast.scanl (fun offset size => (offset + size) % 2 ^ 8)) 0)

def computePROffsets (attrSizes : List Nat) : List Nat :=
  let sizeIdx := attrSizes.zipIdx.insertionSort fun u v => u.1 ≥ v.1
  (List.range attrSizes.length).map (sizeIdx.map (·.2)).idxOf

structure IndexMetadata where
  schema : IndexSchema
  attrSizes : List Nat
  inlinedAttrSizes : List Nat
  mustInlineVarlen : Bool
  compactIntsOffsets : List Nat
  prOffsets : List Nat
  /-- The size of a row of inlined attributes. -/
  inlinedRowSize : Nat
  keySize : Nat

def IndexMetadata.ofSchema (schema : IndexSchema) : IndexMetadata where
  schema
  attrSizes := computeAttributeSizes schema
  inlinedAttrSizes := computeInlinedAttributeSizes schema
  mustInlineVarlen := computeMustInlineVarlen schema
  compactIntsOffsets := computeCompactIntsOffsets (computeAttributeSizes schema)
  prOffsets := computePROffsets (computeInlinedAttributeSizes schema)
  inlinedRowSize :=
    projectedRowSize ((computeInlinedAttributeSizes schema).insertionSort (· ≥ ·)) % 2 ^ 32
  keySize := computeKeySize schema

inductive IndexKeyKind where
  | compactIntsKey | genericKey | hashKey
  deriving DecidableEq, Repr

structure BuiltIndex where
  metadata : IndexMetadata
  keyKind : IndexKeyKind
  /-- The template argument of the key type. -/
  keyBytes : Nat

/-- The functions that choose among the instances of a key type. -/
def buildKey (metadata : IndexMetadata) (keyKind : IndexKeyKind) (instances : List Nat)
    (keySize : Nat) : Option BuiltIndex :=
  (instances.find? (keySize ≤ ·)).map fun keyBytes => ⟨metadata, keyKind, keyBytes⟩

def buildGenericKey (metadata : IndexMetadata) : Option BuiltIndex :=
  buildKey metadata .genericKey [64, 128, 256] (metadata.inlinedRowSize + 8 + 8)

def KeyColumn.isSimple (key : KeyColumn) : Bool :=
  !key.nullable && [TypeId.tinyint, .smallint, .integer, .bigint].contains key.type

def build (schema : IndexSchema) : Option BuiltIndex :=
  let metadata := IndexMetadata.ofSchema schema
  let simpleKey := schema.columns.all KeyColumn.isSimple
  match schema.type with
  | .bwTree | .bPlusTree =>
    if simpleKey && metadata.keySize ≤ 32 then
      buildKey metadata .compactIntsKey [8, 16, 24, 32] metadata.keySize
    else buildGenericKey metadata
  | .hashMap =>
    if simpleKey && metadata.keySize ≤ 256 then
      buildKey metadata .hashKey [8, 16, 32, 64, 128, 256] metadata.keySize
    else buildGenericKey metadata

/-- Whether `SetFromProjectedRow` copies the content of a varlen, or only its entry. -/
def IndexMetadata.copiesContent (metadata : IndexMetadata) (key : KeyColumn) : Bool :=
  metadata.mustInlineVarlen && decide (varlenEntrySize < key.inlinedSize)

end Terrier.Index
