import Terrier.Storage.CompactionQueue

/-!
Gathering of a varlen column into Arrow storage, as one run of values with offsets or as a
dictionary with indices. Buffers are named by numbers, `fresh` is the one for the new values; an
array is allocated with arbitrary contents. Writing behind its end has no result.
-/

namespace Terrier.Compactor

abbrev Bytes := List UInt8

structure Pointer where
  buffer : Nat
  offset : Nat
  deriving DecidableEq, Repr

abbrev Memory := Nat → Bytes

def inlineThreshold : Nat := 12

/-- `VarlenEntry`. The sign bit of the stored size says that a buffer is not to be
reclaimed, which leaves 31 bits for the size. -/
inductive VarlenEntry where
  | inlined (content : Bytes) (short : content.length ≤ inlineThreshold)
  | outlined (content : Pointer) (size : Nat) (reclaim : Bool)
      (long : inlineThreshold < size) (fits : size < 2 ^ 31)
  deriving DecidableEq, Repr

namespace VarlenEntry

def size : VarlenEntry → Nat
  | inlined content _ => content.length
  | outlined _ size _ _ _ => size

def content (memory : Memory) : VarlenEntry → Bytes
  | inlined content _ => content
  | outlined pointer size _ _ _ => ((memory pointer.buffer).drop pointer.offset).take size

def reclaimable : VarlenEntry → Option Pointer
  | outlined pointer _ true _ _ => some pointer
  | _ => none

def moveTo (pointer : Pointer) : VarlenEntry → VarlenEntry
  | inlined content short => inlined content short
  | outlined _ size _ long fits => outlined pointer size false long fits

end VarlenEntry

/-- A column of a block: the entries, where the bit of the NULL bitmap is set. -/
abbrev VarlenColumn := List (Option VarlenEntry)

/-- `memcmp` up to the end of the shorter argument. -/
def memcmp : Bytes → Bytes → Ordering
  | a :: as, b :: bs => (compare a b).then (memcmp as bs)
  | _, _ => .eq

def varlenContentDeepEqual (lhs rhs : Bytes) : Bool :=
  if lhs.length != rhs.length then false else memcmp lhs rhs == .eq

def varlenContentCompare (lhs rhs : Bytes) : Bool :=
  match memcmp lhs rhs with
  | .eq => lhs.length < rhs.length
  | .lt => true
  | .gt => false

def allocate (garbage : Nat → UInt8) (length : Nat) : Bytes :=
  (List.range length).map garbage

def memcpy (values : Bytes) (offset : Nat) (content : Bytes) : Option Bytes :=
  if offset + content.length ≤ values.length then
    some (values.take offset ++ content ++ values.drop (offset + content.length))
  else none

/-- A sum of type `uint32_t`. -/
def addSize (acc size : Nat) : Nat :=
  (acc + size) % 2 ^ 32

def countNulls (nullCount : Nat) (column : VarlenColumn) : Nat :=
  column.foldl (fun _ entry => if entry.isNone then 1 else 0) nullCount

/-- What gathering leaves: the entries of the column, the new Arrow storage and the
buffers to free. Indices are only written for entries that are not NULL. -/
structure Gathered where
  entries : VarlenColumn
  nullCount : Nat
  values : Bytes
  offsets : List Nat
  indices : List (Option Nat)
  loosePtrs : List Pointer
  deriving DecidableEq, Repr

/-! ### `CopyToArrowVarlen` -/

def countSize (size : Nat) : Option VarlenEntry → Nat
  | none => size
  | some entry => addSize size entry.size

def varlenSize (column : VarlenColumn) : Nat :=
  column.foldl countSize 0

def gatherEntries (memory : Memory) (fresh : Nat) : VarlenColumn → Nat → Bytes → Option Gathered
  | [], _, values => some ⟨[], 0, values, [], [], []⟩
  | none :: rest, acc, values => do
      let gathered ← gatherEntries memory fresh rest acc values
      some { gathered with
        entries := none :: gathered.entries
        offsets := acc :: gathered.offsets }
  | some entry :: rest, acc, values => do
      let values ← memcpy values acc (entry.content memory)
      let gathered ← gatherEntries memory fresh rest (addSize acc entry.size) values
      some { gathered with
        entries := some (entry.moveTo ⟨fresh, acc⟩) :: gathered.entries
        offsets := acc :: gathered.offsets
        loosePtrs := entry.reclaimable.toList ++ gathered.loosePtrs }

def copyToArrowVarlen (memory : Memory) (fresh : Nat) (garbage : Nat → UInt8)
    (nullCount numRecords : Nat) (column : VarlenColumn) (loosePtrs : List Pointer) :
    Option Gathered := do
  let records := column.take numRecords
  let length := varlenSize records
  let gathered ← gatherEntries memory fresh records 0 (allocate garbage length)
  some { gathered with
    entries := gathered.entries ++ column.drop numRecords
    nullCount := countNulls nullCount records
    offsets := gathered.offsets ++ [length]
    loosePtrs := loosePtrs ++ gathered.loosePtrs }

/-! ### `BuildDictionary` -/

def collectWords (memory : Memory) : VarlenColumn → List Bytes → Nat → List Bytes × Nat
  | [], words, size => (words, size)
  | none :: rest, words, size => collectWords memory rest words size
  | some entry :: rest, words, size =>
    if words.any (varlenContentDeepEqual (entry.content memory)) then
      collectWords memory rest words size
    else
      collectWords memory rest (words ++ [entry.content memory]) (addSize size entry.size)

/-- The keys in order. Their order in the map does not matter, since no two are equal. -/
def sortWords (words : List Bytes) : List Bytes :=
  words.mergeSort fun a b => !varlenContentCompare b a

def writeWords : List Bytes → Nat → Bytes → Option (Bytes × List Nat)
  | [], _, values => some (values, [])
  | word :: rest, acc, values => do
      let values ← memcpy values acc word
      let (values, offsets) ← writeWords rest (addSize acc word.length) values
      some (values, acc :: offsets)

def dictionaryCode (corpus : List Bytes) (word : Bytes) : Nat :=
  (corpus.findIdx? (varlenContentDeepEqual word)).getD 0

def encodeEntries (memory : Memory) (fresh : Nat) (corpus : List Bytes) (offsets : List Nat) :
    VarlenColumn → VarlenColumn × List (Option Nat) × List Pointer
  | [] => ([], [], [])
  | none :: rest =>
    let (entries, indices, loosePtrs) := encodeEntries memory fresh corpus offsets rest
    (none :: entries, none :: indices, loosePtrs)
  | some entry :: rest =>
    let (entries, indices, loosePtrs) := encodeEntries memory fresh corpus offsets rest
    let code := dictionaryCode corpus (entry.content memory)
    (some (entry.moveTo ⟨fresh, offsets.getD code 0⟩) :: entries, some code :: indices,
      entry.reclaimable.toList ++ loosePtrs)

def buildDictionary (memory : Memory) (fresh : Nat) (garbage : Nat → UInt8)
    (nullCount numRecords : Nat) (column : VarlenColumn) (loosePtrs : List Pointer) :
    Option Gathered := do
  let records := column.take numRecords
  let (words, length) := collectWords memory records [] 0
  let corpus := sortWords words
  let (values, offsets) ← writeWords corpus 0 (allocate garbage length)
  let offsets := offsets ++ [length]
  let (entries, indices, pointers) := encodeEntries memory fresh corpus offsets records
  some {
    entries := entries ++ column.drop numRecords
    nullCount := countNulls nullCount records
    values := values
    offsets := offsets
    indices := indices
    loosePtrs := loosePtrs ++ pointers }

/-! ### `GatherVarlens` -/

inductive ColumnData where
  | fixedLength (bitmap : List Bool)
  | varlen (type : ArrowColumnType) (entries : VarlenColumn)
  deriving DecidableEq, Repr

def ColumnData.bitmap : ColumnData → List Bool
  | fixedLength bitmap => bitmap
  | varlen _ entries => entries.map (·.isSome)

structure CountedColumn where
  nullCount : Nat
  data : ColumnData
  deriving DecidableEq, Repr

def countFixedNulls (bitmap : List Bool) : Nat :=
  bitmap.foldl (fun count bit => if bit then count else count + 1) 0

structure GatheredColumn where
  nullCount : Nat
  storage : Option Gathered
  deriving DecidableEq, Repr

/-- The body of the loop. A varlen column without an Arrow form makes it throw. -/
def gatherColumn (memory : Memory) (fresh : Nat) (garbage : Nat → UInt8) (numRecords : Nat)
    (column : CountedColumn) (loosePtrs : List Pointer) : Option (GatheredColumn × List Pointer) :=
  match column.data with
  | .fixedLength bitmap => some (⟨countFixedNulls (bitmap.take numRecords), none⟩, loosePtrs)
  | .varlen .fixedLength _ => none
  | .varlen .gatheredVarlen entries => do
    let gathered ←
      copyToArrowVarlen memory fresh garbage column.nullCount numRecords entries loosePtrs
    some (⟨gathered.nullCount, some gathered⟩, gathered.loosePtrs)
  | .varlen .dictionaryCompressed entries => do
    let gathered ←
      buildDictionary memory fresh garbage column.nullCount numRecords entries loosePtrs
    some (⟨gathered.nullCount, some gathered⟩, gathered.loosePtrs)

/-- `GatherVarlens`. Every column has a buffer of its own to be gathered into. -/
def gatherVarlens (memory : Memory) (garbage : Nat → UInt8) (numRecords : Nat) :
    Nat → List CountedColumn → List Pointer → Option (List GatheredColumn × List Pointer)
  | _, [], loosePtrs => some ([], loosePtrs)
  | fresh, column :: columns, loosePtrs => do
    let (gathered, loosePtrs) ← gatherColumn memory fresh garbage numRecords column loosePtrs
    let (rest, loosePtrs) ← gatherVarlens memory garbage numRecords (fresh + 1) columns loosePtrs
    some (gathered :: rest, loosePtrs)

def Gathered.word (gathered : Gathered) (code : Nat) : Option Bytes := do
  let start ← gathered.offsets[code]?
  let stop ← gathered.offsets[code + 1]?
  some ((gathered.values.drop start).take (stop - start))

def Gathered.decodeVarlen (gathered : Gathered) (record : Nat) : Option Bytes :=
  match gathered.entries[record]? with
  | some (some _) => gathered.word record
  | _ => none

/-- The value of a record of a compressed column. -/
def Gathered.decodeDictionary (gathered : Gathered) (record : Nat) : Option Bytes :=
  match gathered.entries[record]? with
  | some (some _) => do
      let code ← (gathered.indices[record]?).join
      gathered.word code
  | _ => none

end Terrier.Compactor
