import Mathlib.Tactic

/-!
`tuple_slot_map_` over a log with catalog changes. A slot in the log is the address of a block and
an offset, and the block of a dropped table can be handed to another one. Here are the paths of
`ProcessCommittedTransaction` that read or change the map, and the block store and tables of the
engine that wrote the log.
-/

namespace Terrier

structure SlotAddress where
  block : Nat
  offset : Nat
  deriving DecidableEq, Repr

def databaseTableOid : Nat := 1
def classTableOid : Nat := 21
def indexTableOid : Nat := 31
def columnTableOid : Nat := 41

inductive Change where
  | redo (db table : Nat) (slot : SlotAddress)
  | delete (db table : Nat) (slot : SlotAddress)
  deriving DecidableEq, Repr

namespace Change

def table : Change → Nat
  | redo _ table _ => table
  | delete _ table _ => table

end Change

/-- The new slots are numbered by `inserted`. `processed` counts the changes
that were looked at, so that the catalog can answer differently each time. -/
structure SlotMap where
  tupleSlotMap : SlotAddress → Option Nat
  inserted : Nat
  processed : Nat

namespace SlotMap

def init : SlotMap := ⟨fun _ => none, 0, 0⟩

def isInsertRecord (m : SlotMap) (slot : SlotAddress) : Bool :=
  (m.tupleSlotMap slot).isNone

def insert (m : SlotMap) (slot : SlotAddress) : SlotMap :=
  { m with
    tupleSlotMap := Function.update m.tupleSlotMap slot (some m.inserted)
    inserted := m.inserted + 1 }

def erase (m : SlotMap) (slot : SlotAddress) : SlotMap :=
  { m with tupleSlotMap := Function.update m.tupleSlotMap slot none }

/-- `RecoveryManager::GetTupleSlotMapping`. Its `operator[]` adds an entry for
a slot that has none. -/
def getTupleSlotMapping (m : SlotMap) (slot : SlotAddress) : SlotMap :=
  if m.isInsertRecord slot then
    { m with tupleSlotMap := Function.update m.tupleSlotMap slot (some 0) }
  else m

def isSpecialCaseCatalogRecord (m : SlotMap) : Change → Bool
  | .redo _ table slot =>
    if m.isInsertRecord slot then decide (table = databaseTableOid)
    else decide (table = classTableOid)
  | .delete _ table _ =>
    decide (table = databaseTableOid) || decide (table = classTableOid) ||
      decide (table = indexTableOid) || decide (table = columnTableOid)

def replayRedoRecord (m : SlotMap) (slot : SlotAddress) : SlotMap :=
  if m.isInsertRecord slot then m.insert slot else m

def replayDeleteRecord (m : SlotMap) (slot : SlotAddress) : SlotMap :=
  (m.getTupleSlotMapping slot).erase slot

/-- The slot of the next record, if that makes a deletion from `pg_database` or `pg_class` a
renaming: it inserts a row into the same table, and `sameOid` says that the oids agree. -/
def renamedTo (m : SlotMap) (sameOid : Nat → Bool) (db table : Nat) :
    Option Change → Option SlotAddress
  | some (.redo nextDb nextTable nextSlot) =>
    if nextDb = db ∧ nextTable = table ∧ m.isInsertRecord nextSlot = true ∧
        sameOid m.processed = true then some nextSlot
    else none
  | some (.delete _ _ _) => none
  | none => none

/-- What deletions from `pg_database` and `pg_class` have in common. A drop takes only the slot of
the row from the map, not the slots of the object's tuples. The flag says that the next record was
processed as well. -/
def renameOrDrop (m : SlotMap) (sameOid : Nat → Bool) (next : Option Change)
    (db table : Nat) (slot : SlotAddress) : SlotMap × Bool :=
  let looked := m.getTupleSlotMapping slot
  match looked.renamedTo sameOid db table next with
  | some nextSlot => ((looked.insert nextSlot).erase slot, true)
  | none => (looked.erase slot, false)

/-- `RecoveryManager::ProcessSpecialCasePGDatabaseRecord`. A redo record creates
the database, and its row is mapped. -/
def processSpecialCasePGDatabaseRecord (m : SlotMap) (sameOid : Nat → Bool)
    (next : Option Change) : Change → SlotMap × Bool
  | .redo _ _ slot => (m.insert slot, false)
  | .delete db table slot => m.renameOrDrop sameOid next db table slot

/-- `RecoveryManager::ProcessSpecialCasePGClassRecord`. A redo record is an
update of the mapped row: it is replayed, or ignored, or an object is made. -/
def processSpecialCasePGClassRecord (m : SlotMap) (sameOid : Nat → Bool)
    (next : Option Change) : Change → SlotMap × Bool
  | .redo _ _ _ => (m, false)
  | .delete db table slot => m.renameOrDrop sameOid next db table slot

/-- `RecoveryManager::ProcessSpecialCaseCatalogRecord`. Deletions from `pg_attribute` and
`pg_index` are left to the catalog functions that drop the object. -/
def processSpecialCaseCatalogRecord (m : SlotMap) (sameOid : Nat → Bool) (next : Option Change)
    (record : Change) : SlotMap × Bool :=
  if record.table = databaseTableOid then
    m.processSpecialCasePGDatabaseRecord sameOid next record
  else if record.table = classTableOid then
    m.processSpecialCasePGClassRecord sameOid next record
  else (m, false)

/-- The body of the loop of `ProcessCommittedTransaction`. -/
def processRecord (m : SlotMap) (sameOid : Nat → Bool) (next : Option Change) (record : Change) :
    SlotMap × Bool :=
  if m.isSpecialCaseCatalogRecord record then
    m.processSpecialCaseCatalogRecord sameOid next record
  else
    match record with
    | .redo _ _ slot => (m.replayRedoRecord slot, false)
    | .delete _ _ slot => (m.replayDeleteRecord slot, false)

def classify (m : SlotMap) : Change → List Bool
  | .redo _ _ slot => [m.isInsertRecord slot]
  | .delete _ _ _ => []

/-- The loop of `ProcessCommittedTransaction`, with the classification of every
redo record. `skip` is set when the record was processed with the one before,
which also classified it. -/
def processChanges (sameOid : Nat → Bool) : Bool → List Change → SlotMap → SlotMap × List Bool
  | _, [], m => (m, [])
  | true, _ :: rest, m =>
    processChanges sameOid false rest { m with processed := m.processed + 1 }
  | false, record :: rest, m =>
    let (next, extra) := m.processRecord sameOid rest.head? record
    let seen := m.classify record ++ (if extra then (rest.head?.map m.classify).getD [] else [])
    let (last, later) :=
      processChanges sameOid extra rest { next with processed := m.processed + 1 }
    (last, seen ++ later)

/-- The committed transactions of a log in the order of replay. -/
def processTransactions (sameOid : Nat → Bool) : List (List Change) → SlotMap → SlotMap × List Bool
  | [], m => (m, [])
  | changes :: log, m =>
    let (next, seen) := processChanges sameOid false changes m
    let (last, later) := processTransactions sameOid log next
    (last, seen ++ later)

end SlotMap

/-- The block store and the tables of the engine that writes the log. `held`
are the blocks of tables, each with its table, and `live` the slots that hold
a tuple. -/
structure BlockTables where
  reuseLimit : Nat
  reuseQueue : List Nat
  held : List (Nat × Nat)
  live : SlotAddress → Bool

/-- What committed transactions do, in the order of replay. A `DROP TABLE` deletes from `pg_class`
and `pg_attribute`; `destroy` is the deferred destructor of the table. -/
inductive TableOp where
  | newBlock (table block : Nat)
  | insert (db table : Nat) (slot : SlotAddress)
  | update (db table : Nat) (slot : SlotAddress)
  | delete (db table : Nat) (slot : SlotAddress)
  | destroy (table : Nat)
  deriving DecidableEq, Repr

structure LoggedChange where
  change : Change
  isInsert : Bool
  deriving DecidableEq, Repr

namespace BlockTables

def init (reuseLimit : Nat) : BlockTables := ⟨reuseLimit, [], [], fun _ => false⟩

/-- `ObjectPool::Get`: the front of the reuse queue, or, when that is empty, an
address from the allocator, which is any one not in use. -/
def get (s : BlockTables) (block : Nat) : Option (List Nat) :=
  match s.reuseQueue with
  | [] => if block ∈ s.held.map Prod.fst then none else some []
  | front :: queue => if front = block then some queue else none

/-- `ObjectPool::Release`: past the limit the block goes back to the allocator. -/
def release (reuseLimit : Nat) (reuseQueue : List Nat) (block : Nat) : List Nat :=
  if reuseLimit ≤ reuseQueue.length then reuseQueue else reuseQueue ++ [block]

def isBlockOf (s : BlockTables) (table block : Nat) : Prop :=
  (block, table) ∈ s.held

instance (s : BlockTables) (table block : Nat) : Decidable (s.isBlockOf table block) :=
  inferInstanceAs (Decidable ((block, table) ∈ s.held))

/-- One operation, with the change it logs. `none` means that it cannot happen.
An insert takes an empty slot: the next one of a block, or one that the
compactor fills again. -/
def step (s : BlockTables) : TableOp → Option (BlockTables × List LoggedChange)
  | .newBlock table block =>
    match s.get block with
    | none => none
    | some queue => some ({ s with reuseQueue := queue, held := (block, table) :: s.held }, [])
  | .insert db table slot =>
    if s.isBlockOf table slot.block ∧ s.live slot = false then
      some ({ s with live := Function.update s.live slot true }, [⟨.redo db table slot, true⟩])
    else none
  | .update db table slot =>
    if s.isBlockOf table slot.block ∧ s.live slot = true then
      some (s, [⟨.redo db table slot, false⟩])
    else none
  | .delete db table slot =>
    if s.isBlockOf table slot.block ∧ s.live slot = true then
      some ({ s with live := Function.update s.live slot false }, [⟨.delete db table slot, false⟩])
    else none
  | .destroy table =>
    let blocks := (s.held.filter (fun entry => entry.2 = table)).map Prod.fst
    some ({ s with
      reuseQueue := blocks.foldl (release s.reuseLimit) s.reuseQueue
      held := s.held.filter (fun entry => entry.2 ≠ table)
      live := fun slot => s.live slot && decide (slot.block ∉ blocks) }, [])

/-- A transaction, with the changes it logs. -/
def execute : List TableOp → BlockTables → Option (BlockTables × List LoggedChange)
  | [], s => some (s, [])
  | op :: ops, s =>
    match s.step op with
    | none => none
    | some (next, logged) =>
      match execute ops next with
      | none => none
      | some (last, later) => some (last, logged ++ later)

/-- Transactions, with the log of their changes. -/
def executeAll : List (List TableOp) → BlockTables → Option (BlockTables × List (List LoggedChange))
  | [], s => some (s, [])
  | ops :: rest, s =>
    match s.execute ops with
    | none => none
    | some (next, logged) =>
      match executeAll rest next with
      | none => none
      | some (last, later) => some (last, logged :: later)

end BlockTables

end Terrier
