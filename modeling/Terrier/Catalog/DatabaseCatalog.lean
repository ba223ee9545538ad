import Terrier.Catalog.CatalogTables

/-!
The functions of `DatabaseCatalog`. Lookups and schema changes are made of the same scans and
selects. Every schema change takes the write lock first, except those that set a pointer, which
expect that it is taken; one of the lookups takes it too. Of a schema only the names of its
columns count, and of the `Schema` object of a class its address.
-/

namespace Terrier.Catalog

abbrev Name := List Nat

def invalidOid : Nat := 0

/-- `ClassKind::REGULAR_TABLE` and `ClassKind::INDEX`, the characters r and i. -/
def regularTable : Nat := 114
def indexKind : Nat := 105

/-- The functions that begin with `if (!TryLock(txn)) return refused`. -/
def withLock {α : Type} (t : Nat) (refused : α) (body : CatalogM α) : CatalogM α := do
  if ← tryLock t then body else return refused

section Lookups

variable (t : Nat)

def deref (address : Nat) : CatalogM Nat := fun c =>
  if address = 0 then none else some (address, c)

/-- The row that a unique index has for a key. -/
def findRow (index : CatalogIndex) (key : Key) (table : CatalogTable) :
    CatalogM (Option (ColId → Nat)) := do
  match ← scanKey t index key with
  | [] => return none
  | slot :: _ => return some (← select t table slot)

def findOid (index : CatalogIndex) (key : Key) (table : CatalogTable) : CatalogM Nat := do
  match ← findRow t index key table with
  | none => return invalidOid
  | some pr => return pr oidColumn

def getNamespaceOid (name : Name) : CatalogM Nat :=
  findOid t .namespacesName [.varlen name] .namespaces

def getClassOidKind (ns : Nat) (name : Name) : CatalogM (Nat × Nat) := do
  match ← findRow t .classesName [.varlen name, .oid ns] .classes with
  | none => return (invalidOid, regularTable)
  | some pr => return (pr oidColumn, pr relkind)

def getTableOid (ns : Nat) (name : Name) : CatalogM Nat := do
  let (oid, kind) ← getClassOidKind t ns name
  return if oid = invalidOid ∨ kind ≠ regularTable then invalidOid else oid

def getIndexOid (ns : Nat) (name : Name) : CatalogM Nat := do
  let (oid, kind) ← getClassOidKind t ns name
  return if oid = invalidOid ∨ kind ≠ indexKind then invalidOid else oid

/-- `GetClassPtrKind` and `GetClassSchemaPtrKind`. -/
def getClassColumnKind (column : ColId) (oid : Nat) : CatalogM (Nat × Nat) := do
  let slot ← first (← scanKey t .classesOid [.oid oid])
  let pr ← select t .classes slot
  return (pr column, pr relkind)

def getTable (table : Nat) : CatalogM Nat := do
  let (pointer, kind) ← getClassColumnKind t relPtr table
  return if kind ≠ regularTable then 0 else pointer

def getSchema (table : Nat) : CatalogM Nat := do
  let (pointer, _) ← getClassColumnKind t relSchema table
  deref pointer

def getIndexOids (table : Nat) : CatalogM (List Nat) := do
  let slots ← scanKey t .indexesTable [.oid table]
  slots.mapM fun slot => do
    let pr ← select t .indexes slot
    return pr oidColumn

/-- The objects of the indexes and their schemas. -/
def getIndexes (table : Nat) : CatalogM (List (Nat × Nat)) := do
  let oids ← getIndexOids t table
  let slots ← oids.mapM fun oid => do first (← scanKey t .classesOid [.oid oid])
  slots.mapM fun slot => do
    let pr ← select t .classes slot
    return (pr relPtr, ← deref (pr relSchema))

def getLanguageOid (name : Name) : CatalogM Nat :=
  findOid t .languagesName [.varlen name] .languages

def getProcOid (ns : Nat) (name : Name) (argTypes : List Nat) : CatalogM Nat :=
  withLock t invalidOid <|
    findOid t .procsName [.oid ns, .varlen name, .varlen argTypes] .procs

end Lookups

section Changes

variable (cfg : Config) (t : Nat)

def fetchOid : CatalogM Nat :=
  modifyGet fun c => (c.nextOid, { c with nextOid := c.nextOid + 1 })

/-- The address of a new `Schema`. -/
def newSchema : CatalogM Nat :=
  modifyGet fun c => (c.schemas + 1, { c with schemas := c.schemas + 1 })

/-- A row that is entered in two unique indexes, of which only the first is asked. -/
def createEntry (table : CatalogTable) (oid : Nat) (nameIndex : CatalogIndex) (nameKey : Key)
    (oidIndex : CatalogIndex) (oidKey : Key) : CatalogM Bool := do
  let slot ← insert cfg t table [(oidColumn, oid)]
  if !(← insertUnique t nameIndex nameKey slot) then return false
  let _ ← insertUnique t oidIndex oidKey slot
  return true

def createNamespace (name : Name) : CatalogM Nat := withLock t invalidOid do
  let oid ← fetchOid
  return if ← createEntry cfg t .namespaces oid .namespacesName [.varlen name]
    .namespacesOid [.oid oid] then oid else invalidOid

/-- The oid is taken before the lock, here and for a procedure. -/
def createLanguage (name : Name) : CatalogM Nat := do
  let oid ← fetchOid
  withLock t invalidOid do
    return if ← createEntry cfg t .languages oid .languagesName [.varlen name]
      .languagesOid [.oid oid] then oid else invalidOid

def createProcedure (ns : Nat) (name : Name) (allArgTypes : List Nat) : CatalogM Nat := do
  let oid ← fetchOid
  withLock t invalidOid do
    return if ← createEntry cfg t .procs oid .procsName
      [.oid ns, .varlen name, .varlen allArgTypes] .procsOid [.oid oid] then oid else invalidOid

/-- The row of a language or procedure is deleted if there is one. -/
def dropEntry (oidIndex : CatalogIndex) (oid : Nat) : CatalogM Bool := withLock t false do
  match ← scanKey t oidIndex [.oid oid] with
  | [] => return false
  | slot :: _ => delete cfg t slot

def dropLanguage (oid : Nat) : CatalogM Bool :=
  dropEntry cfg t .languagesOid oid

def dropProcedure (proc : Nat) : CatalogM Bool :=
  dropEntry cfg t .procsOid proc

def createColumn (classOid colOid : Nat) (name : Name) : CatalogM Bool :=
  createEntry cfg t .columns colOid .columnsName [.varlen name, .oid classOid]
    .columnsOid [.oid classOid, .oid colOid]

/-- The loop over the columns of a schema and the update with the schema read back. -/
def createColumns (classOid : Nat) (slot : TupleSlot) (columns : List Name) : CatalogM Bool := do
  for (name, colOid) in columns.zipIdx 1 do
    if !(← createColumn cfg t classOid colOid name) then return false
  let _ ← update cfg t slot ⟨[relSchema], by decide, by decide⟩ (← newSchema)
  return true

/-- The row of a table or an index in `pg_class`, without its object, and its index entries. -/
def createClass (oid ns : Nat) (name : Name) (kind : Nat) : CatalogM (Option TupleSlot) := do
  let slot ← insert cfg t .classes [(oidColumn, oid), (relkind, kind), (relSchema, 0)]
  if !(← insertUnique t .classesOid [.oid oid] slot) then return none
  if !(← insertUnique t .classesName [.varlen name, .oid ns] slot) then return none
  insertEntry t .classesNamespace [.oid ns] slot
  return some slot

def createTableEntry (oid ns : Nat) (name : Name) (columns : List Name) : CatalogM Bool := do
  match ← createClass cfg t oid ns name regularTable with
  | none => return false
  | some slot => createColumns cfg t oid slot columns

def createTable (ns : Nat) (name : Name) (columns : List Name) : CatalogM Nat :=
  withLock t invalidOid do
    let oid ← fetchOid
    return if ← createTableEntry cfg t oid ns name columns then oid else invalidOid

def createIndexEntry (ns table oid : Nat) (name : Name) (columns : List Name) :
    CatalogM Bool := do
  match ← createClass cfg t oid ns name indexKind with
  | none => return false
  | some classSlot =>
    let slot ← insert cfg t .indexes [(oidColumn, oid)]
    if !(← insertUnique t .indexesOid [.oid oid] slot) then return false
    insertEntry t .indexesTable [.oid table] slot
    createColumns cfg t oid classSlot columns

def createIndex (ns : Nat) (name : Name) (table : Nat) (columns : List Name) : CatalogM Nat :=
  withLock t invalidOid do
    let oid ← fetchOid
    return if ← createIndexEntry cfg t ns table oid name columns then oid else invalidOid

/-- The scan of `DeleteColumns` goes from `(classOid, 0)` to `(classOid + 1, 0)`. -/
def isColumnOf (classOid : Nat) : Key → Bool
  | [.oid relid, .oid colOid] => relid = classOid || relid = classOid + 1 && colOid = 0
  | _ => false

def deleteColumns (classOid : Nat) : CatalogM Bool := do
  for slot in (← get).visible t .columnsOid (isColumnOf classOid) do
    if !(← delete cfg t slot) then return false
  return true

def deleteIndex (index : Nat) : CatalogM Bool := withLock t false do
  if !(← deleteColumns cfg t index) then return false
  let slot ← first (← scanKey t .classesOid [.oid index])
  if !(← delete cfg t slot) then return false
  let _ ← delete cfg t (← first (← scanKey t .indexesOid [.oid index]))
  return true

def deleteIndexes (table : Nat) : CatalogM Bool := withLock t false do
  for index in ← getIndexOids t table do
    if !(← deleteIndex cfg t index) then return false
  return true

/-- What becomes of the indexes does not matter for the result. -/
def deleteTable (table : Nat) : CatalogM Bool := withLock t false do
  if !(← deleteColumns cfg t table) then return false
  let slot ← first (← scanKey t .classesOid [.oid table])
  if !(← delete cfg t slot) then return false
  let _ ← deleteIndexes cfg t table
  return true

def getNamespaceClassOids (ns : Nat) : CatalogM (List (Nat × Nat)) := do
  let slots ← scanKey t .classesNamespace [.oid ns]
  slots.mapM fun slot => do
    let pr ← select t .classes slot
    return (pr oidColumn, pr relkind)

/-- Tables go first and take most indexes with them. -/
def deleteNamespace (ns : Nat) : CatalogM Bool := withLock t false do
  let slot ← first (← scanKey t .namespacesOid [.oid ns])
  if !(← delete cfg t slot) then return false
  for (oid, kind) in ← getNamespaceClassOids t ns do
    if kind = regularTable then
      if !(← deleteTable cfg t oid) then return false
  for (oid, kind) in ← getNamespaceClassOids t ns do
    if kind = indexKind then
      if !(← deleteIndex cfg t oid) then return false
  return true

/-- `SetTablePointer` and `SetIndexPointer`. -/
def setClassPointer (oid pointer : Nat) : CatalogM Bool := do
  let slot ← first (← scanKey t .classesOid [.oid oid])
  update cfg t slot ⟨[relPtr], by decide, by decide⟩ pointer

end Changes

inductive Lookup
  | namespaceOid (name : Name)
  | tableOid (ns : Nat) (name : Name)
  | indexOid (ns : Nat) (name : Name)
  | table (oid : Nat)
  | schema (table : Nat)
  | indexes (table : Nat)
  | languageOid (name : Name)
  | procOid (ns : Nat) (name : Name) (argTypes : List Nat)

def lookUp (t : Nat) : Lookup → CatalogM Unit
  | .namespaceOid name => discard (getNamespaceOid t name)
  | .tableOid ns name => discard (getTableOid t ns name)
  | .indexOid ns name => discard (getIndexOid t ns name)
  | .table oid => discard (getTable t oid)
  | .schema table => discard (getSchema t table)
  | .indexes table => discard (getIndexes t table)
  | .languageOid name => discard (getLanguageOid t name)
  | .procOid ns name argTypes => discard (getProcOid t ns name argTypes)

inductive Change
  | createNamespace (name : Name)
  | deleteNamespace (ns : Nat)
  | createTable (ns : Nat) (name : Name) (columns : List Name)
  | deleteTable (table : Nat)
  | createIndex (ns : Nat) (name : Name) (table : Nat) (columns : List Name)
  | deleteIndex (index : Nat)
  | setPointer (oid pointer : Nat)
  | createLanguage (name : Name)
  | dropLanguage (oid : Nat)
  | createProcedure (ns : Nat) (name : Name) (allArgTypes : List Nat)
  | dropProcedure (proc : Nat)

def perform (cfg : Config) (t : Nat) : Change → CatalogM Nat
  | .createNamespace name => createNamespace cfg t name
  | .deleteNamespace ns => Bool.toNat <$> deleteNamespace cfg t ns
  | .createTable ns name columns => createTable cfg t ns name columns
  | .deleteTable table => Bool.toNat <$> deleteTable cfg t table
  | .createIndex ns name table columns => createIndex cfg t ns name table columns
  | .deleteIndex index => Bool.toNat <$> deleteIndex cfg t index
  | .setPointer oid pointer => Bool.toNat <$> setClassPointer cfg t oid pointer
  | .createLanguage name => createLanguage cfg t name
  | .dropLanguage oid => Bool.toNat <$> dropLanguage cfg t oid
  | .createProcedure ns name allArgTypes => createProcedure cfg t ns name allArgTypes
  | .dropProcedure proc => Bool.toNat <$> dropProcedure cfg t proc

inductive Call
  | begin
  | lookup (t : Nat) (asked : Lookup)
  | change (t : Nat) (change : Change)
  | commit (t : Nat)
  | abort (t : Nat)

/-- One call; a schema change leaves its result. -/
def step (cfg : Config) : Call → CatalogM (List (Nat × Nat))
  | .begin => do beginTransaction; return []
  | .lookup t asked => do
    let _ ← running t
    lookUp t asked
    return []
  | .change t change => do
    let _ ← running t
    return [(t, ← perform cfg t change)]
  | .commit t => do commit cfg t; return []
  | .abort t => do abort cfg t; return []

/-- A history of calls, with the results of its schema changes. -/
def run (cfg : Config) : List Call → CatalogM (List (Nat × Nat))
  | [] => pure []
  | call :: history => do
    let results ← step cfg call
    return results ++ (← run cfg history)

end Terrier.Catalog
