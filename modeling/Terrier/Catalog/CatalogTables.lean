import Terrier.Transaction.TransactionManager

/-!
What a `DatabaseCatalog` is made of: tables in the storage engine, indexes on them and a lock for
schema changes. Of a row only the columns that are read again count, under their column oids; its
names are in the keys of the indexes. An index lists its entries as they were inserted. The entry
of a deleted row is erased by the garbage collector when nobody sees the row any more; that is
left out. Calls are atomic and assertions are compiled out.
-/

namespace Terrier.Catalog

/-- An oid, or the content of a varlen. -/
inductive Datum
  | oid (n : Nat)
  | varlen (content : List Nat)
  deriving DecidableEq

abbrev Key := List Datum

inductive CatalogTable
  | namespaces | classes | indexes | columns | languages | procs

def CatalogTable.oid : CatalogTable → Nat
  | namespaces => 11
  | classes => 21
  | indexes => 31
  | columns => 41
  | languages => 71
  | procs => 81

/-- Every table has its oid in column 1. Numbers stand for oids, kinds and addresses. -/
def oidColumn : ColId := 1
def relkind : ColId := 4
def relSchema : ColId := 5
def relPtr : ColId := 6

def CatalogTable.columnIds : CatalogTable → ProjectionList
  | classes => ⟨[oidColumn, relkind, relSchema, relPtr], by decide, by decide⟩
  | _ => ⟨[oidColumn], by decide, by decide⟩

inductive CatalogIndex
  | namespacesOid | namespacesName
  | classesOid | classesName | classesNamespace
  | indexesOid | indexesTable
  | columnsOid | columnsName
  | languagesOid | languagesName
  | procsOid | procsName
  deriving DecidableEq

/-- `indexAborts` are the entries that the abort of a transaction erases, `lockAborts` is what it
stores in the lock if the transaction has taken it. -/
structure DatabaseCatalog where
  storage : State Nat
  entries : CatalogIndex → List (Key × TupleSlot)
  indexAborts : Nat → List (CatalogIndex × Key × TupleSlot)
  writeLock : Timestamp
  lockAborts : Nat → Option Timestamp
  nextOid : Nat
  schemas : Nat

namespace DatabaseCatalog

variable (c : DatabaseCatalog) (t : Nat)

/-- The slots under some keys that a running transaction sees; its finish time is its id. -/
def visible (index : CatalogIndex) (covers : Key → Bool) : List TupleSlot :=
  ((c.entries index).filter fun e =>
    covers e.1 && c.storage.isVisible t (.txnId t) e.2).map Prod.snd

/-- What `AccessForceNotNull` reads. A NULL is read as the bytes of the buffer, here as 0. -/
def row (table : CatalogTable) (slot : TupleSlot) (column : ColId) : Nat :=
  (((c.storage.selectIntoBuffer t (.txnId t) slot
    (.ofColumns table.columnIds fun _ => none)).2.lookup column).join).getD 0

end DatabaseCatalog

/-- A function of the catalog. It has no result where it reads the first element of an empty
vector or follows a null pointer. -/
abbrev CatalogM (α : Type) := StateT DatabaseCatalog Option α

variable (cfg : Config) (t : Nat)

def running : CatalogM (TransactionContext Nat) := fun c =>
  (c.storage.activeTxn t).map fun txn => (txn, c)

def scanKey (index : CatalogIndex) (key : Key) : CatalogM (List TupleSlot) := do
  return (← get).visible t index (· == key)

/-- `results[0]`. -/
def first (results : List TupleSlot) : CatalogM TupleSlot := fun c =>
  results.head?.map fun slot => (slot, c)

def select (table : CatalogTable) (slot : TupleSlot) : CatalogM (ColId → Nat) := do
  return (← get).row t table slot

def insert (table : CatalogTable) (values : List (ColId × Nat)) : CatalogM TupleSlot := do
  let txn ← running t
  let c ← get
  let redo := .ofColumns table.columnIds fun column => values.lookup column
  let (storage, slot) ← c.storage.sqlInsert cfg t txn table.oid redo
  set { c with storage }
  return slot

def update (slot : TupleSlot) (columns : ProjectionList) (value : Nat) : CatalogM Bool := do
  let txn ← running t
  let c ← get
  let (storage, result) := c.storage.sqlUpdate cfg t txn slot (.ofColumns columns fun _ => value)
  set { c with storage }
  return result

def delete (slot : TupleSlot) : CatalogM Bool := do
  let txn ← running t
  let c ← get
  let (storage, result) := c.storage.sqlDelete cfg t txn slot
  set { c with storage }
  return result

def setMustAbort : CatalogM Unit :=
  modify fun c => { c with storage := c.storage.setMustAbort t }

/-- `Insert` of an index, which registers the action that erases the entry again. -/
def insertEntry (index : CatalogIndex) (key : Key) (slot : TupleSlot) : CatalogM Unit :=
  modify fun c => { c with
    entries := Function.update c.entries index (c.entries index ++ [(key, slot)])
    indexAborts := Function.update c.indexAborts t ((index, key, slot) :: c.indexAborts t) }

def insertUnique (index : CatalogIndex) (key : Key) (slot : TupleSlot) : CatalogM Bool := do
  let txn ← running t
  let c ← get
  let refused := (c.entries index).any fun e => e.1 == key &&
    (c.storage.hasConflict t txn e.2 || c.storage.isVisible t txn.finishTime e.2)
  if refused then
    setMustAbort t
  else
    insertEntry t index key slot
  return !refused

/-- `TryLock`. Nobody comes between the load of the lock and the exchange. -/
def tryLock : CatalogM Bool := do
  let txn ← running t
  let c ← get
  let ownedByOtherTxn := !c.writeLock.committed
  let newerCommittedVersion := c.writeLock.committed && c.writeLock.newerThan (.time t)
  if c.writeLock = txn.finishTime then
    return true
  else if ownedByOtherTxn || newerCommittedVersion then
    setMustAbort t
    return false
  else
    set { c with
      writeLock := txn.finishTime
      lockAborts := Function.update c.lockAborts t (some c.writeLock) }
    return true

def beginTransaction : CatalogM Unit :=
  modify fun c => { c with storage := c.storage.beginTransaction }

/-- A transaction that must abort does not commit. -/
def commit : CatalogM Unit := do
  let txn ← running t
  let c ← get
  if txn.mustAbort then
    failure
  else
    set { c with
      storage := c.storage.commit cfg t txn
      indexAborts := Function.update c.indexAborts t []
      writeLock := if (c.lockAborts t).isSome then .time c.storage.time else c.writeLock
      lockAborts := Function.update c.lockAborts t none }

def abort : CatalogM Unit := do
  let txn ← running t
  modify fun c => { c with
    storage := c.storage.abort cfg t txn
    entries := fun index =>
      (c.entries index).filter fun e => decide ((index, e) ∉ c.indexAborts t)
    indexAborts := Function.update c.indexAborts t []
    writeLock := (c.lockAborts t).getD c.writeLock
    lockAborts := Function.update c.lockAborts t none }

end Terrier.Catalog
