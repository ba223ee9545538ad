import Terrier.Transaction.State

/-!
`DataTable`: slot allocation, the write path and the read path. A write
installs its undo record at the head of the slot's version chain and then
changes the tuple in place; a read copies the tuple and undoes the records
that are too new for it.
-/

namespace Terrier

open List

variable {V : Type}

namespace DataTable

/-- `insert_head_` of a block; a block that does not exist yet starts at 0. -/
def insertHead (table : DataTable) (block : Nat) : Nat :=
  table.insertHeads.getD block 0

/-- `TupleAccessStrategy::Allocate` on one block. -/
def allocate (numSlots : Nat) (table : DataTable) (block : Nat) : Option (DataTable × Nat) :=
  let start := table.insertHead block
  if start = numSlots then
    none
  else
    some (⟨table.insertHeads.set block (start + 1), table.insertionHead,
      by simpa using table.insertionHead_lt⟩, start)

/-- `DataTable::CheckMoveHead` for a full block. The insertion head is in the
list, so only moving it can bring it to the end. -/
def checkMoveHead (table : DataTable) (block : Nat) : DataTable :=
  if block = table.insertionHead then
    if h : table.insertionHead + 1 = table.insertHeads.length then
      ⟨table.insertHeads ++ [0], table.insertionHead + 1, by simp [← h]⟩
    else
      ⟨table.insertHeads, table.insertionHead + 1, by have := table.insertionHead_lt; omega⟩
  else
    table

/-- The search loop of `DataTable::Insert` when no other thread holds a busy
bit. The result is the block and offset of the new slot. -/
def insertLoop (numSlots : Nat) : Nat → DataTable → Nat → Option (DataTable × Nat × Nat)
  | 0, _, _ => none
  | fuel + 1, table, block =>
    if block = table.insertHeads.length then
      some (⟨table.insertHeads ++ [1], table.insertionHead, by
        have := table.insertionHead_lt
        simp only [length_append, length_singleton]
        omega⟩, block, 0)
    else
      match allocate numSlots table block with
      | some (next, offset) => some (next, block, offset)
      | none => insertLoop numSlots fuel (checkMoveHead table block) (block + 1)

/-- The loop visits every block from the insertion head on and at most one
block that it appends itself. -/
def findSlot (numSlots : Nat) (table : DataTable) : Option (DataTable × Nat × Nat) :=
  insertLoop numSlots (table.insertHeads.length + 2) table table.insertionHead

variable {numSlots block offset fuel : Nat} {table next : DataTable}

theorem allocate_eq_some (h : allocate numSlots table block = some (next, offset)) :
    offset = table.insertHead block ∧
      next.insertHeads = table.insertHeads.set block (table.insertHead block + 1) := by
  simp only [allocate] at h
  split_ifs at h
  cases h
  exact ⟨rfl, rfl⟩

theorem checkMoveHead_insertHeads (table : DataTable) (block : Nat) :
    (checkMoveHead table block).insertHeads = table.insertHeads ∨
      (checkMoveHead table block).insertHeads = table.insertHeads ++ [0] := by
  unfold checkMoveHead
  split_ifs <;> simp

/-- An appended empty block does not change any `insert_head_`. -/
theorem checkMoveHead_insertHead (table : DataTable) (block b : Nat) :
    (checkMoveHead table block).insertHead b = table.insertHead b := by
  unfold insertHead
  rcases checkMoveHead_insertHeads table block with hsame | hmore
  · rw [hsame]
  · rw [hmore, getD_eq_getElem?_getD, getD_eq_getElem?_getD]
    rcases lt_trichotomy b table.insertHeads.length with hlt | heq | hgt
    · rw [getElem?_append_left hlt]
    · simp [heq]
    · rw [getElem?_append_right (Nat.le_of_lt hgt),
        getElem?_eq_none (Nat.le_of_lt hgt), getElem?_eq_none]
      simp only [length_singleton]
      omega

/-- A block that is not full ends the search at the latest. -/
private theorem insertLoop_of_free {free : Nat} (hblock : block ≤ free)
    (hfree : free < table.insertHeads.length) (hroom : table.insertHead free ≠ numSlots)
    (hfuel : free - block < fuel) : (insertLoop numSlots fuel table block).isSome := by
  induction fuel generalizing table block with
  | zero => omega
  | succ fuel ih =>
    simp only [insertLoop]
    split_ifs with hend
    · omega
    · split
      · rfl
      next hfull =>
        have hne : block ≠ free := by
          rintro rfl
          simp [allocate, hroom] at hfull
        have hlen : table.insertHeads.length ≤ (checkMoveHead table block).insertHeads.length := by
          rcases checkMoveHead_insertHeads table block with h | h <;> simp [h]
        exact ih (by omega) (by omega) (by rwa [checkMoveHead_insertHead]) (by omega)

private theorem insertLoop_isSome (hslots : 0 < numSlots)
    (hblock : block ≤ table.insertHeads.length)
    (hfuel : table.insertHeads.length - block + 1 < fuel) :
    (insertLoop numSlots fuel table block).isSome := by
  induction fuel generalizing table block with
  | zero => omega
  | succ fuel ih =>
    simp only [insertLoop]
    split_ifs with hend
    · rfl
    · split
      · rfl
      · rcases checkMoveHead_insertHeads table block with hsame | hmore
        · exact ih (by rw [hsame]; omega) (by rw [hsame]; omega)
        · have hlast : table.insertHeads.length <
              (checkMoveHead table block).insertHeads.length := by simp [hmore]
          refine insertLoop_of_free (by omega) hlast ?_ (by omega)
          rw [checkMoveHead_insertHead]
          simp only [insertHead, getD_eq_getElem?_getD, le_refl, getElem?_eq_none, Option.getD_none]
          omega

/-- What the search returns: a block's next unused offset, with exactly that
block's `insert_head_` advanced. -/
private theorem insertLoop_eq_some {start : Nat} (hstart : start ≤ table.insertHeads.length)
    (h : insertLoop numSlots fuel table start = some (next, block, offset)) :
    offset = table.insertHead block ∧
      ∀ b, next.insertHead b = if b = block then offset + 1 else table.insertHead b := by
  induction fuel generalizing table start with
  | zero => cases h
  | succ fuel ih =>
    simp only [insertLoop] at h
    split_ifs at h with hend
    · obtain ⟨rfl, hrest⟩ := Prod.mk.inj (Option.some.inj h)
      cases hrest
      refine ⟨by simp [insertHead, hend], fun b => ?_⟩
      simp only [insertHead, getD_eq_getElem?_getD]
      rcases lt_trichotomy b table.insertHeads.length with hlt | heq | hgt
      · rw [getElem?_append_left hlt, if_neg (by omega)]
      · simp [heq, hend]
      · rw [if_neg (by omega), getElem?_eq_none, getElem?_eq_none (by omega)]
        simp only [length_append, length_singleton]
        omega
    · split at h
      next allocated offset' halloc =>
        obtain ⟨rfl, hrest⟩ := Prod.mk.inj (Option.some.inj h)
        obtain ⟨rfl, rfl⟩ := Prod.mk.inj hrest
        obtain ⟨hoff, hheads⟩ := allocate_eq_some halloc
        refine ⟨hoff, fun b => ?_⟩
        simp only [insertHead, getD_eq_getElem?_getD, hheads, hoff]
        by_cases hb : b = start
        · rw [hb, getElem?_set_self (by omega), if_pos rfl]
          rfl
        · rw [getElem?_set_ne (Ne.symm hb), if_neg hb]
      · have hlen : start + 1 ≤ (checkMoveHead table start).insertHeads.length := by
          rcases checkMoveHead_insertHeads table start with hm | hm <;> simp [hm] <;> omega
        obtain ⟨hoff, hheads⟩ := ih hlen h
        simp only [checkMoveHead_insertHead] at hoff hheads
        exact ⟨hoff, hheads⟩

/-- The search always finds a slot, and it is one that no earlier insert got:
the next unused offset of some block. -/
theorem findSlot_spec (hslots : 0 < numSlots) (table : DataTable) :
    ∃ next block, findSlot numSlots table = some (next, block, table.insertHead block) ∧
      ∀ b, next.insertHead b =
        if b = block then table.insertHead block + 1 else table.insertHead b := by
  have hhead := table.insertionHead_lt
  have hsome : (findSlot numSlots table).isSome :=
    insertLoop_isSome hslots (Nat.le_of_lt hhead) (by omega)
  obtain ⟨⟨next, block, offset⟩, hfind⟩ := Option.isSome_iff_exists.mp hsome
  obtain ⟨rfl, hheads⟩ := insertLoop_eq_some (Nat.le_of_lt hhead) hfind
  exact ⟨next, block, hfind, hheads⟩

end DataTable

/-- `DataTable::HasConflict` on the head of a version chain. -/
def hasConflictWith (start : Nat) (finishTime : Timestamp) : Option Timestamp → Bool
  | none => false
  | some versionTimestamp =>
    let ownedByOtherTxn := !versionTimestamp.committed && decide (versionTimestamp ≠ finishTime)
    let newerCommittedVersion :=
      versionTimestamp.committed && versionTimestamp.newerThan (.time start)
    ownedByOtherTxn || newerCommittedVersion

namespace State

/-- The timestamp of the record the version pointer of a slot points to. -/
def headTimestamp (σ : State V) (slot : TupleSlot) : Option Timestamp :=
  (σ.tuples slot).chain.head?.map (fun a => (σ.undo a).timestamp)

def hasConflict (σ : State V) (t : Nat) (txn : TransactionContext V) (slot : TupleSlot) : Bool :=
  hasConflictWith t txn.finishTime (σ.headTimestamp slot)

/-- The test at the top of the retry loops of `Update` and `Delete`. -/
def refuses (σ : State V) (t : Nat) (txn : TransactionContext V) (slot : TupleSlot) : Bool :=
  σ.hasConflict t txn slot || !(σ.tuples slot).visible

def install (σ : State V) (t : Nat) (txn : TransactionContext V) (slot : TupleSlot)
    (delta : UndoDelta V) (tuple : Tuple V) : State V :=
  (σ.newUndo t txn ⟨delta, txn.finishTime, some slot.table, slot⟩).setTuple slot
    { tuple with chain := σ.nextUndo :: tuple.chain }

/-- Leave the record in the buffer, with its table pointer cleared. -/
def reject (σ : State V) (t : Nat) (txn : TransactionContext V) (slot : TupleSlot)
    (delta : UndoDelta V) : State V :=
  σ.newUndo t txn ⟨delta, txn.finishTime, none, slot⟩

/-- `DataTable::Update`. A refused update leaves the before-image cleared, as
`CopyProjectedRowLayout` initialized it. -/
def update (σ : State V) (t : Nat) (txn : TransactionContext V) (slot : TupleSlot)
    (redo : ProjectedRow V) : State V × Bool :=
  let tuple := σ.tuples slot
  if σ.refuses t txn slot then
    (σ.reject t txn slot (.update (.ofColumns redo.projectionList (fun _ => none))), false)
  else
    (σ.install t txn slot (.update (.ofColumns redo.projectionList tuple.attrs))
      { tuple with attrs := ProjectedRow.storeAttrs redo.entries tuple.attrs }, true)

def delete (σ : State V) (t : Nat) (txn : TransactionContext V) (slot : TupleSlot) :
    State V × Bool :=
  if σ.refuses t txn slot then
    (σ.reject t txn slot .delete, false)
  else
    (σ.install t txn slot .delete { σ.tuples slot with notNull := false }, true)

def allocateSlot (cfg : Config) (σ : State V) (table : Nat) : Option (State V × TupleSlot) :=
  match (σ.tables table).findSlot (cfg.numSlots table) with
  | none => none
  | some (next, block, offset) =>
    some ({ σ with tables := Function.update σ.tables table next }, ⟨table, block, offset⟩)

/-- `DataTable::InsertInto`, the second half of `Insert`, on the slot that the
search loop allocated. The version pointer is overwritten, not chained. -/
def insertInto (σ : State V) (t : Nat) (txn : TransactionContext V) (slot : TupleSlot)
    (redo : ProjectedRow V) : State V :=
  σ.install t txn slot .insert
    { allocated := true, notNull := true,
      attrs := ProjectedRow.storeAttrs redo.entries (σ.tuples slot).attrs, chain := [] }

/-- The delta walk of `SelectIntoBuffer` for a reader that began at `start`. -/
def applyDeltas (σ : State V) (start : Nat) :
    List Nat → Bool → List (ColId × Option V) → Bool × List (ColId × Option V)
  | [], visible, buffer => (visible, buffer)
  | a :: chain, visible, buffer =>
    if (σ.undo a).timestamp.newerThan (.time start) then
      match (σ.undo a).delta with
      | .update before =>
        applyDeltas σ start chain visible (ProjectedRow.applyDelta before.entries buffer)
      | .insert => applyDeltas σ start chain false buffer
      | .delete => applyDeltas σ start chain true buffer
    else
      (visible, buffer)

/-- `DataTable::SelectIntoBuffer`: the returned flag and the output buffer. -/
def selectIntoBuffer (σ : State V) (start : Nat) (finishTime : Timestamp) (slot : TupleSlot)
    (outBuffer : ProjectedRow V) : Bool × List (ColId × Option V) :=
  let tuple := σ.tuples slot
  if tuple.allocated then
    let buffer := ProjectedRow.loadAttrs tuple.attrs outBuffer.entries
    let visible := tuple.visible
    if σ.headTimestamp slot = none ∨ σ.headTimestamp slot = some finishTime then
      (visible, buffer)
    else
      σ.applyDeltas start tuple.chain visible buffer
  else
    (false, outBuffer.entries)

def visibilityWalk (σ : State V) (start : Nat) : List Nat → Bool → Bool
  | [], visible => visible
  | a :: chain, visible =>
    if (σ.undo a).timestamp.newerThan (.time start) then
      match (σ.undo a).delta with
      | .update _ => visibilityWalk σ start chain visible
      | .insert => visibilityWalk σ start chain false
      | .delete => visibilityWalk σ start chain true
    else
      visible

def isVisible (σ : State V) (start : Nat) (finishTime : Timestamp) (slot : TupleSlot) : Bool :=
  let tuple := σ.tuples slot
  if σ.headTimestamp slot = none ∨ σ.headTimestamp slot = some finishTime then
    tuple.visible
  else
    σ.visibilityWalk start tuple.chain tuple.visible

end State

end Terrier
