import Terrier.Storage.BlockAccessController
import Terrier.Storage.BlockCompactor

/-!
A pass of the compactor over its queue. A hot block is compacted as a group of its
own, a cooling block without versions and gaps is gathered and frozen. No other
thread acts during the pass; transactions that have begun before may still hold
versions.
-/

namespace Terrier.Compactor

inductive ArrowColumnType where
  | fixedLength
  | gatheredVarlen
  | dictionaryCompressed
  deriving DecidableEq, Repr

structure Block where
  state : BlockState
  slots : List Slot
  varlens : List ArrowColumnType
  deriving DecidableEq, Repr

/-- Whether `MoveTuple` gets through. -/
def canMove (slots : List Slot) (slot : GroupSlot) : Bool :=
  match slots[slot.offset]? with
  | some found => found.readable && found.deletable
  | none => false

def tryFillGaps (canMove : GroupSlot → Bool) (blocks : List Bitmap) (taker : Nat) :
    List Nat → Sweep → Option (Sweep × Option Move)
  | [], sweep => some (sweep, none)
  | empty :: rest, sweep => do
      let sweep ← sweep.refill blocks
      let offset ← sweep.filled.getLast?
      let sweep := { sweep with filled := sweep.filled.dropLast }
      if taker = sweep.giver ∧ offset < empty then some (sweep, none)
      else if canMove ⟨sweep.giver, offset⟩ then
        tryFillGaps canMove blocks taker rest (sweep.move ⟨sweep.giver, offset⟩ ⟨taker, empty⟩)
      else some (sweep, some ⟨⟨sweep.giver, offset⟩, ⟨taker, empty⟩⟩)

def trySweepBlocks (canMove : GroupSlot → Bool) (blocks : List Bitmap) :
    List Bitmap → Nat → Sweep → Option (Sweep × Option Move)
  | [], _, sweep => some (sweep, none)
  | bitmap :: rest, taker, sweep =>
    if taker ≤ sweep.giver then do
      let (sweep, failed) ← tryFillGaps canMove blocks taker (emptySlots bitmap) sweep
      match failed with
      | some move => some (sweep, some move)
      | none => trySweepBlocks canMove blocks rest (taker + 1) sweep
    else some (sweep, none)

/-- `EliminateGaps` on the group of one block: the moves made, and the one that failed. -/
def tryEliminateGaps (slots : List Slot) : Option (Sweep × Option Move) :=
  let blocks := [allocationBitmap slots]
  trySweepBlocks (canMove slots) blocks blocks 0 ⟨blocks.length, [], []⟩

/-- The slots after the moves are rolled back. Allocation is as before, but the records stay
in the version chains. The tuple of the failed move may have been inserted already. -/
def abortMoves (slots : List Slot) (moves : List Move) (failed : Move) : List Slot :=
  let inserted := (slots[failed.source.offset]?.map (·.readable)).getD false
  slots.mapIdx fun offset slot =>
    if moves.any (fun move => move.target.offset == offset || move.source.offset == offset) ||
        (inserted && failed.target.offset == offset) then { slot with versioned := true }
    else slot

def checkSlots : List Slot → Nat → Nat → Bool → Option Nat
  | [], _, numRecords, _ => some numRecords
  | slot :: rest, offset, numRecords, regionStarted =>
    if !slot.allocated then
      checkSlots rest (offset + 1) (if regionStarted then numRecords else offset) true
    else if regionStarted then none
    else if slot.versioned then none
    else checkSlots rest (offset + 1) numRecords regionStarted

/-- `CheckForVersionsAndGaps`, when no other thread changes the state of the block. -/
def checkForVersionsAndGaps (slots : List Slot) : Option Nat :=
  checkSlots slots 0 slots.length false

def gathers (varlens : List ArrowColumnType) : Bool :=
  varlens.all (· != .fixedLength)

inductive Turn where
  /-- The block is popped. -/
  | popped (block : Block)
  /-- The block stays at the front of the queue. -/
  | again
  /-- A read out of bounds, or an exception. -/
  | undefined
  deriving DecidableEq, Repr

/-- The body of the loop of `ProcessCompactionQueue`. -/
def turn (block : Block) : Turn :=
  match block.state with
  | .hot =>
    match tryEliminateGaps block.slots with
    | none => .undefined
    | some (sweep, none) =>
      .popped { block with
        state := .cooling
        slots := commitMoves 0 block.slots sweep.moves }
    | some (sweep, some failed) =>
      .popped { block with slots := abortMoves block.slots sweep.moves failed }
  | .cooling =>
    match checkForVersionsAndGaps block.slots with
    | none => .again
    | some _ =>
      if gathers block.varlens then .popped { block with state := .frozen } else .undefined
  | .freezing => .undefined
  | .frozen => .popped block

structure Pass where
  queue : List Nat
  blocks : Nat → Block
  handled : List Nat

def processCompactionQueue : Nat → Pass → Option Pass
  | _, ⟨[], blocks, handled⟩ => some ⟨[], blocks, handled⟩
  | 0, _ => none
  | fuel + 1, ⟨id :: rest, blocks, handled⟩ =>
    match turn (blocks id) with
    | .popped block =>
      processCompactionQueue fuel ⟨rest, Function.update blocks id block, handled ++ [id]⟩
    | .again => processCompactionQueue fuel ⟨id :: rest, blocks, handled⟩
    | .undefined => none

end Terrier.Compactor
