import Terrier.Lib.Runs

/-!
The search of `DataTable::Insert` for a slot, with any number of inserters. The first bit of a
block's `insert_head_` says that an inserter is at work on it, the others count slots. An inserter
that finds no block makes one, puts a slot aside and publishes it; its mark is set in an
assertion, so only in some builds.
-/

namespace Terrier

def clearBit (val : UInt32) : UInt32 := val &&& 0x7FFFFFFF

def setBit (val : UInt32) : UInt32 := val ||| 0x80000000

structure SharedBlock where
  insertHead : UInt32
  allocated : Nat → Bool

namespace SharedBlock

/-- After `InitializeRawBlock`. -/
def new : SharedBlock := ⟨0, fun _ => false⟩

def getInsertHead (block : SharedBlock) : UInt32 := 0x7FFFFFFF &&& block.insertHead

def setInsertHead (block : SharedBlock) (val : UInt32) : SharedBlock :=
  { block with insertHead := val }

/-- `RawConcurrentBitmap::Flip` with the expected value `false`. -/
def flip (block : SharedBlock) (pos : Nat) : SharedBlock × Bool :=
  if block.allocated pos = false then
    ({ block with allocated := Function.update block.allocated pos true }, true)
  else (block, false)

end SharedBlock

/-- The block that an inserter works on. `position` is its place in the list of blocks, if it is
in it yet; `marked` says whether the inserter's own `SetBlockBusyStatus` succeeded. -/
structure Target where
  block : Nat
  position : Option Nat
  marked : Bool
  deriving DecidableEq, Repr

inductive Outcome where
  | full (position : Nat)
  | allocated (slot : Nat × Nat)
  deriving DecidableEq, Repr

/-- What an inserter does next. `atBlock` is the head of the loop, where `none`
is the end of the list. -/
inductive InsertPhase where
  | started
  | atBlock (position : Option Nat)
  | setBusy (block position : Nat) (oldVal : UInt32)
  | readHead (target : Target)
  | flip (target : Target) (start : UInt32)
  | increment (target : Target) (start : UInt32)
  | pushBack (target : Target) (start : UInt32)
  | loadHead (target : Target) (outcome : Outcome)
  | clearBusy (target : Target) (outcome : Outcome) (val : UInt32)
  | moveHead (position : Nat)
  | advance (position : Nat)
  | returned (slot : Nat × Nat)
  deriving DecidableEq, Repr

/-- What `Insert` does after `ClearBlockBusyStatus`. -/
def Outcome.next : Outcome → InsertPhase
  | .full position => .moveHead position
  | .allocated slot => .returned slot

/-- Blocks are named by the order they were made in. `insertionHead` is a place
in the list of blocks. `flips` collects the results of `Flip`, which the program
drops. -/
structure InsertState where
  block : Nat → SharedBlock
  numBlocks : Nat
  blocks : List Nat
  insertionHead : Nat
  phase : Nat → InsertPhase
  flips : List Bool

namespace InsertState

def init : InsertState where
  block := fun _ => .new
  numBlocks := 1
  blocks := [0]
  insertionHead := 0
  phase := fun _ => .started
  flips := []

def setPhase (s : InsertState) (i : Nat) (phase : InsertPhase) : InsertState :=
  { s with phase := Function.update s.phase i phase }

def setBlock (s : InsertState) (b : Nat) (block : SharedBlock) : InsertState :=
  { s with block := Function.update s.block b block }

def newBlock (s : InsertState) (block : SharedBlock) : InsertState :=
  { s.setBlock s.numBlocks block with numBlocks := s.numBlocks + 1 }

def pushBack (s : InsertState) (b : Nat) : InsertState :=
  { s with blocks := s.blocks ++ [b] }

/-- An iterator of the list after `++`. -/
def next (s : InsertState) (position : Nat) : Option Nat :=
  if position + 1 < s.blocks.length then some (position + 1) else none

def checkMoveHead (s : InsertState) (position : Nat) : InsertState :=
  match if position = s.insertionHead then s.next s.insertionHead else some s.insertionHead with
  | some head => { s with insertionHead := head }
  | none =>
    { (s.newBlock .new).pushBack s.numBlocks with insertionHead := s.blocks.length }

/-- The next step of inserter `i`. A block that was just made is not full. -/
def step (assertsEvaluated : Bool) (numSlots : Nat) (s : InsertState) (i : Nat) :
    Option InsertState :=
  match s.phase i with
  | .started => some (s.setPhase i (.atBlock (some s.insertionHead)))
  | .atBlock none =>
    let block := if assertsEvaluated then SharedBlock.new.setInsertHead (setBit 0) else .new
    some ((s.newBlock block).setPhase i (.readHead ⟨s.numBlocks, none, assertsEvaluated⟩))
  | .atBlock (some position) =>
    match s.blocks[position]? with
    | some b => some (s.setPhase i (.setBusy b position (clearBit (s.block b).insertHead)))
    | none => none
  | .setBusy b position oldVal =>
    if (s.block b).insertHead = oldVal then
      some ((s.setBlock b ((s.block b).setInsertHead (setBit oldVal))).setPhase i
        (.readHead ⟨b, some position, true⟩))
    else some (s.setPhase i (.advance position))
  | .readHead target =>
    let start := (s.block target.block).getInsertHead
    if start.toNat = numSlots then
      match target.position with
      | some position => some (s.setPhase i (.loadHead target (.full position)))
      | none => none
    else some (s.setPhase i (.flip target start))
  | .flip target start =>
    let (block, flipRes) := (s.block target.block).flip start.toNat
    some { (s.setBlock target.block block).setPhase i (.increment target start) with
      flips := s.flips ++ [flipRes] }
  | .increment target start =>
    let block := s.block target.block
    some ((s.setBlock target.block (block.setInsertHead (block.insertHead + 1))).setPhase i
      (match target.position with
        | none => .pushBack target start
        | some _ => .loadHead target (.allocated (target.block, start.toNat))))
  | .pushBack target start =>
    some ((s.pushBack target.block).setPhase i
      (.loadHead { target with position := some s.blocks.length }
        (.allocated (target.block, start.toNat))))
  | .loadHead target outcome =>
    some (s.setPhase i (.clearBusy target outcome (s.block target.block).insertHead))
  | .clearBusy target outcome val =>
    let block := s.block target.block
    let cleared :=
      if block.insertHead = val then s.setBlock target.block (block.setInsertHead (clearBit val))
      else s
    some (cleared.setPhase i outcome.next)
  | .moveHead position => some ((s.checkMoveHead position).setPhase i (.advance position))
  | .advance position => some (s.setPhase i (.atBlock (s.next position)))
  | .returned _ => none

end InsertState

end Terrier
