import Mathlib.Tactic

/-!
The compactor's elimination of gaps in a group of blocks. Empty slots are filled from the front of
the group with tuples from its end; the slots of a giving block are listed when those behind it
have run out.
-/

namespace Terrier.Compactor

abbrev Bitmap := List Bool

/-- A slot of a block: its allocation bit, whether its version pointer is set, and whether the
compacting transaction can read the tuple (`Select`) and delete it (`Delete`). -/
structure Slot where
  allocated : Bool
  versioned : Bool
  readable : Bool
  deletable : Bool
  deriving DecidableEq, Repr

def allocationBitmap (slots : List Slot) : Bitmap :=
  slots.map (·.allocated)

structure GroupSlot where
  block : Nat
  offset : Nat
  deriving DecidableEq, Repr

structure Move where
  source : GroupSlot
  target : GroupSlot
  deriving DecidableEq, Repr

def emptySlots (bitmap : Bitmap) : List Nat :=
  (List.range bitmap.length).filter fun offset => bitmap[offset]? == some false

/-- The loop of `ComputeFilled`, with the empty slots not met yet. -/
def skipEmpty : List Nat → List Nat → List Nat
  | [], _ => []
  | offset :: rest, [] => offset :: skipEmpty rest []
  | offset :: rest, empty :: empties =>
    if empty ≠ offset then offset :: skipEmpty rest (empty :: empties)
    else skipEmpty rest empties

def computeFilled (bitmap : Bitmap) : List Nat :=
  skipEmpty (List.range bitmap.length) (emptySlots bitmap)

structure Sweep where
  giver : Nat
  filled : List Nat
  moves : List Move
  deriving DecidableEq, Repr

namespace Sweep

/-- A list of filled slots that has run out is replaced by that of the block before. The
giver must not be moved before the first block. -/
def refill (blocks : List Bitmap) (sweep : Sweep) : Option Sweep :=
  if sweep.filled = [] then
    match sweep.giver with
    | 0 => none
    | giver + 1 => some { sweep with
        giver := giver
        filled := computeFilled (blocks.getD giver []) }
  else some sweep

def move (sweep : Sweep) (source target : GroupSlot) : Sweep :=
  { sweep with moves := sweep.moves ++ [⟨source, target⟩] }

end Sweep

/-- The inner loop of `EliminateGaps`, over the empty slots of the taking block. The last
of an empty list must not be read. -/
def fillGaps (blocks : List Bitmap) (taker : Nat) : List Nat → Sweep → Option Sweep
  | [], sweep => some sweep
  | empty :: rest, sweep => do
      let sweep ← sweep.refill blocks
      let offset ← sweep.filled.getLast?
      let sweep := { sweep with filled := sweep.filled.dropLast }
      if taker = sweep.giver ∧ offset < empty then some sweep
      else fillGaps blocks taker rest (sweep.move ⟨sweep.giver, offset⟩ ⟨taker, empty⟩)

/-- The outer loop, over the blocks from `taker` on. -/
def sweepBlocks (blocks : List Bitmap) : List Bitmap → Nat → Sweep → Option Sweep
  | [], _, sweep => some sweep
  | bitmap :: rest, taker, sweep =>
    if taker ≤ sweep.giver then do
      let sweep ← fillGaps blocks taker (emptySlots bitmap) sweep
      sweepBlocks blocks rest (taker + 1) sweep
    else some sweep

/-- `EliminateGaps` on blocks in the order chosen, when no move conflicts: the moves made. -/
def eliminateGaps (blocks : List Bitmap) : Option (List Move) :=
  (sweepBlocks blocks blocks 0 ⟨blocks.length, [], []⟩).map (·.moves)

/-- The slots of a block after the moves are committed. A tuple moved away is only logically
deleted, the collector gives up its slot later. -/
def commitMoves (block : Nat) (slots : List Slot) (moves : List Move) : List Slot :=
  slots.mapIdx fun offset slot =>
    if moves.any (·.target == ⟨block, offset⟩) then ⟨true, true, true, true⟩
    else if moves.any (·.source == ⟨block, offset⟩) then
      { slot with versioned := true, readable := false }
    else slot

def commitGroup (group : List (List Slot)) (moves : List Move) : List (List Slot) :=
  group.mapIdx fun block slots => commitMoves block slots moves

end Terrier.Compactor
