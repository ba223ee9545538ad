import Terrier.Lib.Runs

/-!
A sequential scan of a table while others insert. The table is the list of its blocks' insert
heads; its end is computed anew for every comparison. Inserts happen between the comparison, the
access to the slot and the increment.
-/

namespace Terrier

/-- A `TupleSlot` by its block's place in the list, `none` for the null block. -/
abbrev ScanSlot := Option Nat × Nat

/-- `block` is the iterator into the list of blocks, with `none` for its end.
`visiting` says that `Scan` is past the comparison. `visited` lists the slots that
were accessed. -/
structure TableScan where
  insertHeads : List Nat
  block : Option Nat
  currentSlot : ScanSlot
  visiting : Bool
  visited : List ScanSlot
  deriving DecidableEq, Repr

/-- `insert` takes the next slot of a block. A block is appended either empty,
by `CheckMoveHead`, or with a slot taken, by an inserter that found no block. -/
inductive ScanAction where
  | insert (position : Nat)
  | append (slotTaken : Bool)
  | compare
  | increment
  deriving DecidableEq, Repr

namespace TableScan

/-- `DataTable::begin`. -/
def start (insertHeads : List Nat) : TableScan where
  insertHeads := insertHeads
  block := if insertHeads = [] then none else some 0
  currentSlot := (if insertHeads = [] then none else some 0, 0)
  visiting := false
  visited := []

def endSlot (numSlots : Nat) (insertHeads : List Nat) : ScanSlot :=
  match insertHeads.getLast? with
  | none => (none, 0)
  | some insertHead =>
    if insertHead = numSlots then (none, 0) else (some (insertHeads.length - 1), insertHead)

/-- The iterator into the list of blocks after `++`. -/
def nextBlock (s : TableScan) (position : Nat) : Option Nat :=
  if position + 1 < s.insertHeads.length then some (position + 1) else none

/-- The increment of an iterator that is at the end of the list is undefined, and
the step cannot be taken. -/
def step (numSlots : Nat) (s : TableScan) : ScanAction → Option TableScan
  | .insert position =>
    match s.insertHeads[position]? with
    | some insertHead =>
      if insertHead < numSlots then
        some { s with insertHeads := s.insertHeads.set position (insertHead + 1) }
      else none
    | none => none
  | .append slotTaken =>
    some { s with insertHeads := s.insertHeads ++ [if slotTaken then 1 else 0] }
  | .compare =>
    if s.visiting = false then
      if s.currentSlot = endSlot numSlots s.insertHeads then some s
      else some { s with visiting := true, visited := s.visited ++ [s.currentSlot] }
    else none
  | .increment =>
    match s.visiting, s.block with
    | true, some position =>
      if s.currentSlot.2 = numSlots - 1 then
        some { s with
          visiting := false
          block := s.nextBlock position
          currentSlot := (s.nextBlock position, 0) }
      else
        some { s with
          visiting := false
          currentSlot := (some position, s.currentSlot.2 + 1) }
    | _, _ => none

end TableScan

end Terrier
