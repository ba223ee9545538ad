import Terrier.Lib.Runs

/-!
Access to one block by writers, in-place readers and the compactor. State and
reader count are two halves of a word; readers compare and swap both, the others
access one half at a time. Every load, store and compare-and-swap is a step.
-/

namespace Terrier

inductive BlockState where
  | hot
  | cooling
  | freezing
  | frozen
  deriving DecidableEq, Repr

/-- Where `WaitUntilHot` is: before it loads the state, before it compares and
swaps `COOLING`, before it stores `HOT`, and before it loads the reader count. -/
inductive WriterPhase where
  | loadState
  | swapCooling
  | storeHot
  | loadReaders
  | returned
  deriving DecidableEq, Repr

inductive ReaderPhase where
  | loadMembers
  | swapMembers (readerCount : UInt32)
  | refused
  | holding
  | released
  deriving DecidableEq, Repr

inductive CompactorPhase where
  | loadState
  | storeCooling
  | swapCooling
  | storeFrozen
  deriving DecidableEq, Repr

structure BlockAccess (writers : Nat) where
  state : BlockState
  readerCount : UInt32
  writer : Fin writers → WriterPhase
  reader : Nat → ReaderPhase
  compactor : CompactorPhase

/-- `giveUp` is a block that the compactor leaves for now: gaps that it cannot
eliminate, or versions that it finds. -/
inductive AccessAction (writers : Nat) where
  | writer (w : Fin writers)
  | reader (r : Nat)
  | compactor
  | giveUp
  deriving DecidableEq, Repr

namespace BlockAccess

variable {writers : Nat}

def init : BlockAccess writers where
  state := .hot
  readerCount := 0
  writer := fun _ => .loadState
  reader := fun _ => .loadMembers
  compactor := .loadState

def setWriter (s : BlockAccess writers) (w : Fin writers) (phase : WriterPhase) :
    BlockAccess writers :=
  { s with writer := Function.update s.writer w phase }

def setReader (s : BlockAccess writers) (r : Nat) (phase : ReaderPhase) : BlockAccess writers :=
  { s with reader := Function.update s.reader r phase }

/-- `WaitUntilHot`. After `COOLING` was swapped for `HOT` the code falls through
to the store. -/
def waitUntilHot (s : BlockAccess writers) (w : Fin writers) : Option (BlockAccess writers) :=
  match s.writer w with
  | .loadState =>
    match s.state with
    | .freezing => some s
    | .cooling => some (s.setWriter w .swapCooling)
    | .frozen => some (s.setWriter w .storeHot)
    | .hot => some (s.setWriter w .loadReaders)
  | .swapCooling =>
    if s.state = .cooling then some ({ s with state := .hot }.setWriter w .storeHot)
    else some (s.setWriter w .loadState)
  | .storeHot => some ({ s with state := .hot }.setWriter w .loadReaders)
  | .loadReaders => if s.readerCount ≠ 0 then some s else some (s.setWriter w .returned)
  | .returned => none

def readInPlace (s : BlockAccess writers) (r : Nat) : Option (BlockAccess writers) :=
  match s.reader r with
  | .loadMembers =>
    if s.state ≠ .frozen then some (s.setReader r .refused)
    else some (s.setReader r (.swapMembers s.readerCount))
  | .swapMembers readerCount =>
    if s.state = .frozen ∧ s.readerCount = readerCount then
      some ({ s with readerCount := readerCount + 1 }.setReader r .holding)
    else some (s.setReader r .loadMembers)
  | .holding => some ({ s with readerCount := s.readerCount - 1 }.setReader r .released)
  | .refused => none
  | .released => none

/-- `ProcessCompactionQueue` and the end of `CheckForVersionsAndGaps`. -/
def compact (s : BlockAccess writers) : Option (BlockAccess writers) :=
  match s.compactor with
  | .loadState =>
    match s.state with
    | .hot => some { s with compactor := .storeCooling }
    | .cooling => some { s with compactor := .swapCooling }
    | .frozen => some s
    | .freezing => none
  | .storeCooling => some { s with state := .cooling, compactor := .loadState }
  | .swapCooling =>
    if s.state = .cooling then some { s with state := .freezing, compactor := .storeFrozen }
    else some { s with compactor := .loadState }
  | .storeFrozen => some { s with state := .frozen, compactor := .loadState }

def step (s : BlockAccess writers) : AccessAction writers → Option (BlockAccess writers)
  | .writer w => s.waitUntilHot w
  | .reader r => s.readInPlace r
  | .compactor => s.compact
  | .giveUp =>
    if s.compactor = .storeFrozen then none else some { s with compactor := .loadState }

end BlockAccess

end Terrier
