import Terrier.Log.BlockLayout

/-!
`RawConcurrentBitmap::FirstUnsetPos` on a bitmap that nobody changes: a search in words of 64,
32 and 16 bits, and then byte by byte. The bits behind the end are arbitrary. Positions and
counts have 32 bits; the words that are read are recorded.
-/

namespace Terrier.RawConcurrentBitmap

/-- The state of the loop. `reads` are the places and lengths of words read, in bytes. -/
structure Search where
  bytePos : Nat
  bitsLeft : Nat
  foundUnsetBit : Bool
  reads : List (Nat × Nat)

def isAlignedAndFits (size bitsLeft bytePos : Nat) : Bool :=
  size * 8 ≤ bitsLeft && bytePos % size == 0

def Search.wordSize (search : Search) : Option Nat :=
  if search.foundUnsetBit then none
  else [8, 4, 2].find? fun size => isAlignedAndFits size search.bitsLeft search.bytePos

def isFull (bits : Nat → Bool) (bytePos size : Nat) : Bool :=
  (List.range (size * 8)).all fun i => bits (bytePos * 8 + i)

def findUnsetBit (bits : Nat → Bool) (size : Nat) (search : Search) : Search :=
  let reads := search.reads ++ [(search.bytePos, size)]
  if isFull bits search.bytePos size then
    { search with
      bytePos := search.bytePos + size, bitsLeft := search.bitsLeft - size * 8, reads }
  else { search with foundUnsetBit := true, reads }

inductive ByteSearch where
  | found (pos : Nat)
  | padding
  | nothing

def searchByte (bits : Nat → Bool) (numBits startPos : Nat) : List Nat → ByteSearch
  | [] => .nothing
  | currentPos :: rest =>
    if numBits ≤ currentPos then .padding
    else if currentPos < startPos then searchByte bits numBits startPos rest
    else if bits currentPos then searchByte bits numBits startPos rest
    else .found currentPos

inductive Round where
  | returned (outPos : Option Nat) (reads : List (Nat × Nat))
  | continued (search : Search)

/-- A round that reads a byte. The remaining bits are reduced by a number that depends on
the start position only. -/
def byteRound (bits : Nat → Bool) (numBits startPos : Nat) (search : Search) : Round :=
  let reads := search.reads ++ [(search.bytePos, 1)]
  let next := Round.continued
    { search with
      bytePos := search.bytePos + 1
      bitsLeft := (search.bitsLeft + 2 ^ 32 - (8 - startPos % 8)) % 2 ^ 32
      reads }
  if isFull bits search.bytePos 1 then next
  else
    match searchByte bits numBits startPos (List.range' (search.bytePos * 8) 8) with
    | .found pos => .returned (some pos) reads
    | .padding => .returned none reads
    | .nothing => next

/-- The loop; `none` stands for rounds left. -/
def searchLoop (bits : Nat → Bool) (numBits startPos : Nat) :
    Nat → Search → Option (Option Nat × List (Nat × Nat))
  | 0, _ => none
  | fuel + 1, search =>
    if search.bytePos < sizeInBytes numBits ∧ 0 < search.bitsLeft then
      match search.wordSize with
      | some size => searchLoop bits numBits startPos fuel (findUnsetBit bits size search)
      | none =>
        match byteRound bits numBits startPos search with
        | .returned outPos reads => some (outPos, reads)
        | .continued next => searchLoop bits numBits startPos fuel next
    else some (none, search.reads)

/-- The position written to `out_pos` when the result is true, and the words read. -/
def firstUnsetPos (bits : Nat → Bool) (numBits startPos : Nat) :
    Option (Option Nat × List (Nat × Nat)) :=
  if numBits ≤ startPos then some (none, [])
  else searchLoop bits numBits startPos (sizeInBytes numBits + 2)
    ⟨startPos / 8, numBits - startPos, false, []⟩

end Terrier.RawConcurrentBitmap
