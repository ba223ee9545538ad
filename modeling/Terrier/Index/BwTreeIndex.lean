import Terrier.Storage.UndoRecord

/-!
Scans of `BwTreeIndex`. The tree is a list of keys and slots in the order of its keys,
which a comparison `less` gives; an iterator is a place in the list. Which slots the
transaction sees is a parameter.
-/

namespace Terrier.Index

variable {K : Type} {less : K → K → Bool}

structure BwTree (K : Type) (less : K → K → Bool) where
  entries : List (K × TupleSlot)
  sorted : entries.Pairwise fun a b => less b.1 a.1 = false

namespace BwTree

/-- `Begin`. The place `i + 1` is the element `i`, the place 0 lies in front of the first
element. -/
def begin (tree : BwTree K less) (key : K) : Nat :=
  tree.entries.findIdx (fun entry => !less entry.1 key) + 1

/-- `IsEnd` or `KeyCmpGreater` at a place. -/
def isBehind (tree : BwTree K less) (highKey : K) (place : Nat) : Bool :=
  match tree.entries[place - 1]? with
  | none => true
  | some entry => less highKey entry.1

def scanDown (tree : BwTree K less) (isVisible : TupleSlot → Bool) (lowKey : K)
    (limit : Option Nat) : Nat → List TupleSlot → List TupleSlot
  | 0, valueList => valueList
  | place + 1, valueList =>
    match tree.entries[place]? with
    | none => valueList
    | some entry =>
      if limit.any (· ≤ valueList.length) || less entry.1 lowKey then valueList
      else scanDown tree isVisible lowKey limit place
        (if isVisible entry.2 then valueList ++ [entry.2] else valueList)

/-- Where the descending scans start: one element back if the high key is not there. -/
def startDown (tree : BwTree K less) (highKey : K) : Nat :=
  let place := tree.begin highKey
  if tree.isBehind highKey place then place - 1 else place

def scanDescending (tree : BwTree K less) (isVisible : TupleSlot → Bool) (lowKey highKey : K) :
    List TupleSlot :=
  tree.scanDown isVisible lowKey none (tree.startDown highKey) []

def scanLimitDescending (tree : BwTree K less) (isVisible : TupleSlot → Bool)
    (lowKey highKey : K) (limit : Nat) : List TupleSlot :=
  tree.scanDown isVisible lowKey (some limit) (tree.startDown highKey) []

end BwTree

end Terrier.Index
