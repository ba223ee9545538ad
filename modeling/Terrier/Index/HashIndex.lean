import Terrier.Lib.Runs
import Terrier.Storage.UndoRecord

/-!
`HashIndex`: a map with one entry for each key that has to hold several slots. What is inserted is
erased again by closures, which wait for the abort of the transaction or for the end of all
readers. Conflicts and visibility of slots are a parameter.
-/

namespace Terrier.Index

variable {K : Type} [DecidableEq K]

inductive ValueType where
  | tupleSlot (slot : TupleSlot)
  | valueMap (slots : List TupleSlot)
  deriving DecidableEq, Repr

structure HashIndex (K : Type) where
  hashMap : K → Option ValueType
  abortActions : Nat → List (K × TupleSlot)
  commitActions : Nat → List (K × TupleSlot)
  deferredActions : List (K × TupleSlot)

def emplace (slots : List TupleSlot) (location : TupleSlot) : List TupleSlot :=
  if location ∈ slots then slots else slots ++ [location]

/-- The function that `Insert` calls on the value it finds. -/
def insertFound (location : TupleSlot) : ValueType → ValueType
  | .tupleSlot existing => .valueMap (emplace [location] existing)
  | .valueMap slots => .valueMap (emplace slots location)

/-- Whether a slot of a value satisfies the predicate of `InsertUnique`. -/
def ValueType.anySlot (predicate : TupleSlot → Bool) : ValueType → Bool
  | tupleSlot existing => predicate existing
  | valueMap slots => slots.any predicate

/-- The function that an erase action calls on the value it finds; `none` erases the key. -/
def eraseFound (location : TupleSlot) : ValueType → Option ValueType
  | .tupleSlot _ => none
  | .valueMap slots =>
    match if slots.length = 2 then slots.find? (· != location) else none with
    | some other => some (.tupleSlot other)
    | none => some (.valueMap (slots.erase location))

/-- What `uprase_fn` leaves of an entry: a value found is replaced or erased, and the value
given becomes the entry of a key that has none. -/
def uprased (found : ValueType → Option ValueType) (value : TupleSlot) :
    Option ValueType → Option ValueType
  | some old => found old
  | none => some (.tupleSlot value)

namespace HashIndex

def init : HashIndex K := ⟨fun _ => none, fun _ => [], fun _ => [], []⟩

def upraseFn (index : HashIndex K) (key : K) (found : ValueType → Option ValueType)
    (value : TupleSlot) : HashIndex K :=
  { index with
    hashMap := Function.update index.hashMap key (uprased found value (index.hashMap key)) }

def registerAbortAction (index : HashIndex K) (txn : Nat) (action : K × TupleSlot) : HashIndex K :=
  { index with
    abortActions := Function.update index.abortActions txn (action :: index.abortActions txn) }

def insert (index : HashIndex K) (txn : Nat) (key : K) (location : TupleSlot) : HashIndex K :=
  (index.upraseFn key (fun value => some (insertFound location value)) location).registerAbortAction
    txn (key, location)

def insertUnique (index : HashIndex K) (txn : Nat) (key : K) (location : TupleSlot)
    (predicate : TupleSlot → Bool) : HashIndex K × Bool :=
  if (index.hashMap key).any (·.anySlot predicate) then (index, false)
  else (index.insert txn key location, true)

/-- `ERASE_KEY_ACTION`. A key that is not found would get a default value. -/
def eraseKeyAction (index : HashIndex K) (action : K × TupleSlot) : HashIndex K :=
  index.upraseFn action.1 (eraseFound action.2) ⟨0, 0, 0⟩

def delete (index : HashIndex K) (txn : Nat) (key : K) (location : TupleSlot) : HashIndex K :=
  { index with
    commitActions :=
      Function.update index.commitActions txn ((key, location) :: index.commitActions txn) }

/-- What happens to an index. An abort runs the erase actions of the transaction one by
one, the last first. -/
inductive Action (K : Type) where
  | insert (txn : Nat) (key : K) (location : TupleSlot)
  | insertUnique (txn : Nat) (key : K) (location : TupleSlot) (predicate : TupleSlot → Bool)
  | delete (txn : Nat) (key : K) (location : TupleSlot)
  | commit (txn : Nat)
  | abort (txn : Nat)
  | runDeferred

def step (index : HashIndex K) : Action K → Option (HashIndex K)
  | .insert txn key location => some (index.insert txn key location)
  | .insertUnique txn key location predicate =>
    some (index.insertUnique txn key location predicate).1
  | .delete txn key location => some (index.delete txn key location)
  | .commit txn =>
    some { index with
      deferredActions := index.deferredActions ++ index.commitActions txn
      commitActions := Function.update index.commitActions txn []
      abortActions := Function.update index.abortActions txn [] }
  | .abort txn =>
    match index.abortActions txn with
    | [] => none
    | action :: rest =>
      some (HashIndex.eraseKeyAction
        { index with abortActions := Function.update index.abortActions txn rest } action)
  | .runDeferred =>
    match index.deferredActions with
    | [] => none
    | action :: rest =>
      some (HashIndex.eraseKeyAction { index with deferredActions := rest } action)

end HashIndex

end Terrier.Index
