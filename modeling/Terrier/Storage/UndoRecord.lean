import Terrier.Storage.ProjectedRow
import Terrier.Transaction.Timestamp

/-!
Tuple slots, their memory and the undo records that hang off them. The version chain of a slot
is the list of undo record addresses from the version pointer on, through `Next()`; `[]` is
`nullptr`.
-/

namespace Terrier

/-- A block of a table and an offset in it. The block's `data_table_` pointer
is the `table` component. -/
structure TupleSlot where
  table : Nat
  block : Nat
  offset : Nat
  deriving DecidableEq, Repr

/-- `DeltaRecordType` together with the before-image an UPDATE record has. -/
inductive UndoDelta (V : Type) where
  | update (before : ProjectedRow V)
  | insert
  | delete

/-- `table = none` marks a record that was never installed in a chain. -/
structure UndoRecord (V : Type) where
  delta : UndoDelta V
  timestamp : Timestamp
  table : Option Nat
  slot : TupleSlot

/-- What a block stores for one slot: the allocation bit, the NULL bitmap bit of the version
pointer column (set means not deleted), the attributes and the version pointer. -/
structure Tuple (V : Type) where
  allocated : Bool
  notNull : Bool
  attrs : ColId → Option V
  chain : List Nat

structure TupleView (V : Type) where
  visible : Bool
  attrs : ColId → Option V

variable {V : Type}

def Tuple.visible (tuple : Tuple V) : Bool :=
  tuple.allocated && tuple.notNull

def Tuple.view (tuple : Tuple V) : TupleView V :=
  ⟨tuple.visible, tuple.attrs⟩

/-- One iteration of the switch in `SelectIntoBuffer`, on whole tuples. -/
def UndoDelta.undo : UndoDelta V → TupleView V → TupleView V
  | .update before, view => { view with attrs := Overwrite.apply before.overwrite view.attrs }
  | .insert, view => { view with visible := false }
  | .delete, view => { view with visible := true }

/-- One iteration of the switch in `TransactionManager::Rollback`. -/
def UndoDelta.rollback : UndoDelta V → Tuple V → Tuple V
  | .update before, tuple =>
    { tuple with attrs := ProjectedRow.storeAttrs before.entries tuple.attrs }
  | .insert, tuple => { tuple with notNull := false, allocated := false }
  | .delete, tuple => { tuple with notNull := true }

def UndoDelta.overwrite : UndoDelta V → ColId → Option (Option V)
  | .update before => before.overwrite
  | .insert => fun _ => none
  | .delete => fun _ => none

def UndoDelta.visibility : UndoDelta V → Option Bool
  | .update _ => none
  | .insert => some false
  | .delete => some true

theorem UndoDelta.undo_eq (delta : UndoDelta V) (view : TupleView V) : delta.undo view =
      ⟨delta.visibility.getD view.visible, Overwrite.apply delta.overwrite view.attrs⟩ := by
  cases delta <;> rfl

@[simp] theorem UndoDelta.rollback_chain (delta : UndoDelta V) (tuple : Tuple V) :
    (delta.rollback tuple).chain = tuple.chain := by
  cases delta <;> rfl

def undoAll (deltas : List (UndoDelta V)) (view : TupleView V) : TupleView V :=
  deltas.foldl (fun v d => d.undo v) view

@[simp] theorem undoAll_nil (view : TupleView V) : undoAll [] view = view := rfl

@[simp] theorem undoAll_cons (delta : UndoDelta V) (deltas : List (UndoDelta V))
    (view : TupleView V) :
    undoAll (delta :: deltas) view = undoAll deltas (delta.undo view) := rfl

theorem undoAll_append (xs ys : List (UndoDelta V)) (view : TupleView V) :
    undoAll (xs ++ ys) view = undoAll ys (undoAll xs view) := by
  simp [undoAll, List.foldl_append]

/-- Undoing is a pair of overwrites, one of the attributes and one of the
visibility flag seen as a map over a one-point key. -/
theorem undoAll_eq (deltas : List (UndoDelta V)) (view : TupleView V) : undoAll deltas view =
      ⟨Overwrite.applyAll (deltas.map (fun d (_ : Unit) => d.visibility))
          (fun _ => view.visible) (),
        Overwrite.applyAll (deltas.map UndoDelta.overwrite) view.attrs⟩ := by
  induction deltas generalizing view with
  | nil => rfl
  | cons delta deltas ih =>
    rw [undoAll_cons, ih, delta.undo_eq]
    rfl

/-- Undoing the same records twice is undoing them once. So an aborted transaction can leave its
records in the chain: a reader that walks over them arrives at the restored tuple. -/
theorem undoAll_idem (deltas : List (UndoDelta V)) (view : TupleView V) :
    undoAll deltas (undoAll deltas view) = undoAll deltas view := by
  simp only [undoAll_eq]
  congr 1
  · exact congrFun (Overwrite.applyAll_idem
      (deltas.map (fun d (_ : Unit) => d.visibility)) (fun _ => view.visible)) ()
  · exact Overwrite.applyAll_idem _ _

variable {deltas replayed : List (UndoDelta V)} {visible : Bool}

section

variable (hsame : ∀ d ∈ deltas, ∀ v, d.visibility = some v → v = visible)
include hsame

/-- Records that set the visibility to one value, if at all, can be undone once
more, in part, without an effect on it. -/
theorem undoAll_replay_visible (hsub : ∀ d ∈ replayed, d ∈ deltas) (view : TupleView V) :
    (undoAll replayed (undoAll deltas view)).visible = (undoAll deltas view).visible := by
  have hagree : Overwrite.Agree (deltas.map (fun d (_ : Unit) => d.visibility)) := by
    intro o ho p hp k v w hv hw
    obtain ⟨d, hd, rfl⟩ := List.mem_map.mp ho
    obtain ⟨e, he, rfl⟩ := List.mem_map.mp hp
    exact (hsame d hd v hv).trans (hsame e he w hw).symm
  simp only [undoAll_eq]
  exact congrFun
    (Overwrite.applyAll_replay hagree (List.map_subset _ hsub) (fun _ => view.visible)) ()

theorem undoAll_visible_of_mem {delta : UndoDelta V} (hdelta : delta ∈ deltas)
    (hsets : delta.visibility.isSome) (view : TupleView V) :
    (undoAll deltas view).visible = visible := by
  rw [undoAll_eq]
  rcases Overwrite.applyAll_eq_or (deltas.map (fun d (_ : Unit) => d.visibility))
    (fun _ => view.visible) () with hnone | ⟨o, ho, hvalue⟩
  · have hunset := hnone _ (List.mem_map_of_mem hdelta)
    simp [hunset] at hsets
  · obtain ⟨d, hd, rfl⟩ := List.mem_map.mp ho
    exact hsame d hd _ hvalue

end

/-- Records that agree on the columns can be undone once more, in part,
without an effect on the attributes. -/
theorem undoAll_replay_attrs (hagree : Overwrite.Agree (deltas.map UndoDelta.overwrite))
    (hsub : ∀ d ∈ replayed, d ∈ deltas) (view : TupleView V) :
    (undoAll replayed (undoAll deltas view)).attrs = (undoAll deltas view).attrs := by
  simp only [undoAll_eq]
  exact Overwrite.applyAll_replay hagree (List.map_subset _ hsub) view.attrs

end Terrier
