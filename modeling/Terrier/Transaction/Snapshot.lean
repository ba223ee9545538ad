import Terrier.System

/-!
The specification of snapshot isolation, over histories. A slot holds a row or none, a committed
transaction applies its writes at once, and a transaction reads the effect of all commits before
its start with its own writes on top.
-/

namespace Terrier

open List

variable {V : Type}

abbrev Row (V : Type) := ColId → Option V

def WriteOp.apply : WriteOp V → Option (Row V) → Option (Row V)
  | .insert redo, _ => some (Overwrite.apply redo.overwrite (fun _ => none))
  | .update redo, row => row.map (Overwrite.apply redo.overwrite)
  | .delete, _ => none

def applyWrites (ops : List (WriteOp V)) (row : Option (Row V)) : Option (Row V) :=
  ops.foldl (fun row op => op.apply row) row

def Event.writeTo (t : Nat) (slot : TupleSlot) : Event V → Option (WriteOp V)
  | .write u s op result => if u = t ∧ s = slot ∧ result = true then some op else none
  | .begin _ => none
  | .select _ _ _ _ => none
  | .commit _ _ => none
  | .abort _ _ => none
  | .performGarbageCollection => none
  | .process => none

def Event.commitOf : Event V → Option (Nat × Nat)
  | .commit t commitTime => some (t, commitTime)
  | .write _ _ _ _ => none
  | .begin _ => none
  | .select _ _ _ _ => none
  | .abort _ _ => none
  | .performGarbageCollection => none
  | .process => none

def writesOf (h : List (Event V)) (t : Nat) (slot : TupleSlot) : List (WriteOp V) :=
  h.filterMap (Event.writeTo t slot)

def commitsOf (h : List (Event V)) : List (Nat × Nat) :=
  h.filterMap Event.commitOf

def effectOf (h : List (Event V)) (slot : TupleSlot) (commits : List (Nat × Nat)) :
    Option (Row V) :=
  commits.foldl (fun row c => applyWrites (writesOf h c.1 slot) row) none

def committedBefore (h : List (Event V)) (time : Nat) (slot : TupleSlot) : Option (Row V) :=
  effectOf h slot ((commitsOf h).filter (fun c => decide (c.2 < time)))

/-- What the transaction that began at `t` is to see in a slot. -/
def snapshot (h : List (Event V)) (t : Nat) (slot : TupleSlot) : Option (Row V) :=
  applyWrites (writesOf h t slot) (committedBefore h t slot)

def Event.refusedBy : Event V → Option Nat
  | .write t _ _ result => if result then none else some t
  | .begin _ => none
  | .select _ _ _ _ => none
  | .commit _ _ => none
  | .abort _ _ => none
  | .performGarbageCollection => none
  | .process => none

/-- The transaction that an event is a write of, accepted or not. -/
def Event.writer : Event V → Option Nat
  | .write t _ _ _ => some t
  | .begin _ => none
  | .select _ _ _ _ => none
  | .commit _ _ => none
  | .abort _ _ => none
  | .performGarbageCollection => none
  | .process => none

/-- The contract of `SqlTable`: once a write of a transaction was refused, the
transaction makes no further write. -/
def MustAbortContract (h : List (Event V)) : Prop :=
  h.Pairwise (fun e f => ∀ t, e.refusedBy = some t → f.writer ≠ some t)

instance (h : List (Event V)) : Decidable (MustAbortContract h) :=
  inferInstanceAs (Decidable (h.Pairwise (fun e f => ∀ t ∈ e.refusedBy, f.writer ≠ some t)))

section Snoc

variable (h : List (Event V)) (e : Event V)

theorem writesOf_snoc (t : Nat) (slot : TupleSlot) :
    writesOf (h ++ [e]) t slot = writesOf h t slot ++ (e.writeTo t slot).toList := by
  simp only [writesOf, filterMap_append]
  cases hw : e.writeTo t slot <;> simp [hw]

theorem commitsOf_snoc : commitsOf (h ++ [e]) = commitsOf h ++ e.commitOf.toList := by
  simp only [commitsOf, filterMap_append]
  cases hc : e.commitOf <;> simp [hc]

theorem writesOf_snoc_of_none {t : Nat} {slot : TupleSlot} (hnone : e.writeTo t slot = none) :
    writesOf (h ++ [e]) t slot = writesOf h t slot := by
  simp [writesOf_snoc, hnone]

theorem commitsOf_snoc_of_none (hnone : e.commitOf = none) :
    commitsOf (h ++ [e]) = commitsOf h := by
  simp [commitsOf_snoc, hnone]

end Snoc

theorem applyWrites_append (xs ys : List (WriteOp V)) (row : Option (Row V)) :
    applyWrites (xs ++ ys) row = applyWrites ys (applyWrites xs row) := by
  simp [applyWrites, foldl_append]

variable {h : List (Event V)} {slot : TupleSlot}

theorem effectOf_congr {k : List (Event V)} {commits : List (Nat × Nat)}
    (hsame : ∀ c ∈ commits, writesOf h c.1 slot = writesOf k c.1 slot) :
    effectOf h slot commits = effectOf k slot commits := by
  unfold effectOf
  generalize (none : Option (Row V)) = row
  induction commits generalizing row with
  | nil => rfl
  | cons c commits ih =>
    rw [foldl_cons, foldl_cons, hsame c mem_cons_self]
    exact ih (fun d hd => hsame d (mem_cons_of_mem c hd)) _

theorem effectOf_filter (commits : List (Nat × Nat)) (keep : Nat × Nat → Bool)
    (hskip : ∀ c ∈ commits, keep c = false → writesOf h c.1 slot = []) :
    effectOf h slot (commits.filter keep) = effectOf h slot commits := by
  unfold effectOf
  generalize (none : Option (Row V)) = row
  induction commits generalizing row with
  | nil => rfl
  | cons c commits ih =>
    have ih := ih (fun d hd => hskip d (mem_cons_of_mem c hd))
    rw [foldl_cons]
    cases hkeep : keep c with
    | true => rw [filter_cons_of_pos hkeep, foldl_cons, ih]
    | false =>
      rw [filter_cons_of_neg (by simp [hkeep]), ih, hskip c mem_cons_self hkeep]
      rfl

theorem committedBefore_congr {time time' : Nat}
    (hsame : ∀ c ∈ commitsOf h, writesOf h c.1 slot ≠ [] → (c.2 < time ↔ c.2 < time')) :
    committedBefore h time slot = committedBefore h time' slot := by
  have hwriters : ∀ τ, committedBefore h τ slot = effectOf h slot
      ((commitsOf h).filter (fun c => !(writesOf h c.1 slot).isEmpty && decide (c.2 < τ))) := by
    intro τ
    rw [committedBefore, ← List.filter_filter]
    exact (effectOf_filter _ _ (fun c _ hskip => by simpa using hskip)).symm
  rw [hwriters, hwriters]
  congr 1
  refine filter_congr ?_
  intro c hc
  cases hempty : (writesOf h c.1 slot).isEmpty with
  | true => rfl
  | false =>
    have hne : writesOf h c.1 slot ≠ [] := by simpa using hempty
    simp [hsame c hc hne]

/-- Events that neither commit nor write for a committed transaction. -/
theorem committedBefore_snoc_of_none {e : Event V} (hcom : e.commitOf = none)
    (hwr : ∀ t c, (t, c) ∈ commitsOf h → e.writeTo t slot = none) (time : Nat) :
    committedBefore (h ++ [e]) time slot = committedBefore h time slot := by
  unfold committedBefore
  rw [commitsOf_snoc_of_none h e hcom]
  refine effectOf_congr ?_
  rintro ⟨t, c⟩ hc
  exact writesOf_snoc_of_none h e (hwr t c (mem_of_mem_filter hc))

theorem committedBefore_snoc_commit (h : List (Event V)) (t c time : Nat) (slot : TupleSlot) :
    committedBefore (h ++ [.commit t c]) time slot =
      if c < time then applyWrites (writesOf h t slot) (committedBefore h time slot)
      else committedBefore h time slot := by
  have hW : ∀ u, writesOf (h ++ [.commit t c]) u slot = writesOf h u slot :=
    fun u => writesOf_snoc_of_none h _ rfl
  unfold committedBefore
  rw [effectOf_congr (fun x _ => hW x.1), commitsOf_snoc]
  split_ifs with hlt
  · simp [effectOf, Event.commitOf, hlt]
  · simp [effectOf, Event.commitOf, hlt]

end Terrier
