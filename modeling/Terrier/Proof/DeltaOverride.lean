import Terrier.Storage.StorageUtil

/-!
A delta overrides the columns of a row that it has, and leaves the others alone; of a chain
of deltas the last one with a column decides. This needs sizes that eight bits can hold.
-/

namespace Terrier.StorageUtil

open List Overwrite

variable {attrSize : ColId → Nat} {delta buffer : AttrRow} {deltas : List AttrRow}

def Ascending (row : AttrRow) : Prop := (row.map Prod.fst).Pairwise (· < ·)

def Attr.SameValue (size : Nat) (attr other : Attr) : Prop :=
  attr.notNull = other.notNull ∧ (other.notNull = true → ∀ i < size, attr.bytes i = other.bytes i)

/-- Columns that `source` has get its value or NULL, and the others keep memory and bit. -/
def Overrides (attrSize : ColId → Nat) (source : ColId → Option Attr) (before after : AttrRow) :
    Prop :=
  Forall₂ (fun old new => new.1 = old.1 ∧ match source old.1 with
    | none => new.2 = old.2
    | some attr => new.2.SameValue (attrSize old.1) attr) before after

/-- The attribute of a column in the last of the deltas that have the column. -/
def oldest (deltas : List AttrRow) (c : ColId) : Option Attr :=
  deltas.reverse.findSome? fun delta => ofList delta c

def overridden (attrSize : ColId → Nat) (delta : AttrRow) (e : ColId × Attr) : ColId × Attr :=
  (e.1, match ofList delta e.1 with
    | none => e.2
    | some attr => copyWithNullCheck attr e.2 (attrSize e.1 % 2 ^ 8))

theorem overridden_of_not_mem {e : ColId × Attr} (h : e.1 ∉ delta.map Prod.fst) :
    overridden attrSize delta e = e := by
  rw [overridden, (ofList_eq_none_iff delta e.1).2 h]

theorem overridden_cons_of_ne {d e : ColId × Attr} (h : d.1 ≠ e.1) :
    overridden attrSize (d :: delta) e = overridden attrSize delta e := by
  rw [overridden, overridden, ofList_cons, if_neg h]

theorem applyDelta_eq_map (hdelta : Ascending delta) (hbuffer : Ascending buffer) :
    applyDelta attrSize delta buffer = buffer.map (overridden attrSize delta) := by
  rw [Ascending] at hdelta hbuffer
  fun_induction applyDelta attrSize delta buffer with
  | case1 buffer =>
    rw [map_congr_left fun e _ => overridden_of_not_mem not_mem_nil, map_id']
  | case2 => rfl
  | case3 d v delta w buffer ih =>
    simp only [map_cons, pairwise_cons] at hdelta hbuffer
    rw [ih hdelta.2 hbuffer.2, map_cons]
    congr 1
    · simp [overridden, ofList_cons]
    · apply map_congr_left
      intro e he
      exact (overridden_cons_of_ne (hbuffer.1 e.1 (mem_map_of_mem he)).ne).symm
  | case4 d v delta b w buffer hne hlt ih =>
    have hbelow : b ∉ ((d, v) :: delta).map Prod.fst := by
      intro hmem
      rcases mem_cons.mp hmem with rfl | hmem
      · exact hne rfl
      · exact Nat.lt_asymm hlt ((pairwise_cons.mp hdelta).1 b hmem)
    rw [ih hdelta (pairwise_cons.mp hbuffer).2, map_cons, overridden_of_not_mem hbelow]
  | case5 d v delta b w buffer hne hlt ih =>
    rw [ih (pairwise_cons.mp hdelta).2 hbuffer]
    apply map_congr_left
    intro e he
    have hd : d < b := Nat.lt_of_le_of_ne (Nat.le_of_not_lt hlt) hne
    have hde : d < e.1 := by
      rcases mem_cons.mp he with rfl | he
      · exact hd
      · exact hd.trans ((pairwise_cons.mp hbuffer).1 e.1 (mem_map_of_mem he))
    exact (overridden_cons_of_ne hde.ne).symm

theorem applyDeltas_eq_map (hdeltas : ∀ delta ∈ deltas, Ascending delta)
    (hbuffer : Ascending buffer) : applyDeltas attrSize deltas buffer =
      buffer.map fun e => deltas.foldl (fun e delta => overridden attrSize delta e) e := by
  induction deltas generalizing buffer with
  | nil => exact (map_id' buffer).symm
  | cons delta deltas ih =>
    have hnext : Ascending (buffer.map (overridden attrSize delta)) := by
      rwa [Ascending, map_map]
    rw [applyDeltas, foldl_cons, applyDelta_eq_map (hdeltas delta mem_cons_self) hbuffer]
    rw [← applyDeltas, ih (fun d hd => hdeltas d (mem_cons_of_mem _ hd)) hnext, map_map]
    rfl

theorem copyWithNullCheck_sameValue (source target : Attr) (size : Nat) :
    (copyWithNullCheck source target size).SameValue size source := by
  cases hbit : source.notNull with
  | false => simp [copyWithNullCheck, Attr.SameValue, hbit]
  | true => simp +contextual [copyWithNullCheck, Attr.SameValue, hbit]

theorem applyDeltas_overrides (hsizes : ∀ c, attrSize c < 2 ^ 8)
    (hdeltas : ∀ delta ∈ deltas, Ascending delta) (hbuffer : Ascending buffer) :
    Overrides attrSize (oldest deltas) buffer (applyDeltas attrSize deltas buffer) := by
  rw [applyDeltas_eq_map hdeltas hbuffer, Overrides, forall₂_map_right_iff, forall₂_same]
  intro e _
  clear hdeltas
  induction deltas using reverseRecOn with
  | nil => exact ⟨rfl, rfl⟩
  | append_singleton deltas delta ih =>
    obtain ⟨hkey, hold⟩ := ih
    rw [foldl_append, foldl_cons, foldl_nil, overridden, hkey]
    refine ⟨rfl, ?_⟩
    rw [oldest, reverse_append, reverse_singleton, singleton_append, findSome?_cons]
    cases hattr : ofList delta e.1 with
    | none => exact hold
    | some attr =>
      simp only [Nat.mod_eq_of_lt (hsizes e.1)]
      exact copyWithNullCheck_sameValue _ _ _

/-- Of a column that is too wide, the last bytes are not copied. -/
theorem not_overrides_of_wide {c : ColId} (hwide : 2 ^ 8 ≤ attrSize c) :
    ∃ delta buffer, Ascending delta ∧ Ascending buffer ∧
      ¬ Overrides attrSize (ofList delta) buffer (applyDelta attrSize delta buffer) := by
  have hrow : ∀ attr, Ascending [(c, attr)] := fun _ => pairwise_singleton _ _
  refine ⟨[(c, ⟨fun _ => 1, true⟩)], [(c, ⟨fun _ => 0, true⟩)], hrow _, hrow _, fun h => ?_⟩
  rw [applyDelta_eq_map (hrow _) (hrow _), map_singleton] at h
  obtain ⟨⟨-, hvalue⟩, -⟩ := forall₂_cons.mp h
  simp only [overridden, ofList_cons, if_true] at hvalue
  have hbyte := hvalue.2 rfl (attrSize c % 2 ^ 8) (by omega)
  simp [copyWithNullCheck] at hbyte

/-- Deltas override the rows of a layout exactly if the sizes of its columns fit a byte. -/
theorem applyDelta_overrides_iff (attrSize : ColId → Nat) :
    ((∀ delta buffer, Ascending delta → Ascending buffer →
        Overrides attrSize (ofList delta) buffer (applyDelta attrSize delta buffer)) ∧
      ∀ deltas buffer, (∀ delta ∈ deltas, Ascending delta) → Ascending buffer →
        Overrides attrSize (oldest deltas) buffer (applyDeltas attrSize deltas buffer)) ↔
      ∀ c, attrSize c < 2 ^ 8 := by
  constructor
  · rintro ⟨hone, -⟩ c
    by_contra hwide
    obtain ⟨delta, buffer, hdelta, hbuffer, hnot⟩ := not_overrides_of_wide (Nat.le_of_not_lt hwide)
    exact hnot (hone delta buffer hdelta hbuffer)
  · intro hsizes
    refine ⟨fun delta buffer hdelta hbuffer => ?_,
      fun _ _ hdeltas hbuffer => applyDeltas_overrides hsizes hdeltas hbuffer⟩
    have hsingle : oldest [delta] = ofList delta := by
      funext c
      cases h : ofList delta c <;> simp [oldest, h]
    rw [← hsingle]
    exact applyDeltas_overrides hsizes (by simpa using hdelta) hbuffer

/-- A delta for a column of 256 bytes. -/
theorem wide_column_kept : ∃ delta buffer, Ascending delta ∧ Ascending buffer ∧
    ¬ Overrides (fun _ => 256) (ofList delta) buffer (applyDelta (fun _ => 256) delta buffer) :=
  not_overrides_of_wide (c := 1) (Nat.le_refl 256)

end Terrier.StorageUtil
