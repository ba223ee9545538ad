import Terrier.Lib.Overwrite

/-!
Partial row images. A projected row lists column ids with a value or NULL each, sorted as
`ProjectedRowInitializer::Create` sorts them and without the version pointer column. `V` is the
content of one attribute and `none` is the cleared bit of the NULL bitmap.
-/

namespace Terrier

open List Option Overwrite

abbrev ColId := Nat

def versionPointerColumnId : ColId := 0

/-- The column list of a `ProjectedRow`: strictly increasing, so without
repeats, and never the version pointer column. -/
structure ProjectionList where
  columnIds : List ColId
  sorted : columnIds.Pairwise (· < ·)
  noVersionPointer : ∀ c ∈ columnIds, versionPointerColumnId < c

/-- A `ProjectedRow` with its values. The two fields carry what
`ProjectedRowInitializer` establishes for every row it initializes. -/
structure ProjectedRow (V : Type) where
  entries : List (ColId × Option V)
  sorted : (entries.map Prod.fst).Pairwise (· < ·)
  noVersionPointer : ∀ c ∈ entries.map Prod.fst, versionPointerColumnId < c

namespace ProjectedRow

variable {V : Type}

def columnIds (row : ProjectedRow V) : List ColId :=
  row.entries.map Prod.fst

def overwrite (row : ProjectedRow V) : ColId → Option (Option V) :=
  Overwrite.ofList row.entries

def projectionList (row : ProjectedRow V) : ProjectionList where
  columnIds := row.columnIds
  sorted := row.sorted
  noVersionPointer := row.noVersionPointer

theorem columnIds_nodup (row : ProjectedRow V) : row.columnIds.Nodup :=
  row.sorted.imp (fun h => Nat.ne_of_lt h)

theorem overwrite_eq_none_iff (row : ProjectedRow V) (c : ColId) :
    row.overwrite c = none ↔ c ∉ row.columnIds :=
  ofList_eq_none_iff row.entries c

/-- `CopyProjectedRowLayout` with the values of `attrs`: the row over a given
column list whose entries are copied out of a tuple. -/
def ofColumns (cols : ProjectionList) (attrs : ColId → Option V) : ProjectedRow V where
  entries := cols.columnIds.map (fun c => (c, attrs c))
  sorted := by simpa [List.map_map, Function.comp_def] using cols.sorted
  noVersionPointer := by
    simpa [List.map_map, Function.comp_def] using cols.noVersionPointer

@[simp] theorem ofColumns_entries (cols : ProjectionList) (attrs : ColId → Option V) :
    (ofColumns cols attrs).entries = cols.columnIds.map (fun c => (c, attrs c)) :=
  rfl

/-- A row read out of a tuple assigns to each of its columns the value the
tuple has there. -/
theorem ofColumns_overwrite (cols : ProjectionList) (attrs : ColId → Option V) (c : ColId) :
    (ofColumns cols attrs).overwrite c = if c ∈ cols.columnIds then some (attrs c) else none := by
  simp only [overwrite, ofColumns_entries]
  induction cols.columnIds with
  | nil => simp
  | cons b bs ih =>
    rw [map_cons, ofList_cons, ih]
    by_cases hb : b = c
    · simp [hb]
    · simp [hb, Ne.symm hb]

/-- `StorageUtil::CopyAttrFromProjection` over all entries: store the values
of a row in a tuple, one attribute after another. -/
def storeAttrs (entries : List (ColId × Option V)) (attrs : ColId → Option V) : ColId → Option V :=
  entries.foldl (fun g e => Function.update g e.1 e.2) attrs

theorem storeAttrs_eq_apply (row : ProjectedRow V) (attrs : ColId → Option V) :
    storeAttrs row.entries attrs = Overwrite.apply row.overwrite attrs :=
  foldl_update_eq_apply row.entries row.columnIds_nodup attrs

/-- `StorageUtil::CopyAttrIntoProjection` over all entries: read the columns
of the buffer out of a tuple. -/
def loadAttrs (attrs : ColId → Option V) (buffer : List (ColId × Option V)) :
    List (ColId × Option V) :=
  buffer.map (fun e => (e.1, attrs e.1))

/-- `StorageUtil::ApplyDelta`, the merge of two column lists. `dropWhile` is the branch that
advances the delta because it is behind; the recursion is on the buffer. -/
def applyDelta : List (ColId × Option V) → List (ColId × Option V) → List (ColId × Option V)
  | _, [] => []
  | delta, (b, w) :: buffer =>
    match delta.dropWhile (fun e => decide (e.1 < b)) with
    | [] => (b, w) :: applyDelta [] buffer
    | (d, v) :: rest =>
      if d = b then (b, v) :: applyDelta rest buffer
      else (b, w) :: applyDelta ((d, v) :: rest) buffer

theorem applyDelta_nil (buffer : List (ColId × Option V)) : applyDelta [] buffer = buffer := by
  induction buffer with
  | nil => rfl
  | cons e buffer ih => simp [applyDelta, ih]

/-- Entries below the smallest column of the buffer do not matter for it. -/
private theorem ofList_dropWhile_lt (delta : List (ColId × Option V)) (b c : ColId) (hc : b ≤ c) :
    Overwrite.ofList (delta.dropWhile (fun e => decide (e.1 < b))) c =
      Overwrite.ofList delta c := by
  induction delta with
  | nil => rfl
  | cons e delta ih =>
    by_cases he : e.1 < b
    · have hne : e.1 ≠ c := (lt_of_lt_of_le he hc).ne
      rw [dropWhile_cons_of_pos (by simpa using he), ih, ofList_cons, if_neg hne]
    · rw [dropWhile_cons_of_neg (by simpa using he)]

/-- On sorted column lists the merge is a column-wise overwrite of the
buffer: a column of the delta replaces the buffer's, the others stay. -/
theorem applyDelta_eq_map (delta buffer : List (ColId × Option V))
    (hdelta : (delta.map Prod.fst).Pairwise (· < ·))
    (hbuf : (buffer.map Prod.fst).Pairwise (· < ·)) :
    applyDelta delta buffer =
      buffer.map (fun e => (e.1, (Overwrite.ofList delta e.1).getD e.2)) := by
  induction buffer generalizing delta with
  | nil => rfl
  | cons e buffer ih =>
    obtain ⟨b, w⟩ := e
    simp only [map_cons, pairwise_cons] at hbuf
    obtain ⟨hbelow, hsort⟩ := hbuf
    set kept := delta.dropWhile (fun e => decide (e.1 < b)) with hkept
    have hkeptSorted : (kept.map Prod.fst).Pairwise (· < ·) :=
      hdelta.sublist ((dropWhile_sublist _).map Prod.fst)
    have hbval : ofList kept b = ofList delta b :=
      ofList_dropWhile_lt delta b b (le_refl b)
    have hrest : buffer.map (fun e => (e.1, (ofList kept e.1).getD e.2)) =
        buffer.map (fun e => (e.1, (ofList delta e.1).getD e.2)) := by
      apply map_congr_left
      intro e he
      have hlt := hbelow e.1 (List.mem_map_of_mem he)
      rw [ofList_dropWhile_lt delta b e.1 (Nat.le_of_lt hlt)]
    simp only [applyDelta, map_cons, ← hkept]
    cases hk : kept with
    | nil =>
      rw [hk] at hbval hrest
      simp only [← hbval, ← hrest, ofList_nil, getD_none, Prod.mk.eta, List.map_id', applyDelta_nil]
    | cons d rest =>
      rw [hk] at hbval hrest hkeptSorted
      simp only [map_cons, pairwise_cons] at hkeptSorted
      by_cases hd : d.1 = b
      · have htail : buffer.map (fun e => (e.1, (ofList rest e.1).getD e.2)) =
            buffer.map (fun e => (e.1, (ofList (d :: rest) e.1).getD e.2)) := by
          apply map_congr_left
          intro e he
          have hlt := hbelow e.1 (List.mem_map_of_mem he)
          rw [ofList_cons, if_neg (hd.trans_lt hlt).ne]
        rw [ofList_cons, if_pos hd] at hbval
        simp only [hd, if_true, ← hbval, getD_some]
        rw [ih rest hkeptSorted.2 hsort, htail, hrest]
      · have hbnone : ofList (d :: rest) b = none := by
          have hge : ¬ d.1 < b := by
            have hhead := head?_dropWhile_not (fun e : ColId × Option V =>
              decide (e.1 < b)) delta
            rw [← hkept, hk] at hhead
            simpa using hhead
          rw [ofList_eq_none_iff]
          intro hmem
          rcases mem_cons.mp hmem with heq | htail
          · exact hd heq.symm
          · exact hge (hkeptSorted.1 b htail)
        rw [hbnone] at hbval
        simp only [hd, if_false, ← hbval, getD_none]
        rw [ih (d :: rest) (by simpa using hkeptSorted) hsort, hrest]

/-- Reading a tuple and then applying a delta to the buffer gives the same as
overwriting the tuple with the delta and reading that. -/
theorem applyDelta_loadAttrs (delta : ProjectedRow V) (buffer : List (ColId × Option V))
    (hbuf : (buffer.map Prod.fst).Pairwise (· < ·)) (attrs : ColId → Option V) :
    applyDelta delta.entries (loadAttrs attrs buffer) =
      loadAttrs (Overwrite.apply delta.overwrite attrs) buffer := by
  have hloaded : ((loadAttrs attrs buffer).map Prod.fst).Pairwise (· < ·) := by
    simpa [loadAttrs, List.map_map, Function.comp_def] using hbuf
  rw [applyDelta_eq_map delta.entries _ delta.sorted hloaded]
  simp [loadAttrs, List.map_map, Function.comp_def, apply, overwrite]

end ProjectedRow

end Terrier
