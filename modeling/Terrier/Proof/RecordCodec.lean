import Terrier.Log.RecordImage

/-!
What the serializer writes for a record, the reader reads to its end, and it gets the record.
They agree on column sizes because the columns of a row are in descending order of size: a
column's index lies below exactly the boundaries of its own size and smaller ones.
-/

namespace Terrier

open List UInt16 LittleEndian

section Boundaries

/-- Sizes are given by how far 16 is shifted. The boundaries up to the current
one count the columns of their size and larger. -/
structure Counted (shifts : List Nat) (state : Nat × List Nat) : Prop where
  length_eq : state.2.length = numAttrBoundaries
  index_le : state.1 ≤ numAttrBoundaries
  le_index : ∀ s ∈ shifts, s ≤ state.1
  le_length : ∀ boundary ∈ state.2, boundary ≤ shifts.length
  counts : ∀ j < numAttrBoundaries, j ≤ state.1 →
    state.2.getD j 0 = shifts.countP (fun s => decide (s ≤ j))

theorem shift_lt_shift {i s : Nat} (hs : s ≤ numAttrBoundaries) (h : i < s) :
    16 >>> s < 16 >>> i := by
  have hs : s ≤ 4 := hs
  interval_cases s <;> interval_cases i <;> decide

variable {shifts : List Nat}

theorem Counted.next {index : Nat} {boundaries : List Nat} (h : Counted shifts (index, boundaries))
    (hindex : index < numAttrBoundaries) :
    Counted shifts (index + 1, if index < numAttrBoundaries - 1 then
        boundaries.set (index + 1) (boundaries.getD index 0)
      else boundaries) := by
  have hlen : boundaries.length = numAttrBoundaries := h.length_eq
  have hall : ∀ j, index ≤ j → shifts.countP (fun s => decide (s ≤ j)) = shifts.length := by
    intro j hj
    rw [countP_eq_length]
    intro s hs
    have hsi : s ≤ index := h.le_index s hs
    exact decide_eq_true (hsi.trans hj)
  have hcur : boundaries.getD index 0 = shifts.length :=
    (h.counts index hindex le_rfl).trans (hall index le_rfl)
  refine ⟨?_, hindex, fun s hs => Nat.le_succ_of_le (h.le_index s hs), ?_, ?_⟩
  · by_cases hlast : index < numAttrBoundaries - 1
    · simp [hlast, hlen]
    · simp [hlast, hlen]
  · intro boundary hboundary
    split at hboundary
    · rcases mem_or_eq_of_mem_set hboundary with hold | rfl
      · exact h.le_length boundary hold
      · exact hcur.le
    · exact h.le_length boundary hboundary
  · intro j hj hle
    rcases Nat.lt_or_ge index j with hnew | hold
    · obtain rfl : j = index + 1 := by simp only at hle; omega
      have hlast : index < numAttrBoundaries - 1 := by omega
      rw [if_pos hlast, getD_eq_getElem?_getD, getElem?_set_self (by omega),
        Option.getD_some, hcur, hall _ (Nat.le_succ index)]
    · rw [← h.counts j hj hold]
      split
      · rw [getD_eq_getElem?_getD, getElem?_set_ne (by omega), ← getD_eq_getElem?_getD]
      · rfl

variable {state : Nat × List Nat}

theorem Counted.advance {s : Nat} (hs : s ≤ numAttrBoundaries) {fuel : Nat}
    (h : Counted shifts state) (hindex : state.1 ≤ s) (hfuel : s - state.1 < fuel) :
    (advanceBoundary (16 >>> s) fuel state).1 = s ∧
      Counted shifts (advanceBoundary (16 >>> s) fuel state) := by
  induction fuel generalizing state with
  | zero => omega
  | succ fuel ih =>
    obtain ⟨index, boundaries⟩ := state
    rcases Nat.lt_or_ge index s with hlt | hge
    · rw [advanceBoundary, if_pos (shift_lt_shift hs hlt)]
      exact ih (h.next (by omega)) hlt (by simp only; omega)
    · obtain rfl : index = s := by omega
      rw [advanceBoundary, if_neg (Nat.lt_irrefl _)]
      exact ⟨rfl, h⟩

theorem Counted.addColumn {s : Nat} (hs : s ≤ numAttrBoundaries) (h : Counted shifts state)
    (hindex : state.1 ≤ s) :
    (addColumn state (16 >>> s)).1 = s ∧ Counted (shifts ++ [s]) (addColumn state (16 >>> s)) := by
  have hfuel : s - state.1 < 5 := by
    have : s ≤ 4 := hs
    omega
  obtain ⟨hreached, hcount⟩ := h.advance hs hindex hfuel
  unfold Terrier.addColumn
  rcases hstate : advanceBoundary (16 >>> s) 5 state with ⟨index, boundaries⟩
  rw [hstate] at hreached hcount
  obtain rfl : index = s := hreached
  have hlen : boundaries.length = numAttrBoundaries := hcount.length_eq
  refine ⟨rfl, ?_, hs, ?_, ?_, ?_⟩
  · by_cases hin : index < numAttrBoundaries
    · simp [hin, hlen]
    · simp [hin, hlen]
  · exact forall_mem_append.mpr ⟨hcount.le_index, forall_mem_singleton.mpr le_rfl⟩
  · intro boundary hboundary
    rw [length_append, length_singleton]
    simp only at hboundary
    split at hboundary
    case isTrue hin =>
      rcases mem_or_eq_of_mem_set hboundary with hold | rfl
      · exact Nat.le_succ_of_le (hcount.le_length boundary hold)
      · rw [hcount.counts index hin le_rfl]
        exact Nat.succ_le_succ countP_le_length
    case isFalse => exact Nat.le_succ_of_le (hcount.le_length boundary hboundary)
  · intro j hj hle
    have hcounts := hcount.counts j hj hle
    simp only at hle hcounts ⊢
    rw [countP_append, ← hcounts]
    rcases Nat.lt_or_ge j index with hlt | hge
    · have hother : ¬ index ≤ j := by omega
      split
      · rw [getD_eq_getElem?_getD, getElem?_set_ne (by omega), ← getD_eq_getElem?_getD]
        simp [hother]
      · simp [hother]
    · obtain rfl : j = index := by omega
      rw [if_pos hj, getD_eq_getElem?_getD, getElem?_set_self (by omega)]
      simp

theorem counted_foldl (hs : ∀ s ∈ shifts, s ≤ numAttrBoundaries) (hsort : shifts.Pairwise (· ≤ ·))
    (hstate : (shifts.map (16 >>> ·)).foldl addColumn (0, [0, 0, 0, 0]) = state) :
    (state.1 = 0 ∨ state.1 ∈ shifts) ∧ Counted shifts state := by
  induction shifts using List.reverseRecOn generalizing state with
  | nil =>
    subst hstate
    refine ⟨.inl rfl, rfl, by decide, by simp, by decide, fun j hj _ => ?_⟩
    have hj : j < 4 := hj
    interval_cases j <;> rfl
  | append_singleton shifts s ih =>
    subst hstate
    obtain ⟨hfront, -, hlast⟩ := pairwise_append.mp hsort
    obtain ⟨hindex, hcount⟩ := ih (fun other hother => hs other (by simp [hother])) hfront rfl
    have hle : ((shifts.map (16 >>> ·)).foldl addColumn (0, [0, 0, 0, 0])).1 ≤ s := by
      rcases hindex with hzero | hmem
      · omega
      · exact hlast _ hmem s (by simp)
    obtain ⟨hreached, hcount⟩ := hcount.addColumn (hs s (by simp)) hle
    rw [map_append, foldl_append]
    exact ⟨.inr (by simp [hreached]), hcount⟩

/-- The boundaries of columns in descending order give each its size back. -/
theorem attrSizeFromBoundaries_shift {before after : List Nat} {s : Nat}
    (hs : ∀ k ∈ before ++ s :: after, k ≤ numAttrBoundaries)
    (hsort : (before ++ s :: after).Pairwise (· ≤ ·)) :
    attrSizeFromBoundaries
      (computeAttributeSizeBoundaries ((before ++ s :: after).map (16 >>> ·))) before.length =
        16 >>> s := by
  obtain ⟨-, hcount⟩ := counted_foldl hs hsort rfl
  unfold computeAttributeSizeBoundaries attrSizeFromBoundaries
  generalize ((before ++ s :: after).map (16 >>> ·)).foldl addColumn (0, [0, 0, 0, 0]) = state
    at hcount
  have hsindex : s ≤ state.1 := hcount.le_index s (by simp)
  obtain ⟨-, hrest, hbef⟩ := pairwise_append.mp hsort
  have hafter := (pairwise_cons.mp hrest).1
  have hbelow : ∀ j < s, j < numAttrBoundaries → state.2.getD j 0 ≤ before.length := by
    intro j hjs hj
    have hnone : after.countP (fun k => decide (k ≤ j)) = 0 := by
      rw [countP_eq_zero]
      intro k hk
      have := hafter k hk
      simp only [decide_eq_true_eq]
      omega
    rw [hcount.counts j hj (by omega), countP_append, countP_cons_of_neg (by simp; omega), hnone]
    exact countP_le_length
  have hown : s < numAttrBoundaries → before.length < state.2.getD s 0 := by
    intro hlt
    have hall : before.countP (fun k => decide (k ≤ s)) = before.length := by
      rw [countP_eq_length]
      exact fun k hk => decide_eq_true (hbef k hk s (by simp))
    rw [hcount.counts s hlt hsindex, countP_append, hall, countP_cons_of_pos (by simp)]
    omega
  have hlen : state.2.length = 4 := hcount.length_eq
  have hbound : s ≤ 4 := hs s (by simp)
  congr 1
  rcases Nat.lt_or_ge s 4 with hlt | hge
  · rw [findIdx_eq (by omega)]
    have hget : ∀ j (hj : j < state.2.length), state.2[j] = state.2.getD j 0 := by
      intro j hj
      simp [getD_eq_getElem?_getD, hj]
    refine ⟨by rw [hget]; simpa using hown hlt, fun j hj => ?_⟩
    rw [hget]
    simpa using hbelow j hj (by show j < 4; omega)
  · obtain rfl : s = 4 := by omega
    rw [← hlen, findIdx_eq_length]
    intro boundary hboundary
    obtain ⟨j, hj, rfl⟩ := getElem_of_mem hboundary
    have := hbelow j (by omega) (by show j < 4; omega)
    simpa [getD_eq_getElem?_getD, hj] using this

end Boundaries

namespace BlockLayout

theorem attrSizes_getD (layout : BlockLayout) {col : Nat} (hresv : numReservedColumns ≤ col) :
    layout.attrSizes.getD col 0 = layout.userSizes.getD (col - 1) 0 := by
  obtain ⟨k, rfl⟩ : ∃ k, col = k + 1 := ⟨col - 1, by simp [numReservedColumns] at hresv; omega⟩
  simp [attrSizes]

theorem getD_mem_valid (layout : BlockLayout) {col : Nat} (hresv : numReservedColumns ≤ col)
    (hcol : col < layout.numColumns) :
    layout.attrSizes.getD col 0 ∈ [1, 2, 4, 8, varlenColumn] := by
  have hlt : col - 1 < layout.userSizes.length := by
    simp [numColumns, attrSizes, numReservedColumns] at hresv hcol
    omega
  rw [attrSizes_getD layout hresv, getD_eq_getElem?_getD, getElem?_eq_getElem hlt]
  exact layout.valid _ (getElem_mem hlt)

def shift (layout : BlockLayout) (col : Nat) : Nat :=
  4 - Nat.log2 (layout.attrSize col)

variable (layout : BlockLayout)

theorem attrSize_eq_shift {col : Nat} (hresv : numReservedColumns ≤ col)
    (hcol : col < layout.numColumns) :
    layout.attrSize col = 16 >>> layout.shift col ∧ layout.shift col ≤ numAttrBoundaries := by
  have hmem := layout.getD_mem_valid hresv hcol
  unfold shift attrSize
  generalize layout.attrSizes.getD col 0 = size at hmem
  fin_cases hmem <;> decide

theorem isVarlen_iff {col : Nat} (hresv : numReservedColumns ≤ col)
    (hcol : col < layout.numColumns) :
    layout.isVarlen col = true ↔ layout.attrSize col = attrSizeBytes varlenColumn := by
  have hmem := layout.getD_mem_valid hresv hcol
  unfold isVarlen attrSize
  generalize layout.attrSizes.getD col 0 = size at hmem
  fin_cases hmem <;> decide

theorem shift_mono {first second : Nat} (hresv : numReservedColumns ≤ first)
    (hlt : first < second) (hcol : second < layout.numColumns) :
    layout.shift first ≤ layout.shift second := by
  have hresv' : numReservedColumns ≤ second := hresv.trans hlt.le
  have hge : layout.attrSizes.getD second 0 ≤ layout.attrSizes.getD first 0 := by
    have hsnd : second - 1 < layout.userSizes.length := by
      simp [numColumns, attrSizes, numReservedColumns] at hresv hcol
      omega
    have horder : first - 1 < second - 1 := by
      simp [numReservedColumns] at hresv
      omega
    have hsort := pairwise_iff_getElem.mp layout.sorted (first - 1) (second - 1)
      (by omega) hsnd horder
    rw [attrSizes_getD layout hresv, attrSizes_getD layout hresv',
      getD_eq_getElem?_getD, getD_eq_getElem?_getD,
      getElem?_eq_getElem hsnd, getElem?_eq_getElem (by omega)]
    exact hsort
  have hfirst := layout.getD_mem_valid hresv (hlt.trans hcol)
  have hsnd := layout.getD_mem_valid hresv' hcol
  unfold shift attrSize
  generalize layout.attrSizes.getD first 0 = a at hfirst hge
  generalize layout.attrSizes.getD second 0 = b at hsnd hge
  revert hge
  fin_cases hfirst <;> fin_cases hsnd <;> decide

end BlockLayout

namespace Delta

variable {layout : BlockLayout} {delta : Delta}

section

variable (h : delta.Over layout)
include h

theorem Over.sizes_eq : delta.colIds.map (fun id => layout.attrSize id.toNat) =
      (delta.colIds.map fun id => layout.shift id.toNat).map (16 >>> ·) := by
  rw [List.map_map]
  refine map_congr_left fun id hid => ?_
  obtain ⟨hresv, hcol⟩ := h.inRange id hid
  exact (layout.attrSize_eq_shift hresv hcol).1

theorem Over.shifts_le :
    ∀ s ∈ delta.colIds.map (fun id => layout.shift id.toNat), s ≤ numAttrBoundaries := by
  rw [forall_mem_map]
  intro id hid
  obtain ⟨hresv, hcol⟩ := h.inRange id hid
  exact (layout.attrSize_eq_shift hresv hcol).2

theorem Over.shifts_sorted :
    (delta.colIds.map fun id => layout.shift id.toNat).Pairwise (· ≤ ·) := by
  rw [pairwise_map]
  refine h.ascending.imp_of_mem fun hfirst hsnd hlt => ?_
  exact layout.shift_mono (h.inRange _ hfirst).1 (lt_iff_toNat_lt.mp hlt) (h.inRange _ hsnd).2

theorem Over.attrSizeFromBoundaries_eq {i : Nat} {id : UInt16} (hid : delta.colIds[i]? = some id) :
    attrSizeFromBoundaries (computeAttributeSizeBoundaries
      (delta.colIds.map fun id => layout.attrSize id.toNat)) i = layout.attrSize id.toNat := by
  obtain ⟨hlt, rfl⟩ := List.getElem?_eq_some_iff.mp hid
  have hsplit : delta.colIds =
      delta.colIds.take i ++ delta.colIds[i] :: delta.colIds.drop (i + 1) := by
    rw [getElem_cons_drop, take_append_drop]
  have hmap : delta.colIds.map (fun id => layout.shift id.toNat) =
      (delta.colIds.take i).map (fun id => layout.shift id.toNat) ++
        layout.shift delta.colIds[i].toNat ::
          (delta.colIds.drop (i + 1)).map (fun id => layout.shift id.toNat) := by
    conv_lhs => rw [hsplit, map_append, map_cons]
  obtain ⟨hresv, hcol⟩ := h.inRange _ (getElem_mem hlt)
  have hkey := attrSizeFromBoundaries_shift (hmap ▸ h.shifts_le) (hmap ▸ h.shifts_sorted)
  rw [h.sizes_eq, (layout.attrSize_eq_shift hresv hcol).1, hmap]
  simpa [Nat.min_eq_left hlt.le] using hkey

theorem Over.recomputed_sizes :
    (List.range delta.columns.length).map (attrSizeFromBoundaries (computeAttributeSizeBoundaries
      (delta.colIds.map fun id => layout.attrSize id.toNat))) =
    delta.colIds.map fun id => layout.attrSize id.toNat := by
  refine ext_getElem (by simp [colIds]) fun i hi hi' => ?_
  rw [length_map] at hi'
  simpa using h.attrSizeFromBoundaries_eq (getElem?_eq_getElem hi')

theorem Over.length_le : delta.columns.length ≤ maxCol := by
  have hnodup : (delta.colIds.map toNat).Nodup := by
    rw [List.Nodup, pairwise_map]
    exact h.ascending.imp fun hlt heq => (lt_iff_toNat_lt.mp hlt).ne heq
  have hsubset : delta.colIds.map toNat ⊆ List.range layout.numColumns :=
    forall_mem_map.mpr fun id hid => mem_range.mpr (h.inRange id hid).2
  have hle := (hnodup.subperm hsubset).length_le
  have hbnd := layout.bounded
  simp only [colIds, length_map, length_range, BlockLayout.numColumns,
    BlockLayout.attrSizes, length_cons] at hle
  exact hle.trans hbnd

theorem Over.boundaries {boundaries : List Nat} (heq : computeAttributeSizeBoundaries
      (delta.colIds.map fun id => layout.attrSize id.toNat) = boundaries) :
    boundaries.length = numAttrBoundaries ∧ ∀ n ∈ boundaries, n < 256 ^ 2 := by
  rw [h.sizes_eq] at heq
  subst heq
  obtain ⟨-, hcount⟩ := counted_foldl h.shifts_le h.shifts_sorted rfl
  refine ⟨hcount.length_eq, fun n hn => ?_⟩
  have hle := hcount.le_length n hn
  have hmax : delta.columns.length ≤ 12500 := h.length_le
  simp only [colIds, length_map] at hle
  omega

end

end Delta

namespace LogReader

open ByteReader

theorem readValue_reads_decode (size n : Nat) : Reads (readValue size) (LittleEndian.encode size n)
      (LittleEndian.decode (LittleEndian.encode size n)) :=
  (Reads.bytes (length_encode size n)).bind_pure decode

theorem readValue_reads {size n : Nat} (h : n < 256 ^ size) :
    Reads (readValue size) (LittleEndian.encode size n) n := by
  have hread := readValue_reads_decode size n
  rwa [decode_encode h] at hread

theorem readValues_reads {size : Nat} {values : List Nat} (h : ∀ n ∈ values, n < 256 ^ size) :
    Reads (readValues size values.length) (values.flatMap (LittleEndian.encode size)) values := by
  induction values with
  | nil => exact .pure []
  | cons n values ih =>
    rw [forall_mem_cons] at h
    exact (readValue_reads h.1).bind ((ih h.2).bind_pure (n :: ·))

theorem readVarlen_reads {content : List UInt8} (h : content.length < 2 ^ 31) :
    Reads (readAttr (attrSizeBytes varlenColumn)) (LittleEndian.encode 4 content.length ++ content)
      (if content.length ≤ inlineThreshold then .inlined content else .external content) := by
  have hlen : content.length < 256 ^ 4 := by omega
  refine (readValue_reads hlen).bind ?_
  rw [← append_nil content]
  refine (Reads.bytes (by simp)).bind ?_
  rw [append_nil]
  split
  · exact .pure _
  · exact .pure _

variable {layout : BlockLayout}

theorem readAttr_reads {id : UInt16} {value : AttrValue} (hresv : numReservedColumns ≤ id.toNat)
    (hcol : id.toNat < layout.numColumns) (h : layout.Stores id.toNat value) :
    Reads (readAttr (layout.attrSize id.toNat))
      (serializeAttr layout (id, some value)).flatten value := by
  have hvar := layout.isVarlen_iff hresv hcol
  cases value with
  | fixed bytes =>
    obtain ⟨hfixed, hlen⟩ := h
    have hsize : layout.attrSize id.toNat ≠ attrSizeBytes varlenColumn := by
      rw [Ne, ← hvar, hfixed]
      exact Bool.false_ne_true
    have htake : bytes.take (layout.attrSize id.toNat) = bytes :=
      take_of_length_le hlen.le
    rw [readAttr, if_neg hsize]
    simp only [serializeAttr, hfixed, AttrValue.content, htake, flatten_cons,
      flatten_nil, append_nil, Bool.false_eq_true, if_false]
    exact (Reads.bytes hlen).bind_pure AttrValue.fixed
  | inlined bytes =>
    obtain ⟨hentry, hlen⟩ := h
    have hbound : bytes.length < 2 ^ 31 := hlen.trans_lt (by decide)
    have hread := readVarlen_reads hbound
    rw [if_pos hlen, ← hvar.mp hentry] at hread
    simpa [serializeAttr, hentry, AttrValue.content] using hread
  | external content =>
    obtain ⟨hentry, hlong, hbound⟩ := h
    have hread := readVarlen_reads hbound
    rw [if_neg (by omega), ← hvar.mp hentry] at hread
    simpa [serializeAttr, hentry, AttrValue.content] using hread

theorem readColumns_reads {bitmap : List UInt8} {attrSizeOf : Nat → Nat}
    {columns : List (UInt16 × Option AttrValue)} {i : Nat}
    (hbits : ∀ j column, columns[j]? = some column →
      LittleEndian.testBit bitmap (i + j) = column.2.isSome)
    (hsizes : ∀ j column, columns[j]? = some column →
      attrSizeOf (i + j) = layout.attrSize column.1.toNat)
    (hrange : ∀ column ∈ columns,
      numReservedColumns ≤ column.1.toNat ∧ column.1.toNat < layout.numColumns)
    (hstored : ∀ column ∈ columns, ∀ value, column.2 = some value →
      layout.Stores column.1.toNat value) :
    Reads (readColumns bitmap attrSizeOf i (columns.map Prod.fst))
      (columns.flatMap (serializeAttr layout)).flatten columns := by
  induction columns generalizing i with
  | nil => exact .pure []
  | cons column columns ih =>
    have hrest := ih (i := i + 1)
      (fun j c hc => by rw [Nat.add_right_comm]; exact hbits (j + 1) c hc)
      (fun j c hc => by rw [Nat.add_right_comm]; exact hsizes (j + 1) c hc)
      (fun c hc => hrange c (mem_cons_of_mem _ hc))
      (fun c hc => hstored c (mem_cons_of_mem _ hc))
    have hbit : testBit bitmap i = column.2.isSome := hbits 0 column rfl
    have hsize : attrSizeOf i = layout.attrSize column.1.toNat := hsizes 0 column rfl
    obtain ⟨hresv, hcol⟩ := hrange column mem_cons_self
    obtain ⟨id, value⟩ := column
    rw [map_cons, readColumns, flatMap_cons, flatten_append]
    refine Reads.bind (a := value) ?_ ?_
    · cases value with
      | none =>
        rw [readColumn, hbit]
        exact .pure none
      | some value =>
        rw [readColumn, hbit, hsize]
        exact (readAttr_reads hresv hcol (hstored _ mem_cons_self value rfl)).bind_pure some
    · exact hrest.bind_pure ((id, value) :: ·)

theorem readDelta_reads {delta : Delta} (h : delta.Over layout) :
    Reads readDelta (serializeDelta layout delta).flatten delta := by
  have hmax : delta.columns.length ≤ 12500 := h.length_le
  have hboundaries := h.boundaries rfl
  have hsizes := h.recomputed_sizes
  rw [serializeDelta]
  generalize computeAttributeSizeBoundaries
    (delta.colIds.map fun id => layout.attrSize id.toNat) = boundaries at hboundaries hsizes
  have hids : ∀ n ∈ delta.colIds.map toNat, n < 256 ^ 2 :=
    forall_mem_map.mpr fun id _ => id.toNat_lt
  refine (readValue_reads (by omega)).bind ?_
  rw [if_neg (by simp [maxCol]; omega)]
  refine Reads.bind (a := delta.colIds.map toNat) ?_ ?_
  · have hread := readValues_reads hids
    rw [flatMap_map] at hread
    simpa [Delta.colIds] using hread
  refine Reads.bind (a := boundaries) ?_ ?_
  · have hread := readValues_reads hboundaries.2
    rwa [hboundaries.1] at hread
  refine (Reads.bytes (by simp [sizeInBytes, Delta.notNull])).bind ?_
  have hofNat : (delta.colIds.map toNat).map ofNat = delta.columns.map Prod.fst := by
    simp [Delta.colIds, Function.comp_def]
  have hdelta : delta = ⟨projectedRowSize (delta.colIds.map fun id => layout.attrSize id.toNat),
      delta.columns⟩ := by
    rw [← h.size_eq]
  rw [hofNat, hsizes, hdelta]
  refine (readColumns_reads (i := 0) ?_ ?_ ?_ h.stored).bind_pure (Delta.mk _)
  · intro j column hcolumn
    obtain ⟨hj, rfl⟩ := List.getElem?_eq_some_iff.mp hcolumn
    rw [Nat.zero_add, testBit_packBits _ (by simpa [Delta.notNull] using hj)]
    simp [Delta.notNull, getD_eq_getElem?_getD, hj]
  · intro j column hcolumn
    simp [Delta.colIds, getD_eq_getElem?_getD, hcolumn]
  · intro column hcolumn
    exact h.inRange column.1 (List.mem_map_of_mem hcolumn)

theorem ofByte_toByte (type : LogRecordType) :
    LogRecordType.ofByte (UInt8.ofNat type.toByte.toNat) = some type := by
  cases type <;> decide

theorem encode_toByte (b : UInt8) : [b] = LittleEndian.encode 1 b.toNat := by
  simp [encode]

theorem readNextRecord_reads {layoutOf : UInt64 → BlockLayout} (record : StagedRecord layoutOf) :
    Reads readNextRecord record.bytes record.image := by
  obtain ⟨⟨size, txnBegin, body⟩, hover, hsize⟩ := record
  have h64 : ∀ n : UInt64, n.toNat < 256 ^ 8 := fun n => n.toNat_lt
  have h32 : ∀ n : UInt32, n.toNat < 256 ^ 4 := fun n => n.toNat_lt
  have hbyte : body.recordType.toByte.toNat < 256 ^ 1 := body.recordType.toByte.toNat_lt
  obtain rfl : size = body.memorySize := hsize
  simp only [StagedRecord.bytes, serializeRecord, encode_toByte, flatten_append,
    flatten_cons, flatten_nil, append_nil, append_assoc]
  refine (readValue_reads_decode 4 _).bind ((readValue_reads hbyte).bind
    ((readValue_reads (h64 txnBegin)).bind ?_))
  rw [ofByte_toByte]
  have hvalue : (⟨body.memorySize, txnBegin, body⟩ : RecordImage) =
      .initializeRecord (.ofNat txnBegin.toNat) body := by
    rw [UInt64.ofNat_toNat]
    rfl
  rw [hvalue]
  cases body with
  | redo dbOid tableOid slot delta =>
    refine (readValue_reads (h32 dbOid)).bind ?_
    refine (readValue_reads (h32 tableOid)).bind ?_
    refine (readValue_reads (h64 slot)).bind ?_
    simp only [UInt32.ofNat_toNat, UInt64.ofNat_toNat]
    exact (readDelta_reads hover).bind_pure
      fun delta => RecordImage.initializeRecord txnBegin (.redo dbOid tableOid slot delta)
  | delete dbOid tableOid slot =>
    refine (readValue_reads (h32 dbOid)).bind ?_
    refine (readValue_reads (h32 tableOid)).bind ?_
    have hread := (readValue_reads (h64 slot)).bind_pure fun slot =>
      RecordImage.initializeRecord txnBegin (.delete dbOid tableOid (.ofNat slot))
    simpa using hread
  | commit txnCommit oldestActiveTxn =>
    refine (readValue_reads (h64 txnCommit)).bind ?_
    have hread := (readValue_reads (h64 oldestActiveTxn)).bind_pure fun oldest =>
      RecordImage.initializeRecord txnBegin (.commit txnCommit (.ofNat oldest))
    simpa using hread
  | abort => exact .pure _

end LogReader

end Terrier
