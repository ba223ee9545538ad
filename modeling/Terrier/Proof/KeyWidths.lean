import Terrier.Index.IndexMetadata

/-!
When the columns of a key have room for what they are declared to hold. The size of an
inlined varlen is narrowed to 16 bits before it is compared with that of an entry.
-/

namespace Terrier.Index

variable {index : BuiltIndex} {schema : IndexSchema} {key : KeyColumn}

theorem metadata_of_buildKey {metadata : IndexMetadata} {keyKind : IndexKeyKind}
    {instances : List Nat} {keySize : Nat}
    (h : buildKey metadata keyKind instances keySize = some index) : index.metadata = metadata := by
  obtain ⟨keyBytes, _, rfl⟩ := Option.map_eq_some_iff.mp h
  rfl

theorem metadata_of_build (h : build schema = some index) : index.metadata = .ofSchema schema := by
  rw [build] at h
  split at h <;> split_ifs at h <;> exact metadata_of_buildKey h

structure KeyColumn.FitsIn (key : KeyColumn) (metadata : IndexMetadata) : Prop where
  room : 4 + key.maxVarlenSize.toNat ≤ key.inlinedSize
  inlined : inlineThreshold < key.maxVarlenSize.toNat → metadata.copiesContent key = true

def KeyColumn.IsNarrow (key : KeyColumn) : Prop := key.maxVarlenSize.toNat + 4 < 2 ^ 16

theorem KeyColumn.inlinedSize_of_isNarrow (hvar : key.type.isVarlen = true) (h : key.IsNarrow) :
    key.inlinedSize = max (key.maxVarlenSize.toNat + 4) 16 := by
  rw [inlinedSize, if_pos hvar, Nat.mod_eq_of_lt h]
  rfl

theorem KeyColumn.inlinedSize_of_not_isNarrow (hvar : key.type.isVarlen = true)
    (h : ¬ key.IsNarrow) : key.inlinedSize = 16 := by
  have hlt := key.maxVarlenSize.toNat_lt
  rw [IsNarrow] at h
  rw [inlinedSize, if_pos hvar, varlenEntrySize]
  omega

theorem KeyColumn.fitsIn_iff (hkey : key ∈ schema.columns) (hvar : key.type.isVarlen = true) :
    key.FitsIn (.ofSchema schema) ↔ key.IsNarrow := by
  constructor
  · intro h
    by_contra hwide
    have hroom := h.room
    rw [inlinedSize_of_not_isNarrow hvar hwide] at hroom
    rw [IsNarrow] at hwide
    omega
  · intro hnarrow
    have hsize := inlinedSize_of_isNarrow hvar hnarrow
    refine ⟨by omega, fun hlong => ?_⟩
    have hmust : computeMustInlineVarlen schema = true :=
      List.any_eq_true.mpr ⟨key, hkey, by simp [hvar, hlong]⟩
    have hlarge : varlenEntrySize < key.inlinedSize := by
      rw [hsize, varlenEntrySize]
      rw [inlineThreshold, varlenEntrySize] at hlong
      omega
    simp [IndexMetadata.copiesContent, IndexMetadata.ofSchema, hmust, hlarge]

/-- Every varlen column of an index fits exactly if no declared maximum is within four bytes
of the largest. -/
theorem keyWidths_fit_iff (schema : IndexSchema) (index : BuiltIndex)
    (hbuilt : build schema = some index) :
    (∀ key ∈ schema.columns, key.type.isVarlen = true → key.FitsIn index.metadata) ↔
      ∀ key ∈ schema.columns, key.type.isVarlen = true → key.maxVarlenSize.toNat + 4 < 2 ^ 16 := by
  rw [metadata_of_build hbuilt]
  apply forall₃_congr
  intro key hkey hvarlen
  exact KeyColumn.fitsIn_iff hkey hvarlen

theorem varchar100_fits : ∃ index, build ⟨[⟨.varchar, 100, true⟩], .bwTree, by simp⟩ = some index ∧
      KeyColumn.FitsIn ⟨.varchar, 100, true⟩ index.metadata := by
  obtain ⟨index, hbuilt⟩ : ∃ index, build ⟨[⟨.varchar, 100, true⟩], .bwTree, by simp⟩ =
      some index := ⟨_, rfl⟩
  refine ⟨index, hbuilt, (keyWidths_fit_iff _ index hbuilt).2 ?_ _ List.mem_cons_self rfl⟩
  intro key hkey _
  rw [List.mem_singleton.mp hkey]
  decide

/-- An index on a column of the largest declared maximum is built, with room for an entry. -/
theorem varchar65535_narrowed :
    ∃ index, build ⟨[⟨.varchar, 65535, true⟩], .bwTree, by simp⟩ = some index ∧
      index.keyBytes = 64 ∧ index.metadata.inlinedAttrSizes = [16] ∧
      ¬ KeyColumn.FitsIn ⟨.varchar, 65535, true⟩ index.metadata := by
  refine ⟨_, rfl, rfl, rfl, fun h => ?_⟩
  have hroom := h.room
  revert hroom
  decide

end Terrier.Index
