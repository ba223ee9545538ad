import Terrier.Binder.BinderContext

/-!
The maps of a context hold the tables of its block, under distinct aliases.
-/

namespace Terrier.Binder

open List

variable {τ : Type} {tables : List (TableRef τ)} {context bound : BinderContext τ}

namespace TableRef

def tableAlias : TableRef τ → String
  | .base tableAlias _ | .derived tableAlias _ => tableAlias

def regular : TableRef τ → List (String × TableMetadata τ)
  | .base tableAlias table => [(tableAlias, table)]
  | .derived _ _ => []

def nested : TableRef τ → List (String × List (String × τ))
  | .base _ _ => []
  | .derived tableAlias selectList => [(tableAlias, selectList.foldl addNestedColumn [])]

end TableRef

structure Holds (tables : List (TableRef τ)) (context : BinderContext τ) : Prop where
  regular : context.regularTableAliasMap = tables.flatMap TableRef.regular
  nested : context.nestedTableAliasMap = tables.flatMap TableRef.nested
  regular_nodup : (context.regularTableAliasMap.map Prod.fst).Nodup
  nested_nodup : (context.nestedTableAliasMap.map Prod.fst).Nodup
  aliases : (tables.map TableRef.tableAlias).Nodup

theorem Holds.aliases_subset (h : Holds tables context) {tableAlias : String}
    (hmem : tableAlias ∈ tables.map TableRef.tableAlias) :
    tableAlias ∈ context.regularTableAliasMap.map Prod.fst ∨
      tableAlias ∈ context.nestedTableAliasMap.map Prod.fst := by
  obtain ⟨table, htable, rfl⟩ := mem_map.1 hmem
  rw [h.regular, h.nested, map_flatMap, map_flatMap, mem_flatMap, mem_flatMap]
  cases table with
  | base tableAlias table => exact .inl ⟨_, htable, mem_singleton_self _⟩
  | derived tableAlias selectList => exact .inr ⟨_, htable, mem_singleton_self _⟩

theorem Holds.aliases_append (h : Holds tables context) {table : TableRef τ}
    (hregular : table.tableAlias ∉ context.regularTableAliasMap.map Prod.fst)
    (hnested : table.tableAlias ∉ context.nestedTableAliasMap.map Prod.fst) :
    ((tables ++ [table]).map TableRef.tableAlias).Nodup := by
  rw [map_append]
  refine h.aliases.append (nodup_singleton _) (disjoint_singleton.2 fun hmem => ?_)
  exact (h.aliases_subset hmem).elim hregular hnested

theorem Holds.addTable {table : TableRef τ} (h : Holds tables context)
    (hadd : addTable context table = .ok bound) : Holds (tables ++ [table]) bound := by
  cases table with
  | base tableAlias table =>
    simp only [Binder.addTable] at hadd
    split_ifs at hadd with hnew
    cases hadd
    rw [mem_append, not_or] at hnew
    refine ⟨by simp [h.regular, TableRef.regular], by simp [h.nested, TableRef.nested], ?_,
      h.nested_nodup, h.aliases_append hnew.2 hnew.1⟩
    rw [map_append]
    exact h.regular_nodup.append (nodup_singleton _) (disjoint_singleton.2 hnew.2)
  | derived tableAlias selectList =>
    simp only [Binder.addTable] at hadd
    split_ifs at hadd with hempty hnew
    cases hadd
    rw [mem_append, not_or] at hnew
    refine ⟨by simp [h.regular, TableRef.regular], by simp [h.nested, TableRef.nested],
      h.regular_nodup, ?_, h.aliases_append hnew.1 hnew.2⟩
    rw [map_append]
    exact h.nested_nodup.append (nodup_singleton _) (disjoint_singleton.2 hnew.2)

theorem Holds.addTables {rest : List (TableRef τ)} (h : Holds tables context)
    (hadd : rest.foldlM Binder.addTable context = .ok bound) : Holds (tables ++ rest) bound := by
  induction rest generalizing tables context with
  | nil =>
    cases hadd
    simpa using h
  | cons table rest ih =>
    rw [foldlM_cons] at hadd
    cases hnext : Binder.addTable context table with
    | error message =>
      rw [hnext] at hadd
      cases hadd
    | ok next =>
      rw [hnext] at hadd
      simpa using ih (h.addTable hnext) hadd

theorem holds_of_foldlM (hadd : tables.foldlM addTable ⟨[], []⟩ = .ok context) :
    Holds tables context := by
  have hstart : Holds [] (⟨[], []⟩ : BinderContext τ) :=
    ⟨rfl, rfl, nodup_nil, nodup_nil, nodup_nil⟩
  exact hstart.addTables hadd

end Terrier.Binder
