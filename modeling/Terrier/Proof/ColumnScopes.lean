import Terrier.Proof.BlockTables
import Terrier.Lib.Fallible

/-!
To what a column reference is bound, against the innermost block that has a candidate. Names are
compared as they are given. The binder takes the lower case of the names in a reference, and looks
for a base table in all blocks before it looks for a derived one.
-/

namespace Terrier.Binder

open List

variable {τ : Type} {tableName name : String} {tables : List (TableRef τ)}
  {context : BinderContext τ} {depth : Nat}

namespace TableRef

/-- The column of a table under this name. -/
def column (depth : Nat) (name : String) : TableRef τ → Option (BoundColumn τ)
  | .base tableAlias table => columnInSchema tableAlias name depth table
  | .derived tableAlias selectList =>
    (selectList.find? (·.1 = some name)).map fun item => ⟨tableAlias, name, none, item.2, depth⟩

/-- The columns of a derived table have distinct names in lower case. -/
def LowerNames : TableRef τ → Prop
  | .base _ _ => True
  | .derived _ selectList => (selectList.filterMap Prod.fst).Nodup ∧
    ∀ name ∈ selectList.filterMap Prod.fst, name.toLower = name

instance : (table : TableRef τ) → Decidable table.LowerNames
  | .base _ _ => inferInstanceAs (Decidable True)
  | .derived _ _ => inferInstanceAs (Decidable (_ ∧ _))

def metadata? : TableRef τ → Option (TableMetadata τ)
  | .base _ table => some table
  | .derived _ _ => none

def columns? : TableRef τ → Option (List (String × τ))
  | .base _ _ => none
  | .derived _ selectList => some (selectList.foldl addNestedColumn [])

end TableRef

def ofAlias (tableAlias : String) (tables : List (TableRef τ)) : Option (TableRef τ) :=
  tables.find? (·.tableAlias = tableAlias)

/-- What a reference may mean in a block: the column of each table that has it, or with an alias
the column of the table of that alias, which may lack it. -/
def candidates (tableName name : String) (depth : Nat) (tables : List (TableRef τ)) :
    List (Option (BoundColumn τ)) :=
  if tableName = "" then (tables.filterMap (·.column depth name)).map some
  else ((ofAlias tableName tables).map (·.column depth name)).toList

/-- The meaning of a reference: the one candidate of the innermost block that has any. -/
def resolved (tableName name : String) : List (List (TableRef τ)) → Option (BoundColumn τ)
  | [] => none
  | tables :: upper =>
    match candidates tableName name upper.length tables with
    | [] => resolved tableName name upper
    | [bound] => bound
    | _ => none

/-- Where the innermost block that has the alias has it as a derived table, and a block further out
as a base table, neither table has the column. -/
def Unshadowed (tableAlias name : String) : List (List (TableRef τ)) → Prop
  | [] => True
  | tables :: upper =>
    match ofAlias tableAlias tables with
    | none => Unshadowed tableAlias name upper
    | some (.base _ _) => True
    | some (.derived inner selectList) =>
      ∀ table ∈ upper.findSome? fun tables => (ofAlias tableAlias tables).bind TableRef.metadata?,
        (TableRef.derived inner selectList).column 0 name = none ∧
          (TableRef.base tableAlias table).column 0 name = none

section Lookups

theorem lookup_cons_of_ne {α : Type} {entry : String × α} (entries : List (String × α))
    (hne : entry.1 ≠ name) : (entry :: entries).lookup name = entries.lookup name := by
  rw [lookup_cons, beq_false_of_ne hne.symm]

theorem lookup_filter_ne {columns : List (String × τ)} {other : String} (hne : other ≠ name) :
    (columns.filter (·.1 ≠ other)).lookup name = columns.lookup name := by
  induction columns with
  | nil => rfl
  | cons column columns ih =>
    by_cases hcolumn : column.1 = other
    · subst hcolumn
      rw [filter_cons_of_neg (by simp), ih, lookup_cons_of_ne _ hne]
    · rw [filter_cons_of_pos (by simpa using hcolumn), lookup_cons, lookup_cons, ih]

theorem lookup_addNestedColumn {selectList : List (Option String × τ)}
    (hnodup : (selectList.filterMap Prod.fst).Nodup)
    (hlower : ∀ name ∈ selectList.filterMap Prod.fst, name.toLower = name)
    (columns : List (String × τ)) :
    (selectList.foldl addNestedColumn columns).lookup name =
      ((selectList.find? (·.1 = some name)).map Prod.snd).or (columns.lookup name) := by
  induction selectList generalizing columns with
  | nil => rfl
  | cons item selectList ih =>
    obtain ⟨_ | other, type⟩ := item
    · rw [find?_cons_of_neg (by simp)]
      exact ih hnodup hlower columns
    · have hcons : ((some other, type) :: selectList).filterMap Prod.fst =
          other :: selectList.filterMap Prod.fst := rfl
      rw [hcons, nodup_cons] at hnodup
      rw [hcons, forall_mem_cons] at hlower
      rw [foldl_cons, ih hnodup.2 hlower.2, addNestedColumn, hlower.1]
      by_cases hname : other = name
      · subst hname
        have hnone : selectList.find? (·.1 = some other) = none := by
          refine find?_eq_none.2 fun item hitem heq => hnodup.1 ?_
          exact mem_filterMap.2 ⟨item, hitem, of_decide_eq_true heq⟩
        rw [hnone, find?_cons_of_pos (by simp), lookup_cons_self]
        rfl
      · rw [find?_cons_of_neg (by simpa using hname), lookup_cons_of_ne _ hname,
          lookup_filter_ne hname]

theorem nestedColumn_eq {tableAlias : String} {selectList : List (Option String × τ)}
    (h : (TableRef.derived tableAlias selectList).LowerNames) :
    nestedColumn tableAlias name depth (selectList.foldl addNestedColumn []) =
      (TableRef.derived tableAlias selectList).column depth name := by
  rw [nestedColumn, lookup_addNestedColumn h.1 h.2, lookup_nil, Option.or_none, Option.map_map]
  rfl

theorem lookup_maps (h : Holds tables context) (tableAlias : String) :
    context.regularTableAliasMap.lookup tableAlias =
        (ofAlias tableAlias tables).bind TableRef.metadata? ∧
      context.nestedTableAliasMap.lookup tableAlias =
        (ofAlias tableAlias tables).bind TableRef.columns? := by
  obtain ⟨hregular, hnested, -, -, hnodup⟩ := h
  rw [hregular, hnested]
  clear hregular hnested
  induction tables with
  | nil => exact ⟨rfl, rfl⟩
  | cons table tables ih =>
    rw [map_cons, nodup_cons] at hnodup
    obtain ⟨ihregular, ihnested⟩ := ih hnodup.2
    rw [flatMap_cons, flatMap_cons]
    by_cases hthis : table.tableAlias = tableAlias
    · have hnone : ofAlias tableAlias tables = none := by
        refine find?_eq_none.2 fun other hother heq => hnodup.1 ?_
        rw [hthis]
        exact mem_map.2 ⟨other, hother, of_decide_eq_true heq⟩
      rw [hnone] at ihregular ihnested
      rw [ofAlias, find?_cons_of_pos (by simpa using hthis)]
      cases table with
      | base inner table =>
        obtain rfl : inner = tableAlias := hthis
        exact ⟨lookup_cons_self, ihnested⟩
      | derived inner selectList =>
        obtain rfl : inner = tableAlias := hthis
        exact ⟨ihregular, lookup_cons_self⟩
    · rw [ofAlias, find?_cons_of_neg (by simpa using hthis)]
      cases table with
      | base inner table =>
        refine ⟨?_, ihnested⟩
        rw [TableRef.regular, singleton_append, lookup_cons_of_ne _ hthis]
        exact ihregular
      | derived inner selectList =>
        refine ⟨ihregular, ?_⟩
        rw [TableRef.nested, singleton_append, lookup_cons_of_ne _ hthis]
        exact ihnested

/-- The tables of a block that have a column, those of the maps in their order. -/
theorem found_perm (name : String) (depth : Nat) (h : Holds tables context)
    (hlower : ∀ table ∈ tables, table.LowerNames) :
    ((context.regularTableAliasMap.filterMap fun entry =>
          columnInSchema entry.1 name depth entry.2) ++
        context.nestedTableAliasMap.filterMap fun entry =>
          nestedColumn entry.1 name depth entry.2).Perm
      (tables.filterMap (·.column depth name)) := by
  obtain ⟨hregular, hnested, -, -, -⟩ := h
  rw [hregular, hnested]
  clear hregular hnested
  induction tables with
  | nil => exact .nil
  | cons table tables ih =>
    have ih := ih fun other hother => hlower other (mem_cons_of_mem _ hother)
    rw [flatMap_cons, flatMap_cons, filterMap_append, filterMap_append]
    have hcons {α : Type} (f : α → Option (BoundColumn τ)) (a : α) (l : List α) :
        (a :: l).filterMap f = (f a).toList ++ l.filterMap f := by
      rw [filterMap_cons]
      cases f a <;> rfl
    rw [hcons]
    cases table with
    | base inner table =>
      rw [TableRef.regular, TableRef.nested, hcons, append_assoc, append_assoc]
      exact ih.append_left _
    | derived inner selectList =>
      rw [TableRef.regular, TableRef.nested, hcons, append_assoc,
        nestedColumn_eq (hlower _ mem_cons_self)]
      simp only [filterMap_nil, nil_append, append_nil]
      exact (perm_append_comm_assoc _ _ _).trans (ih.append_left _)

end Lookups

variable {blocks : List (List (TableRef τ))} {contexts : List (BinderContext τ)}

theorem setColumnPosTuple_toOption (h : Forall₂ Holds blocks contexts)
    (hlower : ∀ tables ∈ blocks, ∀ table ∈ tables, table.LowerNames) :
    (setColumnPosTuple name contexts).toOption.join = resolved "" name blocks := by
  induction h with
  | nil => rfl
  | @cons tables context blocks contexts hfirst hrest ih =>
    rw [forall_mem_cons] at hlower
    have hperm := found_perm name contexts.length hfirst hlower.1
    rw [setColumnPosTuple, resolved, candidates, if_pos rfl, hrest.length_eq]
    generalize tables.filterMap _ = meant at hperm ⊢
    generalize context.regularTableAliasMap.filterMap _ ++
      context.nestedTableAliasMap.filterMap _ = found at hperm ⊢
    match meant, hperm with
    | [], hperm =>
      rw [hperm.eq_nil]
      exact ih hlower.2
    | [bound], hperm =>
      rw [hperm.eq_singleton]
      rfl
    | first :: second :: rest, hperm =>
      match found, hperm.length_eq with
      | _ :: _ :: _, _ => rfl

/-- A qualified reference as the visit binds it, without the messages. -/
theorem visitColumnValue_qualified (qualified : tableName ≠ "")
    (htable : tableName.toLower = tableName) (hname : name.toLower = name) :
    (visitColumnValue contexts tableName name).toOption =
      match getRegularTableObj tableName contexts with
      | some (table, depth) => columnInSchema tableName name depth table
      | none => (checkNestedTableColumn tableName name contexts).toOption.join := by
  simp only [visitColumnValue, htable, hname, if_neg qualified]
  cases getRegularTableObj tableName contexts with
  | some found =>
    cases h : columnInSchema tableName name found.2 found.1 <;> simp [h] <;> rfl
  | none =>
    cases h : checkNestedTableColumn tableName name contexts with
    | error message => rfl
    | ok found => cases found <;> rfl

theorem getRegularTableObj_fst (tableAlias : String) (h : Forall₂ Holds blocks contexts) :
    (getRegularTableObj tableAlias contexts).map Prod.fst =
      blocks.findSome? fun tables => (ofAlias tableAlias tables).bind TableRef.metadata? := by
  induction h with
  | nil => rfl
  | cons hfirst _ ih =>
    rw [getRegularTableObj, findSome?_cons, (lookup_maps hfirst tableAlias).1]
    cases (ofAlias tableAlias _).bind TableRef.metadata? with
    | some table => rfl
    | none => exact ih

theorem qualified_iff (qualified : tableName ≠ "") (h : Forall₂ Holds blocks contexts)
    (hlower : ∀ tables ∈ blocks, ∀ table ∈ tables, table.LowerNames) :
    (match getRegularTableObj tableName contexts with
        | some (table, depth) => columnInSchema tableName name depth table
        | none => (checkNestedTableColumn tableName name contexts).toOption.join) =
        resolved tableName name blocks ↔ Unshadowed tableName name blocks := by
  induction h with
  | nil => simp [getRegularTableObj, checkNestedTableColumn, resolved, Unshadowed]; rfl
  | @cons tables context upper contexts hfirst hrest ih =>
    rw [forall_mem_cons] at hlower
    rw [getRegularTableObj, checkNestedTableColumn, resolved, candidates, if_neg qualified,
      Unshadowed, (lookup_maps hfirst tableName).1, (lookup_maps hfirst tableName).2,
      hrest.length_eq]
    cases hfound : ofAlias tableName tables with
    | none => simpa using ih hlower.2
    | some table =>
      have hmatch := find?_some hfound
      have hmem := mem_of_find?_eq_some hfound
      cases table with
      | base inner table =>
        obtain rfl : inner = tableName := of_decide_eq_true hmatch
        simp [TableRef.metadata?, TableRef.column]
      | derived inner selectList =>
        obtain rfl : inner = tableName := of_decide_eq_true hmatch
        rw [← getRegularTableObj_fst inner hrest]
        simp only [TableRef.metadata?, TableRef.columns?, Option.bind_some, Option.map_some,
          Option.toList, nestedColumn_eq (hlower.1 _ hmem)]
        cases getRegularTableObj inner contexts with
        | none =>
          cases TableRef.column contexts.length name (.derived inner selectList) <;> simp <;> rfl
        | some found =>
          cases h : selectList.find? (·.1 = some name) <;>
            cases k : found.1.schema.find? (·.name = name) <;>
            simp [TableRef.column, columnInSchema, h, k, -find?_eq_none]

end Terrier.Binder
