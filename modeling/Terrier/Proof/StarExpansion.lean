import Terrier.Proof.BlockTables

/-!
The columns that a star stands for, whatever the iteration order of the maps, against the order of
the FROM clause.
-/

namespace Terrier.Binder

open List

variable {α β κ τ : Type} {tables : List (TableRef τ)} {context : BinderContext τ}
  {depth : Nat}

namespace TableRef

/-- The items of a derived table as columns; `none` for one that has no name. -/
def items (depth : Nat) : TableRef τ → List (Option (BoundColumn τ))
  | .base _ _ => []
  | .derived tableAlias selectList => selectList.map fun item =>
    item.1.map fun name => ⟨tableAlias, name.toLower, none, item.2, depth⟩

end TableRef

/-- All columns in the order of the FROM clause. -/
def declared (depth : Nat) (tables : List (TableRef τ)) : List (Option (BoundColumn τ)) :=
  tables.flatMap fun table =>
    (table.regular.flatMap (regularColumns depth)).map some ++ table.items depth

def Iterates (context : BinderContext τ) (order : BinderContext τ) : Prop :=
  order.regularTableAliasMap.Perm context.regularTableAliasMap ∧
    ∃ entries, entries.Perm context.nestedTableAliasMap ∧
      Forall₂ (fun entry entry' => entry.1 = entry'.1 ∧ entry.2.Perm entry'.2)
        order.nestedTableAliasMap entries

def filled (f : α → List β) (l : List α) : List α :=
  l.filter fun a => !(f a).isEmpty

def based (column : Option (BoundColumn τ)) : Bool :=
  column.any (·.oids.isSome)

structure InOrder (depth : Nat) (tables : List (TableRef τ)) : Prop where
  bases : (filled (·.2.schema) (tables.flatMap TableRef.regular)).length ≤ 1
  derived : (tables.flatMap (·.items depth)).length ≤ 1
  named : none ∉ tables.flatMap (·.items depth)
  last : (declared depth tables).Pairwise fun column later => based later → based column

theorem flatMap_filled (f : α → List β) (l : List α) : (filled f l).flatMap f = l.flatMap f := by
  induction l with
  | nil => rfl
  | cons a l ih =>
    rw [filled] at ih ⊢
    cases h : f a <;> simp [h, ih]

theorem flatMap_perm {f : α → List β} {l l' : List α} (hperm : l'.Perm l)
    (hone : (filled f l).length ≤ 1) : l'.flatMap f = l.flatMap f := by
  have hfilled : (filled f l').Perm (filled f l) := hperm.filter _
  rw [← flatMap_filled f l, ← flatMap_filled f l']
  generalize filled f l = kept at hone hfilled ⊢
  match kept with
  | [] => rw [hfilled.eq_nil]
  | [a] => rw [hfilled.eq_singleton]
  | a :: b :: rest => simp at hone

/-- Lists that know where they come from can be exchanged only if at most one is not empty. -/
theorem filled_of_reverse {f : α → List β} {l : List α} {key : α → κ} (tag : β → κ)
    (hnodup : (l.map key).Nodup) (htag : ∀ a, ∀ b ∈ f a, tag b = key a)
    (h : l.flatMap f = l.reverse.flatMap f) : (filled f l).length ≤ 1 := by
  have hreverse : filled f l.reverse = (filled f l).reverse := filter_reverse
  rw [← flatMap_filled f l, ← flatMap_filled f l.reverse, hreverse] at h
  have hkeys : ((filled f l).map key).Nodup := hnodup.sublist (filter_sublist.map key)
  have hsome : ∀ a ∈ filled f l, f a ≠ [] := by simp [filled]
  generalize filled f l = kept at h hkeys hsome ⊢
  match kept with
  | [] | [a] => simp
  | first :: second :: rest =>
    obtain ⟨middle, final, heq⟩ := (second :: rest).eq_nil_or_concat.resolve_left (by simp)
    rw [heq] at h hkeys hsome
    obtain ⟨b, _, hb⟩ := exists_cons_of_ne_nil (hsome first (by simp))
    obtain ⟨c, _, hc⟩ := exists_cons_of_ne_nil (hsome final (by simp))
    have hbc : b = c := by simpa [hb, hc] using congrArg head? h
    have hsame : key first = key final := by
      rw [← htag first b (by simp [hb]), ← htag final c (by simp [hc]), hbc]
    simp [hsame] at hkeys

theorem addNestedColumn_nodup (selectList : List (Option String × τ)) {columns : List (String × τ)}
    (h : (columns.map Prod.fst).Nodup) :
    ((selectList.foldl addNestedColumn columns).map Prod.fst).Nodup := by
  induction selectList generalizing columns with
  | nil => exact h
  | cons item rest ih =>
    obtain ⟨_ | name, type⟩ := item
    · exact ih h
    · apply ih
      rw [addNestedColumn, map_cons, nodup_cons]
      exact ⟨by simp, h.sublist (filter_sublist.map _)⟩

theorem Holds.nestedColumns_nodup (h : Holds tables context) :
    ((context.nestedTableAliasMap.flatMap (nestedColumns depth)).map
      fun column => (column.tableName, column.name)).Nodup := by
  rw [map_flatMap, nodup_flatMap]
  constructor
  · intro entry hentry
    rw [h.nested] at hentry
    obtain ⟨_ | ⟨tableAlias, selectList⟩, _, hentry⟩ := mem_flatMap.1 hentry
    · simp [TableRef.nested] at hentry
    · have hnames : ((selectList.foldl addNestedColumn []).map Prod.fst).Nodup :=
        addNestedColumn_nodup selectList nodup_nil
      rw [mem_singleton.1 hentry, nestedColumns, map_map]
      exact Nodup.of_map Prod.snd (by simpa [Function.comp_def] using hnames)
  · refine (pairwise_map.1 h.nested_nodup).imp ?_
    intro entry entry' hne
    rw [Function.onFun, disjoint_left]
    simp only [nestedColumns]
    grind

theorem filter_declared (depth : Nat) (tables : List (TableRef τ)) :
    (declared depth tables).filter based =
      ((tables.flatMap TableRef.regular).flatMap (regularColumns depth)).map some ∧
    (declared depth tables).filter (!based ·) = tables.flatMap (·.items depth) := by
  have hbase (entries : List (String × TableMetadata τ)) :
      ∀ column ∈ (entries.flatMap (regularColumns depth)).map some, based column = true := by
    simp only [mem_map, mem_flatMap, regularColumns]
    rintro _ ⟨_, ⟨_, _, _, _, rfl⟩, rfl⟩
    rfl
  have hitem (table : TableRef τ) : ∀ column ∈ table.items depth, based column = false := by
    cases table with
    | base _ _ => simp [TableRef.items]
    | derived _ _ =>
      rintro _ h
      obtain ⟨⟨_ | _, _⟩, _, rfl⟩ := mem_map.1 h <;> rfl
  induction tables with
  | nil => exact ⟨rfl, rfl⟩
  | cons table rest ih =>
    rw [declared] at ih ⊢
    rw [flatMap_cons, flatMap_cons, flatMap_cons, flatMap_append, map_append, filter_append,
      filter_append, filter_append, filter_append, ih.1, ih.2, filter_eq_self.2 (hbase _),
      filter_eq_nil_iff.2 (by simpa using hitem table), append_nil,
      filter_eq_nil_iff.2 fun column h => by simp [hbase _ column h], nil_append,
      filter_eq_self.2 fun column h => by simp [hitem _ column h]]
    exact ⟨rfl, rfl⟩

/-- A list has its members with `p` in front exactly if no other comes before one of them. -/
theorem eq_filter_append_iff {p : α → Bool} {l : List α} :
    l = l.filter p ++ l.filter (!p ·) ↔ l.Pairwise fun a b => p b → p a := by
  induction l with
  | nil => simp
  | cons a l ih =>
    cases ha : p a with
    | true => simp [ha, ih]
    | false =>
      rw [filter_cons_of_neg (by simp [ha]), filter_cons_of_pos (by simp [ha]), pairwise_cons, ← ih]
      cases hl : l.filter p with
      | nil => simpa [ha] using fun _ => filter_eq_nil_iff.1 hl
      | cons b rest =>
        obtain ⟨hmem, hb⟩ : b ∈ l ∧ p b := mem_filter.1 (hl ▸ mem_cons_self)
        constructor
        · intro heq
          rw [(cons.inj heq).1, hb] at ha
          cases ha
        · intro hall
          rw [hall.1 b hmem hb] at ha
          cases ha

theorem nested_items (hone : (tables.flatMap (·.items depth)).length ≤ 1)
    (hnamed : none ∉ tables.flatMap (·.items depth)) :
    ((tables.flatMap TableRef.nested).flatMap (nestedColumns depth)).map some =
      tables.flatMap (·.items depth) := by
  induction tables with
  | nil => rfl
  | cons table rest ih =>
    simp only [flatMap_cons, length_append, flatMap_append, map_append, mem_append, not_or] at *
    rw [ih (by omega) hnamed.2]
    congr 1
    obtain _ | ⟨_, _ | ⟨⟨_ | _, _⟩, _ | _⟩⟩ := table
    · rfl
    · rfl
    · simp [TableRef.items] at hnamed
    · simp [TableRef.items] at hnamed
    · rfl
    · simp [TableRef.items] at hone
      omega

theorem nestedColumns_perm (depth : Nat) {entries entries' : List (String × List (String × τ))}
    (h : Forall₂ (fun entry entry' => entry.1 = entry'.1 ∧ entry.2.Perm entry'.2) entries
      entries') :
    (entries.flatMap (nestedColumns depth)).Perm (entries'.flatMap (nestedColumns depth)) := by
  induction h with
  | nil => exact .refl _
  | cons hentry _ ih =>
    rw [flatMap_cons, flatMap_cons, nestedColumns, nestedColumns, hentry.1]
    exact (hentry.2.map _).append ih

theorem filter_nested (entries : List (String × List (String × τ))) :
    ((entries.flatMap (nestedColumns depth)).map some).filter (!based ·) =
      (entries.flatMap (nestedColumns depth)).map some := by
  simp only [filter_eq_self, mem_map, mem_flatMap, nestedColumns]
  rintro _ ⟨_, ⟨_, _, _, _, rfl⟩, rfl⟩
  rfl

theorem nestedColumns_reverse (entries : List (String × List (String × τ))) :
    (entries.reverse.map fun entry => (entry.1, entry.2.reverse)).flatMap (nestedColumns depth) =
      (entries.flatMap (nestedColumns depth)).reverse := by
  rw [reverse_flatMap, flatMap_map]
  congr 1
  funext entry
  exact map_reverse

theorem Holds.star_iff (h : Holds tables context) :
    (∀ order, Iterates context order →
      (generateAllColumnExpressions depth order).map some = declared depth tables) ↔
      InOrder depth tables := by
  obtain ⟨hbases, hitems⟩ := filter_declared depth tables
  have hfilled : filled (regularColumns depth) context.regularTableAliasMap =
      filled (·.2.schema) (tables.flatMap TableRef.regular) := by
    simp [filled, regularColumns, h.regular]
  constructor
  · intro hall
    have hid := hall context ⟨.refl _, _, .refl _, forall₂_same.2 fun _ _ => ⟨rfl, .refl _⟩⟩
    have hreverse := hall ⟨context.regularTableAliasMap.reverse,
      context.nestedTableAliasMap.reverse.map fun entry => (entry.1, entry.2.reverse)⟩
      ⟨reverse_perm _, _, reverse_perm _, forall₂_map_left_iff.2 <|
        forall₂_same.2 fun _ _ => ⟨rfl, reverse_perm _⟩⟩
    have heq := map_injective_iff.2 (Option.some_injective _) (hid.trans hreverse.symm)
    obtain ⟨hregular, hnested⟩ := append_inj heq
      (((reverse_perm _).flatMap_right _).length_eq).symm
    have hpalindrome := hnested.trans (nestedColumns_reverse _)
    have hone := filled_of_reverse (f := fun column => [column])
      (fun column => (column.tableName, column.name)) h.nestedColumns_nodup (by simp)
      (by simpa using hpalindrome)
    rw [generateAllColumnExpressions, map_append] at hid
    have hsame := congrArg (filter (!based ·)) hid
    rw [h.regular, ← hbases, filter_append, hitems, filter_nested, filter_filter] at hsame
    simp only [Bool.not_and_self, filter_false, nil_append] at hsame
    constructor
    · rw [← hfilled]
      exact filled_of_reverse (·.tableName) h.regular_nodup (by simp [regularColumns]) hregular
    · rw [← hsame, length_map]
      simpa [filled] using hone
    · simp [← hsame]
    · rw [← eq_filter_append_iff, hbases, hitems, ← hsame, ← h.regular]
      exact hid.symm
  · rintro hin order ⟨hregular, entries, hentries, hcolumns⟩
    have hnested := nested_items hin.derived hin.named
    have hperm := (nestedColumns_perm depth hcolumns).trans (hentries.flatMap_right _)
    rw [generateAllColumnExpressions, map_append, eq_filter_append_iff.2 hin.last, hbases, hitems,
      ← hnested, ← h.regular, ← h.nested, flatMap_perm hregular (hfilled ▸ hin.bases)]
    congr 2
    have hone : (context.nestedTableAliasMap.flatMap (nestedColumns depth)).length ≤ 1 := by
      rw [h.nested, ← length_map some, hnested]
      exact hin.derived
    generalize context.nestedTableAliasMap.flatMap (nestedColumns depth) = columns at hperm hone
    match columns with
    | [] => exact hperm.eq_nil
    | [column] => exact hperm.eq_singleton

theorem star_expansion_iff (depth : Nat) (tables : List (TableRef τ)) :
    (∀ context order, tables.foldlM addTable ⟨[], []⟩ = .ok context → Iterates context order →
      (generateAllColumnExpressions depth order).map some = declared depth tables) ↔
      ∀ context, tables.foldlM addTable ⟨[], []⟩ = .ok context → InOrder depth tables := by
  constructor
  · intro hall context hadd
    exact (holds_of_foldlM hadd).star_iff.1 fun order => hall context order hadd
  · intro hin context order hadd
    exact (holds_of_foldlM hadd).star_iff.2 (hin context hadd) order

/-- `FROM (SELECT …) AS d, b`: the columns of `b` come first. -/
theorem derived_table_last :
    let tables := [.derived "d" [(some "x", 0)], .base "b" ⟨0, 1, [⟨"y", 1, 0⟩]⟩]
    (tables.foldlM addTable ⟨[], []⟩).toOption.map (generateAllColumnExpressions 0) =
        some [⟨"b", "y", some (0, 1, 1), 0, 0⟩, ⟨"d", "x", none, 0, 0⟩] ∧
      declared 0 tables = [some ⟨"d", "x", none, 0, 0⟩, some ⟨"b", "y", some (0, 1, 1), 0, 0⟩] := by
  decide +kernel

end Terrier.Binder
