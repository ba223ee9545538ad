import Terrier.Compiler.InsertTranslator
import Terrier.Lib.Fallible

/-!
What an `INSERT ... VALUES` stores. The values of a row go to the first columns
of the schema, cut to their widths, and the columns behind them are NULL; the
column list and the defaults have no part in it.
-/

namespace Terrier.Compiler

open Network (ColumnType Value)
open Sql
open List Option

variable {conversions : Conversions}

def denotes (conversions : Conversions) : Literal → Option Value → Bool
  | .integer n, some (.integer val) => val.toInt = n
  | .integer n, some (.real bits) => conversions.exact bits n
  | .decimal bits, some (.real bits') => bits = bits'
  | .string content, some (.string content') => content = content'
  | .string content, some (.date val) => conversions.parseDate content = some val
  | .string content, some (.timestamp val) => conversions.parseTimestamp content = some val
  | .null, none => true
  | _, _ => false

def listed (schema : Schema) (columns : List String) : List String :=
  if columns = [] then schema.columns.map Column.name else columns

structure RowStored (conversions : Conversions) (schema : Schema) (names : List String)
    (row : List Literal) (tuple : Tuple) : Prop where
  length : tuple.length = schema.columns.length
  given : ∀ (j : Nat) (column : Column) (cell : Option Value),
    schema.columns[j]? = some column → tuple[j]? = some cell →
    ∀ i : Nat, names[i]? = some column.name →
      ∃ literal, row[i]? = some literal ∧ denotes conversions literal cell = true
  omitted : ∀ (j : Nat) (column : Column) (cell : Option Value),
    schema.columns[j]? = some column → tuple[j]? = some cell →
    column.name ∉ names → cell = column.default.getD none

def Stored (conversions : Conversions) (schema : Schema) (stmt : InsertStatement)
    (tuples : List Tuple) : Prop :=
  List.Forall₂ (RowStored conversions schema (listed schema stmt.columns)) stmt.values tuples

/-- The bits of an integer that a column keeps. -/
def width : ColumnType → Option Nat
  | .tinyint => some 8
  | .smallint => some 16
  | .integer => some 32
  | .bigint => some 64
  | _ => none

/-- A constant as a value of a column. -/
def kept (conversions : Conversions) (type : ColumnType) : Literal → Option Value
  | .integer n =>
    match width type with
    | some w => some (.integer (Int64.ofInt (n.bmod (2 ^ w))))
    | none => if type = .decimal then some (.real (conversions.toDouble n)) else none
  | .decimal bits => if type = .decimal then some (.real bits) else none
  | .string content =>
    match type with
    | .varchar => some (.string content)
    | .date => (conversions.parseDate content).map .date
    | .timestamp => (conversions.parseTimestamp content).map .timestamp
    | _ => none
  | .null => none

/-- A column with the second constant in it shows the first. -/
def agrees (conversions : Conversions) (type : ColumnType) : Literal → Literal → Bool
  | .integer given, .integer taken =>
    match width type with
    | some w => given = taken.bmod (2 ^ w)
    | none => type = .decimal && conversions.exact (conversions.toDouble taken) given
  | .integer given, .decimal taken => type = .decimal && conversions.exact taken given
  | .decimal given, .integer taken => type = .decimal && given = conversions.toDouble taken
  | .decimal given, .decimal taken => type = .decimal && given = taken
  | .string given, .string taken =>
    match type with
    | .varchar => given = taken
    | .date => (conversions.parseDate taken).any (conversions.parseDate given = some ·)
    | .timestamp =>
      (conversions.parseTimestamp taken).any (conversions.parseTimestamp given = some ·)
    | _ => false
  | _, _ => false

def cells (conversions : Conversions) : List Column → List Literal → Tuple
  | columns, [] => columns.map fun _ => none
  | [], _ :: _ => []
  | column :: columns, literal :: row =>
    kept conversions column.type literal :: cells conversions columns row

variable {n : Int} {unparsed : String} {f : List UInt8 → Option Value} {content : List UInt8}
  {column : Column} {values : List Constant} {rows : List (List Constant)}

theorem toInt_ofInt (h : n.natAbs < 2 ^ 31) : (Int64.ofInt n).toInt = n := by
  apply Int64.toInt_ofInt_of_le <;> omega

theorem toInt64_toInt32_ofInt (h : n.natAbs < 2 ^ 31) :
    (Int64.ofInt n).toInt32.toInt64 = Int64.ofInt n := by
  rw [← Int64.toInt_inj, Int32.toInt_toInt64, Int64.toInt_toInt32, toInt_ofInt h]
  apply Int.bmod_eq_of_le <;> omega

theorem toInt_bmod (type : ColumnType) {w : Nat} (h : width type = some w) :
    (Int64.ofInt (n.bmod (2 ^ w))).toInt = n.bmod (2 ^ w) := by
  cases type <;> cases h
  all_goals
    apply Int64.toInt_ofInt_of_le
    · exact Int.le_trans (by decide) (Int.le_bmod (by decide))
    · exact Int.lt_of_lt_of_le (Int.bmod_lt (by decide)) (by decide)

theorem kept_eq (type : ColumnType) {w : Nat} {val : Int64} (hwidth : width type = some w)
    (h : val.toInt = n.bmod (2 ^ w)) :
    kept conversions type (.integer n) = some (.integer val) := by
  rw [← toInt_bmod type hwidth, Int64.toInt_inj] at h
  simp only [kept, hwidth, h]

def StoredAs (conversions : Conversions) (type : ColumnType) (literal : Literal) (c : Constant) :
    Prop :=
  ∃ value, c.value = some value ∧
    some (prSet type (initValue value)) = kept conversions type literal

variable {type : ColumnType} {c : Constant}

theorem storedAs_integer (hn : n.natAbs < 2 ^ 31)
    (h : bindValue conversions type ⟨some .integer, some (.integer (Int64.ofInt n))⟩ = .ok c) :
    StoredAs conversions type (.integer n) c := by
  cases type with
  | boolean | varchar | date | timestamp => cases h
  | tinyint =>
    cases h
    exact ⟨_, rfl, (kept_eq .tinyint rfl (by simp)).symm⟩
  | smallint =>
    cases h
    exact ⟨_, rfl, (kept_eq .smallint rfl (by simp)).symm⟩
  | integer =>
    cases h
    exact ⟨_, rfl, (kept_eq .integer rfl (by simp)).symm⟩
  | bigint =>
    cases h
    refine ⟨_, rfl, (kept_eq .bigint rfl ?_).symm⟩
    rw [toInt64_toInt32_ofInt hn, toInt_ofInt hn]
    apply (Int.bmod_eq_of_le _ _).symm <;> omega
  | decimal =>
    cases h
    refine ⟨_, rfl, ?_⟩
    dsimp only
    rw [toInt_ofInt hn]
    rfl

theorem storedAs_decimal {bits : UInt64}
    (h : bindValue conversions type ⟨some .decimal, some (.real bits)⟩ = .ok c) :
    type = .decimal ∧ c.value = some (.real bits) := by
  cases type with
  | decimal =>
    cases h
    exact ⟨rfl, rfl⟩
  | boolean | tinyint | smallint | integer | bigint | varchar | date | timestamp => cases h

variable {message : String}

theorem convertText_ok
    (h : convertText message unparsed type f ⟨some .varchar, some (.string content)⟩ = .ok c) :
    ∃ value, f content = some value ∧ c = ⟨some type, some value⟩ := by
  dsimp only [convertText] at h
  cases hf : f content with
  | none =>
    rw [hf] at h
    cases h
  | some value =>
    rw [hf] at h
    cases h
    exact ⟨value, rfl, rfl⟩

theorem storedAs_text
    (h : bindValue conversions type ⟨some .varchar, some (.string content)⟩ = .ok c) :
    StoredAs conversions type (.string content) c := by
  cases type with
  | boolean | tinyint | smallint | integer | bigint | decimal => cases h
  | varchar =>
    cases h
    exact ⟨_, rfl, rfl⟩
  | date | timestamp =>
    rw [bindValue, if_neg (by simp), convert] at h
    obtain ⟨value, hvalue, rfl⟩ := convertText_ok h
    obtain ⟨val, hparse, rfl⟩ := map_eq_some_iff.1 hvalue
    exact ⟨_, rfl, by rw [kept, hparse]; rfl⟩

/-- Binding and storing a constant keep of it what fits into the column. NULL cannot be bound. -/
theorem storedAs_bindValue {literal : Literal}
    (h : bindValue conversions type (valueTransform conversions literal) = .ok c) :
    StoredAs conversions type literal c := by
  cases literal with
  | integer n =>
    by_cases hn : n.natAbs < 2 ^ 31
    · rw [valueTransform, if_pos hn] at h
      exact storedAs_integer hn h
    · rw [valueTransform, if_neg hn] at h
      obtain ⟨rfl, hvalue⟩ := storedAs_decimal h
      exact ⟨_, hvalue, rfl⟩
  | decimal bits =>
    obtain ⟨rfl, hvalue⟩ := storedAs_decimal h
    exact ⟨_, hvalue, rfl⟩
  | string content => exact storedAs_text h
  | null => cases type <;> cases h

theorem denotes_kept {given taken : Literal} (hgiven : given ≠ .null) :
    denotes conversions given (kept conversions type taken) =
      agrees conversions type given taken := by
  cases taken with
  | integer taken =>
    cases given with
    | null => exact absurd rfl hgiven
    | integer given =>
      cases hwidth : width type with
      | some w =>
        simp only [kept, agrees, hwidth]
        exact decide_eq_decide.2 (by rw [toInt_bmod type hwidth, eq_comm])
      | none => cases type <;> first | rfl | cases hwidth
    | decimal | string => cases type <;> rfl
  | string taken =>
    cases type with
    | date =>
      cases given <;> simp only [kept, agrees] <;> cases conversions.parseDate taken <;>
        first | rfl | exact absurd rfl hgiven
    | timestamp =>
      cases given <;> simp only [kept, agrees] <;> cases conversions.parseTimestamp taken <;>
        first | rfl | exact absurd rfl hgiven
    | _ => cases given <;> first | rfl | exact absurd rfl hgiven
  | decimal | null => cases given <;> cases type <;> first | rfl | exact absurd rfl hgiven

variable {columns : List Column} {bound : List Constant}

theorem bindValues_cons (h : bindValues conversions (column :: columns) (c :: values) = .ok bound) :
    ∃ c' rest, bindValue conversions column.type c = .ok c' ∧
      bindValues conversions columns values = .ok rest ∧ bound = c' :: rest := by
  obtain ⟨c', hc', h⟩ := Fallible.bind_eq_ok h
  obtain ⟨rest, hrest, h⟩ := Fallible.bind_eq_ok h
  cases h
  exact ⟨c', rest, hc', hrest, rfl⟩

variable {row : List Literal}

structure Bound (conversions : Conversions) (columns : List Column) (row : List Literal) :
    Prop where
  length_le : row.length ≤ columns.length
  isSome_kept : ∀ (j : Nat) (column : Column) (literal : Literal), columns[j]? = some column →
    row[j]? = some literal → (kept conversions column.type literal).isSome = true

theorem genSetTablePR_bound
    (h : bindValues conversions columns (row.map (valueTransform conversions)) = .ok bound) :
    Bound conversions columns row ∧
      genSetTablePR columns bound = .ok (cells conversions columns row) := by
  induction row generalizing columns bound with
  | nil =>
    have hnil : Bound conversions columns [] := ⟨Nat.zero_le _, fun j _ _ _ hrow => by cases hrow⟩
    cases columns <;> cases h <;> exact ⟨hnil, rfl⟩
  | cons literal row ih =>
    cases columns with
    | nil => cases h
    | cons column columns =>
      obtain ⟨c, rest, hc, hrest, rfl⟩ := bindValues_cons h
      obtain ⟨hbound, hgen⟩ := ih hrest
      obtain ⟨value, hvalue, hkept⟩ := storedAs_bindValue hc
      refine ⟨⟨Nat.succ_le_succ hbound.length_le, fun j => ?_⟩, ?_⟩
      · cases j with
        | zero =>
          rintro _ _ ⟨⟩ ⟨⟩
          rw [← hkept, isSome_some]
        | succ j => exact hbound.isSome_kept j
      · rw [genSetTablePR, hgen, cells, ← hkept]
        simp [bind, Except.bind, hvalue, pure, Except.pure]

variable {failure : Failure}

theorem convertInteger_error {f : Int64 → Value}
    (h : convertInteger message type f c = .error failure) : ∃ m, failure = .rejected m := by
  rw [convertInteger] at h
  split at h
  · cases h
  · cases h
    exact ⟨_, rfl⟩

theorem convertText_error (h : convertText message unparsed type f c = .error failure) :
    ∃ m, failure = .rejected m := by
  rw [convertText] at h
  split at h
  · split at h
    · cases h
    · cases h
      exact ⟨_, rfl⟩
  · cases h
    exact ⟨_, rfl⟩

theorem bindValue_error (h : bindValue conversions type c = .error failure) :
    ∃ m, failure = .rejected m := by
  rw [bindValue] at h
  split_ifs at h
  cases type with
  | tinyint | smallint | bigint | decimal => exact convertInteger_error h
  | date | timestamp => exact convertText_error h
  | boolean | integer | varchar =>
    cases h
    exact ⟨_, rfl⟩

/-- A row that could not be bound has been rejected or is longer than the table. -/
theorem bindValues_error (h : bindValues conversions columns values = .error failure)
    (hlen : values.length ≤ columns.length) : ∃ m, failure = .rejected m := by
  induction values generalizing columns with
  | nil => cases columns <;> cases h
  | cons c values ih =>
    cases columns with
    | nil => simp at hlen
    | cons column columns =>
      rcases Fallible.bind_eq_error h with hc | ⟨c', _, h⟩
      · exact bindValue_error hc
      · rcases Fallible.bind_eq_error h with hrest | ⟨rest, _, h⟩
        · exact ih hrest (Nat.le_of_succ_le_succ hlen)
        · cases h

theorem checkOmitted_error (h : checkOmitted columns = .error failure) :
    ∃ m, failure = .rejected m := by
  rw [checkOmitted] at h
  split at h
  · cases h
    exact ⟨_, rfl⟩
  · cases h

variable {schema : Schema}

theorem transformInsert_error {table : String} {columns : List String}
    (h : transformInsert schema table columns rows = .error failure) :
    ∃ m, failure = .rejected m := by
  rw [transformInsert] at h
  split_ifs at h with hcols
  · rcases Fallible.bind_eq_error h with hrows | ⟨_, _, h⟩
    · obtain ⟨row, _, hrow⟩ := Fallible.forM_eq_error hrows
      split_ifs at hrow
      · cases hrow
        exact ⟨_, rfl⟩
      · exact checkOmitted_error hrow
    · cases h
  · rcases Fallible.bind_eq_error h with hrows | ⟨_, _, h⟩
    · obtain ⟨row, _, hrow⟩ := Fallible.forM_eq_error hrows
      split_ifs at hrow <;> (cases hrow; exact ⟨_, rfl⟩)
    · split at h
      · cases h
        exact ⟨_, rfl⟩
      · rcases Fallible.bind_eq_error h with homitted | ⟨_, _, h⟩
        · exact checkOmitted_error homitted
        · cases h

theorem bindRow_ok {columns : List String}
    (h : bindRow conversions schema columns row = .ok bound) :
    Bound conversions schema.columns row ∧
      genSetTablePR schema.columns bound = .ok (cells conversions schema.columns row) := by
  rw [bindRow] at h
  split_ifs at h
  exact genSetTablePR_bound h

theorem bindRow_undefined {columns : List String}
    (h : bindRow conversions schema columns row = .error .undefined) :
    schema.columns.length < row.length := by
  rw [bindRow] at h
  split_ifs at h
  · by_contra hle
    obtain ⟨m, hm⟩ := bindValues_error h (by simpa using hle)
    cases hm
  · cases h

variable {stmt : InsertStatement}

theorem bindInsert_ok (h : bindInsert conversions schema stmt = .ok rows) :
    List.Forall₂ (fun row bound => bindRow conversions schema stmt.columns row = .ok bound)
      stmt.values rows := by
  rw [bindInsert] at h
  split_ifs at h
  exact Fallible.mapM_eq_ok_iff.1 h

theorem bindInsert_undefined (h : bindInsert conversions schema stmt = .error .undefined) :
    ∃ row ∈ stmt.values, schema.columns.length < row.length := by
  rw [bindInsert] at h
  split_ifs at h
  · obtain ⟨row, hrow, hundefined⟩ := Fallible.mapM_eq_error h
    exact ⟨row, hrow, bindRow_undefined hundefined⟩
  · cases h

theorem produce_bound {values : List (List Literal)} {columns names : List String}
    {rows : List (List Constant)}
    (h : List.Forall₂ (fun row bound => bindRow conversions schema columns row = .ok bound)
      values rows) :
    (∀ row ∈ values, Bound conversions schema.columns row) ∧
      produce schema ⟨rows, names⟩ = .ok (values.map (cells conversions schema.columns)) := by
  rw [produce, Fallible.mapM_eq_ok_iff]
  induction h with
  | nil => exact ⟨by simp, .nil⟩
  | cons hrow _ ih =>
    obtain ⟨hbound, hgen⟩ := bindRow_ok hrow
    exact ⟨forall_mem_cons.2 ⟨hbound, ih.1⟩, .cons hgen ih.2⟩

/-- A statement that is accepted stores the cells of its rows, unless a row is too long. -/
theorem runInsert_accepted (h : ∀ m, runInsert conversions schema stmt ≠ .error (.rejected m)) :
    (∀ row ∈ stmt.values, Bound conversions schema.columns row) ∧
        runInsert conversions schema stmt =
          .ok (stmt.values.map (cells conversions schema.columns)) ∨
      (∃ row ∈ stmt.values, schema.columns.length < row.length) ∧
        runInsert conversions schema stmt = .error .undefined := by
  rw [runInsert, planInsert] at h ⊢
  cases hbind : bindInsert conversions schema stmt with
  | error failure =>
    rw [hbind] at h
    cases failure with
    | rejected m => exact absurd rfl (h m)
    | undefined => exact .inr ⟨bindInsert_undefined hbind, rfl⟩
  | ok rows =>
    rw [hbind] at h
    cases htransform : transformInsert schema stmt.table stmt.columns rows with
    | error failure =>
      obtain ⟨m, rfl⟩ := transformInsert_error htransform
      apply absurd _ (h m)
      change (transformInsert _ _ _ _ >>= _) >>= _ = _
      rw [htransform]
      rfl
    | ok names =>
      obtain ⟨hbound, hproduce⟩ := @produce_bound _ _ _ _ names _ (bindInsert_ok hbind)
      apply Or.inl
      refine ⟨hbound, ?_⟩
      change (transformInsert _ _ _ _ >>= _) >>= _ = _
      rw [htransform]
      exact hproduce

theorem length_cells (h : row.length ≤ columns.length) :
    (cells conversions columns row).length = columns.length := by
  induction row generalizing columns with
  | nil => simp [cells]
  | cons literal row ih =>
    cases columns with
    | nil => simp at h
    | cons column columns => simp [cells, ih (Nat.le_of_succ_le_succ h)]

theorem getElem?_cells {j : Nat} (h : columns[j]? = some column)
    (hlen : row.length ≤ columns.length) : (cells conversions columns row)[j]? =
      some ((row[j]?).bind (kept conversions column.type)) := by
  induction row generalizing columns j with
  | nil => rw [cells, getElem?_map, h, getElem?_nil, map_some, bind_none]
  | cons literal row ih =>
    cases columns with
    | nil => simp at h
    | cons first columns =>
      cases j with
      | zero =>
        cases h
        rfl
      | succ j => exact ih h (Nat.le_of_succ_le_succ hlen)

/-- The constants of a row stand where they are taken from. That of a listed column shows in the
column what is given for it; an unlisted column has no default and no constant at its place, or its
default is the constant there. -/
structure Placed (conversions : Conversions) (schema : Schema) (names : List String)
    (row : List Literal) : Prop where
  length_le : row.length ≤ schema.columns.length
  given : ∀ (j : Nat) (column : Column), schema.columns[j]? = some column →
    ∀ i : Nat, names[i]? = some column.name → ∃ given taken, row[i]? = some given ∧
      row[j]? = some taken ∧ agrees conversions column.type given taken = true
  omitted : ∀ (j : Nat) (column : Column), schema.columns[j]? = some column →
    column.name ∉ names → row.length ≤ j ∧ column.default.getD none = none ∨
      ∃ taken, row[j]? = some taken ∧ column.default = some (kept conversions column.type taken)

theorem Bound.ne_null (h : Bound conversions columns row) {i : Nat} {literal : Literal}
    (hrow : row[i]? = some literal) : literal ≠ .null := by
  rintro rfl
  have hlt := (List.getElem?_eq_some_iff.1 hrow).1
  have hkept := h.isSome_kept i _ _ (getElem?_eq_getElem (Nat.lt_of_lt_of_le hlt h.length_le)) hrow
  cases hkept

theorem rowStored_iff (h : Bound conversions schema.columns row) (names : List String) :
    RowStored conversions schema names row (cells conversions schema.columns row) ↔
      Placed conversions schema names row := by
  have hcell {j : Nat} {column : Column} (hcol : schema.columns[j]? = some column) :
      (cells conversions schema.columns row)[j]? =
        some ((row[j]?).bind (kept conversions column.type)) :=
    getElem?_cells hcol h.length_le
  constructor
  · intro hstored
    refine ⟨h.length_le, fun j column hcol i hi => ?_, fun j column hcol hmissing => ?_⟩
    · obtain ⟨given, hgiven, hdenotes⟩ := hstored.given j column _ hcol (hcell hcol) i hi
      cases htaken : row[j]? with
      | none =>
        rw [htaken] at hdenotes
        cases given with
        | null => exact absurd rfl (h.ne_null hgiven)
        | _ => cases hdenotes
      | some taken =>
        rw [htaken, bind_some, denotes_kept (h.ne_null hgiven)] at hdenotes
        exact ⟨given, taken, hgiven, rfl, hdenotes⟩
    · have hdefault := hstored.omitted j column _ hcol (hcell hcol) hmissing
      cases htaken : row[j]? with
      | none =>
        rw [htaken] at hdefault
        exact .inl ⟨getElem?_eq_none_iff.1 htaken, hdefault.symm⟩
      | some taken =>
        rw [htaken, bind_some] at hdefault
        refine .inr ⟨taken, rfl, ?_⟩
        obtain ⟨value, hvalue⟩ := isSome_iff_exists.1 (h.isSome_kept j _ _ hcol htaken)
        rw [hvalue] at hdefault ⊢
        cases hcolumn : column.default with
        | none =>
          rw [hcolumn] at hdefault
          cases hdefault
        | some value =>
          rw [hcolumn] at hdefault
          rw [hdefault]
          rfl
  · intro hplaced
    refine ⟨length_cells h.length_le, fun j column cell hcol hget i hi => ?_,
      fun j column cell hcol hget hmissing => ?_⟩
    · rw [hcell hcol] at hget
      obtain ⟨given, taken, hgiven, htaken, hagrees⟩ := hplaced.given j column hcol i hi
      refine ⟨given, hgiven, ?_⟩
      rw [← Option.some.inj hget, htaken, bind_some, denotes_kept (h.ne_null hgiven), hagrees]
    · rw [hcell hcol] at hget
      rw [← Option.some.inj hget]
      obtain ⟨hle, hdefault⟩ | ⟨taken, htaken, hdefault⟩ := hplaced.omitted j column hcol hmissing
      · rw [getElem?_eq_none hle, hdefault, bind_none]
      · rw [htaken, hdefault, bind_some, getD_some]

/-- An accepted statement stores what it says if and only if its constants stand where they are
taken from. -/
theorem insert_stores_iff (conversions : Conversions) (schema : Schema) (stmt : InsertStatement)
    (h : ∀ m, runInsert conversions schema stmt ≠ .error (.rejected m)) :
    (∃ tuples, runInsert conversions schema stmt = .ok tuples ∧
        Stored conversions schema stmt tuples) ↔
      ∀ row ∈ stmt.values, Placed conversions schema (listed schema stmt.columns) row := by
  rcases runInsert_accepted h with ⟨hbound, hrun⟩ | ⟨⟨row, hrow, hlong⟩, hrun⟩
  · have hrows : Stored conversions schema stmt
          (stmt.values.map (cells conversions schema.columns)) ↔
        ∀ row ∈ stmt.values, Placed conversions schema (listed schema stmt.columns) row := by
      rw [Stored, forall₂_map_right_iff, forall₂_same]
      exact forall₂_congr fun row hrow => rowStored_iff (hbound row hrow) _
    rw [hrun, ← hrows]
    constructor
    · rintro ⟨tuples, htuples, hstored⟩
      cases htuples
      exact hstored
    · exact fun hstored => ⟨_, rfl, hstored⟩
  · rw [hrun]
    constructor
    · rintro ⟨tuples, htuples, _⟩
      cases htuples
    · intro hplaced
      exact absurd (hplaced row hrow).length_le (not_le.2 hlong)

/-- The first columns in the order of the schema, of which each can hold its value, with no default
behind them. -/
theorem placed_of_first (hlen : row.length ≤ schema.columns.length)
    (hagrees : ∀ (j : Nat) (column : Column) (literal : Literal),
      schema.columns[j]? = some column → row[j]? = some literal →
        agrees conversions column.type literal literal = true)
    (hdefault : ∀ column ∈ schema.columns.drop row.length, column.default.getD none = none) :
    Placed conversions schema ((schema.columns.map Column.name).take row.length) row := by
  refine ⟨hlen, ?_, ?_⟩
  · intro j column hcol i hi
    -- the names are distinct, so that the value is at the position of the column
    rw [getElem?_take] at hi
    obtain ⟨hlt, hname⟩ := ite_none_right_eq_some.mp hi
    have hj : (schema.columns.map Column.name)[j]? = some column.name := by
      rw [getElem?_map, hcol]
      rfl
    obtain rfl : i = j := by
      have hbound : i < (schema.columns.map Column.name).length := by
        rw [length_map]
        omega
      exact (getElem?_inj hbound schema.nodup).1 (hname.trans hj.symm)
    have hrow := getElem?_eq_getElem hlt
    exact ⟨row[i], row[i], hrow, hrow, hagrees i column _ hcol hrow⟩
  · intro j column hcol hmissing
    have hbehind : row.length ≤ j := by
      by_contra hlt
      apply hmissing
      apply mem_of_getElem? (i := j)
      rw [getElem?_take, if_pos (by omega), getElem?_map, hcol]
      rfl
    have hmem : column ∈ schema.columns.drop row.length := by
      apply mem_of_getElem? (i := j - row.length)
      rw [getElem?_drop, Nat.add_sub_cancel' hbehind, hcol]
    exact .inl ⟨hbehind, hdefault column hmem⟩

def twoIntegers : Schema where
  columns := [⟨"a", .integer, true, none⟩, ⟨"b", .integer, true, none⟩]
  nodup := by decide

def noConversions : Conversions :=
  ⟨fun _ => 0, fun _ _ => false, fun _ => none, fun _ => none⟩

/-- `INSERT INTO t (b, a) VALUES (1, 2)` stores 1 in `a`, for which the statement has 2. -/
theorem swapped_columns_stored :
    runInsert noConversions twoIntegers ⟨"t", ["b", "a"], [[.integer 1, .integer 2]]⟩ =
        .ok [[some (.integer 1), some (.integer 2)]] ∧
      (listed twoIntegers ["b", "a"])[1]? = some "a" ∧
      denotes noConversions (.integer 2) (some (.integer 1)) = false := by
  decide +kernel

/-- `INSERT INTO t VALUES (1, 2)` stores what it says. -/
theorem all_columns_stored :
    (∀ m, runInsert noConversions twoIntegers ⟨"t", [], [[.integer 1, .integer 2]]⟩ ≠
        .error (.rejected m)) ∧
      ∃ tuples, runInsert noConversions twoIntegers ⟨"t", [], [[.integer 1, .integer 2]]⟩ =
          .ok tuples ∧
        Stored noConversions twoIntegers ⟨"t", [], [[.integer 1, .integer 2]]⟩ tuples := by
  have hrun : runInsert noConversions twoIntegers ⟨"t", [], [[.integer 1, .integer 2]]⟩ =
      .ok [[some (.integer 1), some (.integer 2)]] := by
    decide +kernel
  have haccepted (m : String) :
      runInsert noConversions twoIntegers ⟨"t", [], [[.integer 1, .integer 2]]⟩ ≠
        .error (.rejected m) := by
    rw [hrun]
    exact fun h => nomatch h
  refine ⟨haccepted, (insert_stores_iff _ _ _ haccepted).2 ?_⟩
  intro row hrow
  cases mem_singleton.1 hrow
  apply @placed_of_first noConversions [.integer 1, .integer 2] twoIntegers
  · decide
  · intro j column literal hcolumn hliteral
    match j with
    | 0 | 1 =>
      cases hcolumn
      cases hliteral
      decide
  · decide

end Terrier.Compiler
