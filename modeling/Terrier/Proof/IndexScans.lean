import Terrier.Proof.IndexChoice
import Terrier.Proof.ThreeValuedLogic
import Terrier.Compiler.IndexScanTranslator

/-!
An index scan against a sequential scan. Both test every row with the same predicate, so the index
scan must be given bounds between which the keys of all accepted rows lie. The bounds are the
constants of the predicates, cut to the width of the key columns.
-/

namespace Terrier.Compiler

open Network (ColumnType Value ValueKind)
open Sql Optimizer
open List Option

variable {holds : CompareOp → Value → Value → Bool} {less : Value → Value → Bool}
  {types : Nat → ColumnType} {index : Index} {predicates : List Predicate}
  {plan : IndexScanPlan} {row : Row}

/-! ### Integers -/

def compareIntegers : CompareOp → Int → Int → Bool
  | .equal, a, b => a = b
  | .notEqual, a, b => a ≠ b
  | .less, a, b => a < b
  | .lessEqual, a, b => a ≤ b
  | .greater, a, b => b < a
  | .greaterEqual, a, b => b ≤ a

def ComparesIntegers (holds : CompareOp → Value → Value → Bool) : Prop :=
  ∀ op a b, holds op (.integer a) (.integer b) = compareIntegers op a.toInt b.toInt

theorem compareIntegers_reverse (op : CompareOp) (a b : Int) :
    compareIntegers (reverseComparison op) a b = compareIntegers op b a := by
  cases op <;> simp [reverseComparison, compareIntegers, eq_comm]

def intMin : ColumnType → Int
  | .tinyint => -2 ^ 7
  | .smallint => -2 ^ 15
  | .integer => -2 ^ 31
  | _ => -2 ^ 63

def intMax : ColumnType → Int
  | .tinyint => 2 ^ 7 - 1
  | .smallint => 2 ^ 15 - 1
  | .integer => 2 ^ 31 - 1
  | _ => 2 ^ 63 - 1

variable (type : ColumnType)

theorem intMin_ge : -2 ^ 63 ≤ intMin type := by
  cases type <;> decide

theorem intMax_le : intMax type ≤ 2 ^ 63 - 1 := by
  cases type <;> decide

theorem intMin_le_intMax : intMin type ≤ intMax type := by
  cases type <;> decide

/-- An integer constant as the generated code has it. -/
def cut (val : Int64) : Int :=
  val.toInt32.toInt64.toInt

theorem prSet_of_range {type : ColumnType} {val : Int64} (hlow : intMin type ≤ val.toInt)
    (hhigh : val.toInt ≤ intMax type) : prSet type (.integer val) = .integer val := by
  have hbmod {modulus : Nat} (hneg : -(modulus : Int) ≤ 2 * val.toInt)
      (hpos : 2 * val.toInt < modulus) : val.toInt.bmod modulus = val.toInt := by
    apply Int.bmod_eq_of_le_mul_two <;> omega
  cases type with
  | tinyint =>
    simp only [intMin, intMax] at hlow hhigh
    rw [prSet, Value.integer.injEq, ← Int64.toInt_inj, Int8.toInt_toInt64, Int64.toInt_toInt8]
    exact hbmod (by omega) (by omega)
  | smallint =>
    simp only [intMin, intMax] at hlow hhigh
    rw [prSet, Value.integer.injEq, ← Int64.toInt_inj, Int16.toInt_toInt64, Int64.toInt_toInt16]
    exact hbmod (by omega) (by omega)
  | integer =>
    simp only [intMin, intMax] at hlow hhigh
    rw [prSet, Value.integer.injEq, ← Int64.toInt_inj, Int32.toInt_toInt64, Int64.toInt_toInt32]
    exact hbmod (by omega) (by omega)
  | _ => rfl

theorem prSet_integer (type : ColumnType) (val : Int64) :
    ∃ val', prSet type (.integer val) = .integer val' := by
  cases type <;> exact ⟨_, rfl⟩

/-! ### What the scans are to agree on -/

def RowTyped (types : Nat → ColumnType) (row : Row) : Prop :=
  ∀ column value, row column = some value → value.kind = (types column).kind ∧
    ∀ val, value = .integer val →
      intMin (types column) ≤ val.toInt ∧ val.toInt ≤ intMax (types column)

structure Indexed (less : Value → Value → Bool) (index : Index) (table entries : List Row) :
    Prop where
  perm : entries.Perm table
  sorted : entries.Pairwise fun a b =>
    partialLessThan less (index.columns.map a) (index.columns.map b) = true

def Agrees (holds : CompareOp → Value → Value → Bool) (less : Value → Value → Bool)
    (types : Nat → ColumnType) (index : Index) (predicates : List Predicate)
    (plan : IndexScanPlan) : Prop :=
  ∀ table entries, Indexed less index table entries → (∀ row ∈ table, RowTyped types row) →
    ∃ found expected, runIndexScan holds less types index predicates plan entries = some found ∧
      runSeqScan holds types predicates table = some expected ∧ found.Perm expected

def AgreesInOrder (holds : CompareOp → Value → Value → Bool) (less : Value → Value → Bool)
    (types : Nat → ColumnType) (index : Index) (predicates : List Predicate)
    (sort : List SortColumn) (plan : IndexScanPlan) : Prop :=
  ∀ table entries, Indexed less index table entries → (∀ row ∈ table, RowTyped types row) →
    ∃ found expected, runIndexScan holds less types index predicates plan entries = some found ∧
      runSeqScan holds types predicates table = some expected ∧ found.Perm expected ∧
      found.Pairwise fun a b => partialLessThan less ((sort.filterMap (·.column)).map a)
        ((sort.filterMap (·.column)).map b) = true

/-- The key columns that are compared with constants are compared with integers. -/
def IntegerComparisons (types : Nat → ColumnType) (index : Index) (predicates : List Predicate) :
    Prop :=
  ∀ predicate ∈ predicates, ∀ column ∈ index.columns, ∀ op value,
    indexComparison predicate = some (column, op, value) →
      (types column).kind = .integer ∧ ∃ val, value = .integer val

def ScanTypeChecks (types : Nat → ColumnType) (predicates : List Predicate) : Prop :=
  ∀ predicate, joinPredicates predicates = some predicate →
    TypeChecks (fun column => (types column).kind) predicate

/-! ### The values the comparisons allow -/

def limit : End → CompareOp → Int → Option Int
  | _, .equal, bound | .low, .greaterEqual, bound | .high, .lessEqual, bound => some bound
  | .low, .greater, bound => some (bound + 1)
  | .high, .less, bound => some (bound - 1)
  | _, _, _ => none

def limits (side : End) (predicates : List Predicate) (column : Nat) : List Int :=
  predicates.filterMap fun predicate =>
    match indexComparison predicate with
    | some (column', op, .integer val) =>
      if column' = column then limit side op (cut val) else none
    | _ => none

/-- The least value of a column that its comparisons with constants allow. -/
def least (types : Nat → ColumnType) (predicates : List Predicate) (column : Nat) : Int :=
  (limits .low predicates column).foldr max (intMin (types column))

def greatest (types : Nat → ColumnType) (predicates : List Predicate) (column : Nat) : Int :=
  (limits .high predicates column).foldr min (intMax (types column))

variable {column : Nat} {val : Int}

theorem least_le_iff : least types predicates column ≤ val ↔ intMin (types column) ≤ val ∧
      ∀ bound ∈ limits .low predicates column, bound ≤ val := by
  unfold least
  induction limits .low predicates column with
  | nil => simp
  | cons bound rest ih =>
    rw [foldr_cons, max_le_iff, ih, forall_mem_cons]
    exact and_left_comm

theorem le_greatest_iff : val ≤ greatest types predicates column ↔ val ≤ intMax (types column) ∧
      ∀ bound ∈ limits .high predicates column, val ≤ bound := by
  unfold greatest
  induction limits .high predicates column with
  | nil => simp
  | cons bound rest ih =>
    rw [foldr_cons, le_min_iff, ih, forall_mem_cons]
    exact and_left_comm

variable {side : End} {bound : Int} {value : Value} {entries : List Row} {sort : List SortColumn}

theorem mem_limits_iff : bound ∈ limits side predicates column ↔ ∃ predicate ∈ predicates, ∃ op val,
      indexComparison predicate = some (column, op, .integer val) ∧
        limit side op (cut val) = some bound := by
  rw [limits, mem_filterMap]
  apply exists_congr
  intro predicate
  apply and_congr_right
  intro _
  split
  case h_1 column' op val hcmp =>
    constructor
    · intro h
      obtain ⟨rfl, hbound⟩ := ite_none_right_eq_some.mp h
      exact ⟨op, val, hcmp, hbound⟩
    · rintro ⟨op', val', hcmp', hbound⟩
      rw [hcmp] at hcmp'
      cases hcmp'
      rw [if_pos rfl, hbound]
  case h_2 hnone =>
    constructor
    · rintro ⟨⟩
    · rintro ⟨op, val, hcmp, _⟩
      exact absurd hcmp (hnone column op val)

variable {op : CompareOp}

theorem within_limit {end' : Int} (h : compareIntegers op val bound = true) :
    (limit .low op bound = some end' → end' ≤ val) ∧
      (limit .high op bound = some end' → val ≤ end') := by
  cases op <;> simp only [compareIntegers, decide_eq_true_eq] at h <;>
    simp only [limit, Option.some.injEq, reduceCtorEq, false_imp_iff, and_true, true_and] <;> omega

/-- A value within the limits of a comparison satisfies it, unless it is an inequality. -/
theorem compare_of_limits (hop : op ≠ .notEqual) (hlow : ∀ end' ∈ limit .low op bound, end' ≤ val)
    (hhigh : ∀ end' ∈ limit .high op bound, val ≤ end') : compareIntegers op val bound = true := by
  cases op <;> simp [limit, compareIntegers] at * <;> omega

/-! ### Accepted rows -/

theorem isTrue_join (rest : List Predicate) (first : Predicate) :
    isTrue holds row (narrow (rest.foldl .and first)) =
      (isTrue holds row (narrow first) && rest.all fun p => isTrue holds row (narrow p)) := by
  induction rest generalizing first with
  | nil => simp
  | cons second rest ih => rw [foldl_cons, ih, all_cons, narrow, isTrue_and, Bool.and_assoc]

theorem scanAccepts_eq (htyped : ScanTypeChecks types predicates) (row : Row) :
    scanAccepts holds types predicates row =
      some (predicates.all fun predicate => isTrue holds row (narrow predicate)) := by
  cases predicates with
  | nil => rfl
  | cons first rest =>
    have haccepts := @accepts_eq_isTrue holds _ row _ (htyped _ rfl)
    rw [isTrue_join] at haccepts
    exact haccepts

theorem acceptedRows_eq {accept : Row → Option Bool} {test : Row → Bool}
    (h : ∀ row, accept row = some (test row)) (rows : List Row) :
    acceptedRows accept rows = some (rows.filter test) := by
  induction rows with
  | nil => rfl
  | cons row rest ih =>
    rw [acceptedRows, h, ih, filter_cons]
    cases test row <;> rfl

variable {predicate : Predicate}

theorem isTrue_comparison (hholds : ComparesIntegers holds)
    {val : Int64} (hcmp : indexComparison predicate = some (column, op, .integer val))
    (hkind : (types column).kind = .integer) (hrow : RowTyped types row) :
    isTrue holds row (narrow predicate) = true ↔ ∃ val', row column = some (.integer val') ∧
        compareIntegers op val'.toInt (cut val) = true := by
  have hvalue : ∀ value, row column = some value → ∃ val', value = .integer val' := by
    intro value hcell
    have hsame := (hrow column value hcell).1
    rw [hkind] at hsame
    cases value <;> simp [Value.kind] at hsame ⊢
  unfold indexComparison at hcmp
  split at hcmp
  case h_3 => cases hcmp
  all_goals
    cases hcmp
    simp only [narrow, narrowOperand, isTrue, Predicate.value, Operand.value, initValue, beq_iff_eq]
    cases hcell : row column with
    | none => simp [compare3]
    | some value =>
      obtain ⟨val', rfl⟩ := hvalue value hcell
      simp [compare3, hholds _ _ _, cut, compareIntegers_reverse]

structure Accepted (holds : CompareOp → Value → Value → Bool) (types : Nat → ColumnType)
    (index : Index) (predicates : List Predicate) (row : Row) : Prop where
  integers : ComparesIntegers holds
  compares : IntegerComparisons types index predicates
  typed : RowTyped types row
  accepted : ∀ predicate ∈ predicates, isTrue holds row (narrow predicate) = true

theorem Accepted.between (h : Accepted holds types index predicates row)
    (hmem : predicate ∈ predicates) (hcol : column ∈ index.columns)
    (hcmp : indexComparison predicate = some (column, op, value)) :
    ∃ val, row column = some (.integer val) ∧ least types predicates column ≤ val.toInt ∧
        val.toInt ≤ greatest types predicates column := by
  obtain ⟨hkind, bound, rfl⟩ := h.compares predicate hmem column hcol op value hcmp
  obtain ⟨val, hval, _⟩ :=
    (isTrue_comparison h.integers hcmp hkind h.typed).1 (h.accepted _ hmem)
  have hrange := (h.typed column _ hval).2 val rfl
  have hlimits {side : End} {end' : Int} (hend : end' ∈ limits side predicates column) :
      ∃ op bound, compareIntegers op val.toInt bound = true ∧ limit side op bound = some end' := by
    obtain ⟨predicate', hmem', op', bound', hcmp', hlimit⟩ := mem_limits_iff.1 hend
    obtain ⟨val', hval', hholds'⟩ :=
      (isTrue_comparison h.integers hcmp' hkind h.typed).1 (h.accepted _ hmem')
    rw [hval] at hval'
    cases hval'
    exact ⟨op', _, hholds', hlimit⟩
  refine ⟨val, hval, least_le_iff.2 ⟨hrange.1, fun end' hend => ?_⟩,
    le_greatest_iff.2 ⟨hrange.2, fun end' hend => ?_⟩⟩
  · obtain ⟨op', bound', hcmp', hlimit⟩ := hlimits hend
    exact (within_limit hcmp').1 hlimit
  · obtain ⟨op', bound', hcmp', hlimit⟩ := hlimits hend
    exact (within_limit hcmp').2 hlimit

/-! ### Keys in order -/

def Below (left right : Option Value) : Prop :=
  ∃ a b : Int64, left = some (.integer a) ∧ right = some (.integer b) ∧ a.toInt ≤ b.toInt

def IsInteger (cell : Option Value) : Prop :=
  ∃ val, cell = some (.integer val)

theorem partialLessThan_integers (a b : Int64) (lefts rights : List (Option Value)) :
    partialLessThan less (some (.integer a) :: lefts) (some (.integer b) :: rights) = true ↔
      a.toInt < b.toInt ∨ a.toInt = b.toInt ∧ partialLessThan less lefts rights = true := by
  rw [partialLessThan]
  simp only [attributeLess, decide_eq_true_eq, Int64.lt_iff_toInt_lt]
  split_ifs with hlt hgt
  · simp [hlt]
  · simp only [false_iff]
    omega
  · have heq : a.toInt = b.toInt := by omega
    simp [heq]

variable {rights lefts : List (Option Value)}

/-- A key that is not above another stays so when attributes of the first get smaller and
attributes of the second greater. -/
theorem partialLessThan_mono {lefts' rights' : List (Option Value)}
    (h : partialLessThan less lefts rights = true) (hlefts : List.Forall₂ Below lefts' lefts)
    (hrights : List.Forall₂ Below rights rights') :
    partialLessThan less lefts' rights' = true := by
  induction hlefts generalizing rights rights' with
  | nil => cases hrights <;> rfl
  | cons hfirst _ ih =>
    obtain ⟨a, b, rfl, rfl, hle⟩ := hfirst
    cases hrights with
    | nil => rfl
    | cons hfirst' hrest' =>
      obtain ⟨c, d, rfl, rfl, hle'⟩ := hfirst'
      rw [partialLessThan_integers] at h ⊢
      rcases h with hlt | ⟨heq, hrest⟩
      · exact .inl (by omega)
      · have hrest := ih hrest hrest'
        rcases (hle.trans (heq ▸ hle')).lt_or_eq with hlt | heq'
        · exact .inl (by omega)
        · exact .inr ⟨by omega, hrest⟩

theorem below_refl {keys : List (Option Value)} (hkeys : ∀ key ∈ keys, IsInteger key) :
    List.Forall₂ Below keys keys := by
  apply forall₂_same.2
  intro key hkey
  obtain ⟨val, rfl⟩ := hkeys key hkey
  exact ⟨val, val, rfl, rfl, le_rfl⟩

theorem partialLessThan_take (h : partialLessThan less lefts rights = true) (count : Nat) :
    partialLessThan less (lefts.take count) (rights.take count) = true := by
  induction count generalizing lefts rights with
  | zero => rfl
  | succ count ih =>
    cases lefts with
    | nil => rfl
    | cons left lefts =>
      cases rights with
      | nil => rfl
      | cons right rights =>
        rw [take_succ_cons, take_succ_cons, partialLessThan]
        rw [partialLessThan] at h
        split_ifs at h ⊢
        · rfl
        · exact ih h

/-! ### The bounds of a plan -/

def columnsOf (side : End) (bounds : List KeyBound) : List (Nat × Value) :=
  bounds.filterMap fun bound => (side.of bound).map fun expr => (bound.key, expr.value)

variable {bounds : List KeyBound}

theorem length_columnsOf (h : ∀ bound ∈ bounds, (side.of bound).isSome) :
    (columnsOf side bounds).length = bounds.length := by
  induction bounds with
  | nil => rfl
  | cons bound rest ih =>
    obtain ⟨expr, hexpr⟩ := isSome_iff_exists.1 (h bound mem_cons_self)
    have hrest := ih fun bound hbound => h bound (mem_cons_of_mem _ hbound)
    rw [columnsOf, filterMap_cons_some (by rw [hexpr]; rfl), length_cons, length_cons]
    exact congrArg (· + 1) hrest

theorem lookup_columnsOf (hnodup : (bounds.map (·.key)).Nodup) {bound : KeyBound}
    (hbound : bound ∈ bounds) {expr : IndexExpression} (hexpr : side.of bound = some expr) :
    (columnsOf side bounds).lookup bound.key = some expr.value := by
  induction bounds with
  | nil => cases hbound
  | cons first rest ih =>
    rw [map_cons, nodup_cons] at hnodup
    rcases mem_cons.1 hbound with rfl | hrest
    · rw [columnsOf, filterMap_cons_some (by rw [hexpr]; rfl), lookup_cons]
      simp
    · have hne : bound.key ≠ first.key := by
        intro heq
        exact hnodup.1 (heq ▸ List.mem_map_of_mem hrest)
      have hlookup := ih hnodup.2 hrest
      cases hfirst : side.of first with
      | none =>
        rw [columnsOf, filterMap_cons_none (by rw [hfirst]; rfl)]
        exact hlookup
      | some expr' =>
        rw [columnsOf, filterMap_cons_some (by rw [hfirst]; rfl), lookup_cons, beq_false_of_ne hne]
        exact hlookup

structure Chosen (index : Index) (predicates : List Predicate) (ranges : OpenRanges)
    (type : IndexScanType) (bounds : List KeyBound) : Prop where
  collected : collectRanges index predicates 0 ⟨∅, ∅⟩ = some ranges
  chosen : chooseBounds ranges (List.range index.columns.length) (initialType index ranges) =
    (type, bounds)

theorem chosen_of_predicateScan (h : predicateScan index predicates = some plan) :
    ∃ ranges type bounds, Chosen index predicates ranges type bounds ∧
      plan = visitIndexScan type bounds := by
  obtain ⟨⟨type, bounds⟩, hchecked, rfl⟩ := map_eq_some_iff.1 h
  obtain ⟨ranges, hranges, hchecked⟩ := bind_eq_some_iff.1 hchecked
  obtain ⟨_, hchecked⟩ := ite_none_left_eq_some.mp hchecked
  obtain ⟨_, hchecked⟩ := ite_none_left_eq_some.mp hchecked
  exact ⟨ranges, type, bounds, ⟨hranges, Option.some.inj hchecked⟩, rfl⟩

variable {ranges : OpenRanges} {type : IndexScanType}

namespace Chosen

section

variable (h : Chosen index predicates ranges type bounds)
include h

theorem type_ne : type ≠ .ascendingOpenBoth := by
  rintro rfl
  have hstart : initialType index ranges ≠ .ascendingOpenBoth := by
    unfold initialType
    split_ifs <;> simp
  exact chooseBounds_ne_openBoth hstart (by rw [h.chosen])

theorem exact_iff : type = .exact ↔ EqualOnKey index predicates := by
  have hexact := Optimizer.exact_iff h.collected
  rwa [h.chosen] at hexact

theorem keys : bounds.map (·.key) = List.range bounds.length := by
  have hkeys := @chooseBounds_keys ranges 0 index.columns.length (initialType index ranges)
  rwa [← range_eq_range', h.chosen, ← range_eq_range'] at hkeys

theorem bound_at {side : End} (huses : usesEnd type side = true) {key : Nat}
    (hkey : key < bounds.length) :
    ∃ expr, (columnsOf side bounds).lookup key = some expr.value ∧
      expr ∈ (side.bounds ranges).lookup key := by
  have hmem : key ∈ bounds.map (·.key) := by
    rw [h.keys]
    exact mem_range.2 hkey
  obtain ⟨bound, hbound, rfl⟩ := List.mem_map.1 hmem
  have hchoose : bound ∈ (chooseBounds ranges (List.range index.columns.length)
      (initialType index ranges)).2 := by
    rw [h.chosen]
    exact hbound
  have hend : (side.of bound).isSome := by
    apply chooseBounds_has_end _ bound hchoose
    rw [h.chosen]
    exact huses
  obtain ⟨expr, hexpr⟩ := isSome_iff_exists.1 hend
  refine ⟨expr, ?_, chooseBounds_taken bound hchoose side expr hexpr⟩
  apply lookup_columnsOf _ hbound hexpr
  rw [h.keys]
  exact nodup_range

theorem length_columns {side : End} (huses : usesEnd type side = true) :
    (columnsOf side bounds).length = bounds.length := by
  apply length_columnsOf
  intro bound hbound
  apply @chooseBounds_has_end ranges (initialType index ranges) (List.range index.columns.length)
  · rw [h.chosen]
    exact huses
  · rw [h.chosen]
    exact hbound

variable {side : End}

theorem compared (huses : usesEnd type side = true) {key : Nat}
    (hkey : (index.columns.take bounds.length)[key]? = some column) :
    ∃ predicate ∈ predicates, ∃ op value, (columnsOf side bounds).lookup key = some value ∧
        indexComparison predicate = some (column, op, value) ∧ side.bindsWith op = true := by
  rw [getElem?_take] at hkey
  obtain ⟨hlt, hcol⟩ := ite_none_right_eq_some.mp hkey
  obtain ⟨expr, hlookup, hfound⟩ := h.bound_at huses hlt
  obtain ⟨predicate, hpred, column', op, hcmp, hcol', hplace, hop⟩ :=
    (found_iff h.collected side).1 hfound
  have hmem := mem_of_getElem? (mem_zipIdx_iff_getElem?.1 hpred)
  have hsame : column' = column := by
    rw [← hplace, getElem?_idxOf hcol'] at hcol
    exact Option.some.inj hcol
  exact ⟨predicate, hmem, op, expr.value, hlookup, hsame ▸ hcmp, hop⟩

theorem fillKey_integers (hcmps : IntegerComparisons types index predicates)
    (huses : usesEnd type side = true) :
    ∀ cell ∈ fillKey types index (columnsOf side bounds) bounds.length, IsInteger cell := by
  intro cell hcell
  obtain ⟨⟨column, key⟩, hmem, rfl⟩ := List.mem_map.1 hcell
  have hcol := mem_zipIdx_iff_getElem?.1 hmem
  obtain ⟨predicate, hpred, op, value, hlookup, hcmp, _⟩ := h.compared huses hcol
  obtain ⟨_, val, rfl⟩ :=
    hcmps predicate hpred column (mem_of_mem_take (mem_of_getElem? hcol)) op value hcmp
  obtain ⟨val', hval'⟩ := prSet_integer (types column) val.toInt32.toInt64
  exact ⟨val', by simp [hlookup, initValue, hval']⟩

theorem between (ha : Accepted holds types index predicates row) (huses : usesEnd type side = true)
    (hcol : column ∈ index.columns.take bounds.length) :
    ∃ val, row column = some (.integer val) ∧ least types predicates column ≤ val.toInt ∧
        val.toInt ≤ greatest types predicates column := by
  obtain ⟨key, hkey⟩ := mem_iff_getElem?.1 hcol
  obtain ⟨predicate, hmem, op, value, _, hcmp, _⟩ := h.compared huses hkey
  exact ha.between hmem (mem_of_mem_take hcol) hcmp

theorem numAttrs_eq (htype : type ≠ .exact) :
    IndexScanPlan.numAttrs (visitIndexScan type bounds) = bounds.length := by
  have hlow := @length_columns _ _ _ _ _ h .low
  have hhigh := @length_columns _ _ _ _ _ h .high
  cases type with
  | exact => exact absurd rfl htype
  | ascendingClosed =>
    exact (congrArg₂ max (hlow rfl) (hhigh rfl)).trans (max_self _)
  | ascendingOpenHigh => exact (congrArg₂ max (hlow rfl) rfl).trans (Nat.max_zero _)
  | ascendingOpenLow => exact (congrArg₂ max rfl (hhigh rfl)).trans (Nat.zero_max _)
  | ascendingOpenBoth => exact absurd rfl h.type_ne

end

end Chosen

theorem visitIndexScan_ne_exact (htype : type ≠ .exact) :
    (visitIndexScan type bounds).type ≠ .exact := by
  cases type <;> simp_all [visitIndexScan]

/-! ### Bounds that lose no row -/

def integerKey (index : Index) (values : Nat → Int) (numAttrs : Nat) : List (Option Value) :=
  (index.columns.take numAttrs).map fun column => some (.integer (Int64.ofInt (values column)))

/-- The comparisons of a key column contradict each other, or the least and the greatest
values allowed lie, as a key, between the constants as they are stored. -/
def Covers (less : Value → Value → Bool) (types : Nat → ColumnType) (index : Index)
    (predicates : List Predicate) (plan : IndexScanPlan) : Prop :=
  (∃ column ∈ index.columns, greatest types predicates column < least types predicates column) ∨
    (lowKeyExists plan.type = true →
      partialLessThan less (fillKey types index plan.loColumns (IndexScanPlan.numAttrs plan))
        (integerKey index (least types predicates) (IndexScanPlan.numAttrs plan)) = true) ∧
    (highKeyExists plan.type = true → partialLessThan less
        (integerKey index (greatest types predicates) (IndexScanPlan.numAttrs plan))
        (fillKey types index plan.hiColumns (IndexScanPlan.numAttrs plan)) = true)

theorem toInt_ofInt_of_range {type : ColumnType} (hlow : intMin type ≤ val)
    (hhigh : val ≤ intMax type) : (Int64.ofInt val).toInt = val := by
  have hmin := intMin_ge type
  have hmax := intMax_le type
  apply Int64.toInt_ofInt_of_le <;> omega

theorem intMin_le_least (column : Nat) : intMin (types column) ≤ least types predicates column :=
  (least_le_iff.1 le_rfl).1

theorem greatest_le_intMax (column : Nat) :
    greatest types predicates column ≤ intMax (types column) :=
  (le_greatest_iff.1 le_rfl).1

theorem Accepted.least_le_greatest (h : Accepted holds types index predicates row)
    (hcol : column ∈ index.columns) :
    least types predicates column ≤ greatest types predicates column := by
  have hcompared (predicate : Predicate) (hmem : predicate ∈ predicates) (op : CompareOp)
      (value : Value) (hcmp : indexComparison predicate = some (column, op, value)) :
      least types predicates column ≤ greatest types predicates column := by
    obtain ⟨val, _, hlow, hhigh⟩ := h.between hmem hcol hcmp
    exact hlow.trans hhigh
  cases hlows : limits .low predicates column with
  | cons bound rest =>
    have hbound : bound ∈ limits .low predicates column := by simp [hlows]
    obtain ⟨predicate, hmem, op, val, hcmp, _⟩ := mem_limits_iff.1 hbound
    exact hcompared predicate hmem op _ hcmp
  | nil =>
    cases hhighs : limits .high predicates column with
    | cons bound rest =>
      have hbound : bound ∈ limits .high predicates column := by simp [hhighs]
      obtain ⟨predicate, hmem, op, val, hcmp, _⟩ := mem_limits_iff.1 hbound
      exact hcompared predicate hmem op _ hcmp
    | nil =>
      rw [least, greatest, hlows, hhighs]
      exact intMin_le_intMax _

section Accepted

variable (ha : Accepted holds types index predicates row)
include ha

theorem least_below_row (h : Chosen index predicates ranges type bounds) {side : End}
    (huses : usesEnd type side = true) :
    List.Forall₂ Below (integerKey index (least types predicates) bounds.length)
        (rowKey index row bounds.length) ∧
      List.Forall₂ Below (rowKey index row bounds.length)
        (integerKey index (greatest types predicates) bounds.length) := by
  have hvals (column : Nat) (hcol : column ∈ index.columns.take bounds.length) :=
    h.between ha huses hcol
  constructor
  · rw [integerKey, rowKey, forall₂_map_left_iff, forall₂_map_right_iff, forall₂_same]
    intro column hcol
    obtain ⟨val, hval, hlow, hhigh⟩ := hvals column hcol
    refine ⟨_, val, rfl, hval, ?_⟩
    rw [toInt_ofInt_of_range (intMin_le_least column)
      (hlow.trans (hhigh.trans (greatest_le_intMax column)))]
    exact hlow
  · rw [integerKey, rowKey, forall₂_map_left_iff, forall₂_map_right_iff, forall₂_same]
    intro column hcol
    obtain ⟨val, hval, hlow, hhigh⟩ := hvals column hcol
    refine ⟨val, _, hval, rfl, ?_⟩
    rw [toInt_ofInt_of_range ((intMin_le_least column).trans (hlow.trans hhigh))
      (greatest_le_intMax column)]
    exact hhigh

theorem within_of_covers (h : Chosen index predicates ranges type bounds) (htype : type ≠ .exact)
    (hcovers : Covers less types index predicates (visitIndexScan type bounds)) :
    withinBounds less types index (visitIndexScan type bounds) row = true := by
  rcases hcovers with ⟨column, hcol, hempty⟩ | ⟨hlow, hhigh⟩
  · have := ha.least_le_greatest hcol
    omega
  rw [h.numAttrs_eq htype] at hlow hhigh
  rw [withinBounds, h.numAttrs_eq htype]
  have hbelow {side : End} (huses : usesEnd type side = true) := least_below_row ha h huses
  have hlowRow (huses : usesEnd type .low = true)
      (hcovered : partialLessThan less (fillKey types index (loColumnsOf bounds) bounds.length)
        (integerKey index (least types predicates) bounds.length) = true) :
      partialLessThan less (fillKey types index (loColumnsOf bounds) bounds.length)
        (rowKey index row bounds.length) = true :=
    partialLessThan_mono hcovered (below_refl (h.fillKey_integers ha.compares huses))
      (hbelow huses).1
  have hhighRow (huses : usesEnd type .high = true) (hcovered : partialLessThan less
        (integerKey index (greatest types predicates) bounds.length)
        (fillKey types index (hiColumnsOf bounds) bounds.length) = true) :
      partialLessThan less (rowKey index row bounds.length)
        (fillKey types index (hiColumnsOf bounds) bounds.length) = true :=
    partialLessThan_mono hcovered (hbelow huses).2
      (below_refl (h.fillKey_integers ha.compares huses))
  cases type with
  | exact => exact absurd rfl htype
  | ascendingClosed =>
    simpa [lowKeyExists, highKeyExists, visitIndexScan] using
      And.intro (hlowRow rfl (hlow rfl)) (hhighRow rfl (hhigh rfl))
  | ascendingOpenHigh =>
    simpa [lowKeyExists, highKeyExists, visitIndexScan] using hlowRow rfl (hlow rfl)
  | ascendingOpenLow =>
    simpa [lowKeyExists, highKeyExists, visitIndexScan] using hhighRow rfl (hhigh rfl)
  | ascendingOpenBoth => exact absurd rfl h.type_ne

/-- A scan for one key finds every accepted row: a constant that does not fit the column
is not in it either. -/
theorem key_of_accepted (h : Chosen index predicates ranges .exact bounds) :
    rowKey index row index.columns.length =
      fillKey types index (loColumnsOf bounds) index.columns.length := by
  have hequal := h.exact_iff.1 rfl
  have hpinned := pinned_of_equalOnKey h.collected hequal
  have hlen : bounds.length = index.columns.length := by
    have hall := (chooseBounds_of_pinned hpinned).2
    have hstart : initialType index ranges = .exact := exact_start (by rw [h.chosen])
    rw [← hstart, h.chosen, length_range] at hall
    exact hall
  apply ext_getElem (by simp [rowKey, fillKey])
  intro key hkey _
  have hlt : key < index.columns.length := by simpa [rowKey] using hkey
  obtain ⟨expr, hlookup, hfound⟩ := @Chosen.bound_at _ _ _ _ _ h .low rfl key (hlen ▸ hlt)
  obtain ⟨expr', hhigh, hlow⟩ := hpinned key (mem_range.2 hlt)
  have hsame : expr' = expr := mem_unique hhigh hfound
  subst hsame
  obtain ⟨predicate, hmem, column, hcol, hcmp, hplace⟩ :=
    equal_of_pinned h.collected hhigh hlow
  have hcell : index.columns[key] = column := by simp [← hplace]
  obtain ⟨hkind, val, hvalue⟩ := ha.compares predicate hmem column hcol _ _ hcmp
  rw [hvalue] at hcmp hlookup
  obtain ⟨val', hval', heq⟩ :=
    (isTrue_comparison ha.integers hcmp hkind ha.typed).1 (ha.accepted _ hmem)
  have hcut : val' = val.toInt32.toInt64 := by
    apply Int64.toInt_inj.1
    simpa [compareIntegers, cut] using heq
  have hrange := (ha.typed column _ hval').2 val' rfl
  have hstored := prSet_of_range hrange.1 hrange.2
  have hlookup' : (loColumnsOf bounds).lookup key = some (.integer val) := hlookup
  simp [rowKey, fillKey, hcell, hval', hlookup', initValue, ← hcut, hstored]

end Accepted

/-! ### Scans of whole tables -/

def acceptable (holds : CompareOp → Value → Value → Bool) (predicates : List Predicate)
    (row : Row) : Bool :=
  predicates.all fun predicate => isTrue holds row (narrow predicate)

theorem runSeqScan_eq (htyped : ScanTypeChecks types predicates) (table : List Row) :
    runSeqScan holds types predicates table = some (table.filter (acceptable holds predicates)) :=
  acceptedRows_eq (scanAccepts_eq htyped) table

theorem runIndexScan_eq (htyped : ScanTypeChecks types predicates) {rows : List Row}
    (hrows : indexIterator less types index entries plan = some rows) :
    runIndexScan holds less types index predicates plan entries =
      some (rows.filter (acceptable holds predicates)) := by
  rw [runIndexScan, hrows]
  exact acceptedRows_eq (scanAccepts_eq htyped) rows

/-- Nothing is lost if the index iterator finds every row that is acceptable. -/
theorem filter_perm {table : List Row} {found : Row → Bool} (hperm : entries.Perm table)
    (hfound : ∀ row ∈ table, acceptable holds predicates row = true → found row = true) :
    ((entries.filter found).filter (acceptable holds predicates)).Perm
      (table.filter (acceptable holds predicates)) := by
  rw [List.filter_filter]
  apply List.Perm.trans _ (hperm.filter _)
  apply List.Perm.of_eq
  apply filter_congr
  intro row hrow
  cases hacc : acceptable holds predicates row with
  | false => rfl
  | true => exact hfound row (hperm.mem_iff.1 hrow) hacc

/-- The index has the scan type chosen. -/
def Supported (index : Index) (predicates : List Predicate) : Prop :=
  index.kind = .bwTree ∨ EqualOnKey index predicates

theorem agrees_of_covers (hholds : ComparesIntegers holds)
    (hcmps : IntegerComparisons types index predicates) (htyped : ScanTypeChecks types predicates)
    (hplan : predicateScan index predicates = some plan) (hsupported : Supported index predicates)
    (hcovers : Covers less types index predicates plan) :
    Agrees holds less types index predicates plan := by
  intro table entries hindexed hrows
  obtain ⟨ranges, type, bounds, hchoose, rfl⟩ := chosen_of_predicateScan hplan
  by_cases htype : type = .exact
  · subst htype
    refine ⟨_, _, runIndexScan_eq htyped (if_pos rfl), runSeqScan_eq htyped table,
      filter_perm hindexed.perm ?_⟩
    intro row hrow hacc
    exact decide_eq_true (key_of_accepted
      ⟨hholds, hcmps, hrows row hrow, List.all_eq_true.1 hacc⟩ hchoose)
  · have hkind : index.kind = .bwTree :=
      hsupported.resolve_right fun hequal => htype (hchoose.exact_iff.2 hequal)
    have hiterator : indexIterator less types index entries (visitIndexScan type bounds) =
        some (entries.filter (withinBounds less types index (visitIndexScan type bounds))) := by
      rw [indexIterator, if_neg (visitIndexScan_ne_exact htype), hkind]
    refine ⟨_, _, runIndexScan_eq htyped hiterator, runSeqScan_eq htyped table,
      filter_perm hindexed.perm ?_⟩
    intro row hrow hacc
    exact within_of_covers ⟨hholds, hcmps, hrows row hrow, List.all_eq_true.1 hacc⟩
      hchoose htype hcovers

theorem supported_of_agrees (hplan : predicateScan index predicates = some plan)
    (h : Agrees holds less types index predicates plan) : Supported index predicates := by
  obtain ⟨ranges, type, bounds, hchoose, rfl⟩ := chosen_of_predicateScan hplan
  obtain ⟨found, _, hfound, _⟩ := h [] [] ⟨List.Perm.refl _, List.Pairwise.nil⟩ (by simp)
  obtain ⟨rows, hrows, _⟩ := bind_eq_some_iff.1 hfound
  cases hkind : index.kind with
  | bwTree => exact .inl hkind
  | hash =>
    apply Or.inr (hchoose.exact_iff.1 _)
    rw [indexIterator, hkind] at hrows
    cases type <;> simp_all [visitIndexScan]

/-! ### Rows at the limits -/

def OnlyBounds (index : Index) (predicates : List Predicate) : Prop :=
  ∀ predicate ∈ predicates, ∃ column op value,
    indexComparison predicate = some (column, op, value) ∧ column ∈ index.columns ∧ op ≠ .notEqual

def integerRow (predicates : List Predicate) (values : Nat → Int) : Row :=
  fun column =>
    if predicates.any fun predicate => (indexComparison predicate).any (·.1 = column) then
      some (.integer (Int64.ofInt (values column)))
    else none

theorem integerRow_compared {values : Nat → Int} (hmem : predicate ∈ predicates)
    (hcmp : indexComparison predicate = some (column, op, value)) :
    integerRow predicates values column = some (.integer (Int64.ofInt (values column))) := by
  apply if_pos
  exact List.any_eq_true.2 ⟨predicate, hmem, by simp [hcmp]⟩

theorem integerRow_some {values : Nat → Int}
    (h : integerRow predicates values column = some value) :
    value = .integer (Int64.ofInt (values column)) ∧ ∃ predicate ∈ predicates, ∃ op constant,
        indexComparison predicate = some (column, op, constant) := by
  obtain ⟨hany, hvalue⟩ := ite_none_right_eq_some.mp h
  cases hvalue
  obtain ⟨predicate, hmem, hcompared⟩ := List.any_eq_true.1 hany
  obtain ⟨⟨column', op, constant⟩, hcmp, hcol⟩ := (Option.any_eq_true _ _).1 hcompared
  have hsame : column' = column := by simpa using hcol
  exact ⟨rfl, predicate, hmem, op, constant, hsame ▸ hcmp⟩

section Limits

variable {values : Nat → Int}
  (hvals : ∀ column ∈ index.columns, least types predicates column ≤ values column ∧
    values column ≤ greatest types predicates column)

include hvals

theorem toInt_integerRow (hcol : column ∈ index.columns) :
    (Int64.ofInt (values column)).toInt = values column := by
  obtain ⟨hlow, hhigh⟩ := hvals column hcol
  exact toInt_ofInt_of_range ((intMin_le_least column).trans hlow)
    (hhigh.trans (greatest_le_intMax column))

theorem integerRow_typed (hcmps : IntegerComparisons types index predicates)
    (honly : OnlyBounds index predicates) : RowTyped types (integerRow predicates values) := by
  intro column value hvalue
  obtain ⟨rfl, predicate, hmem, op, constant, hcmp⟩ := integerRow_some hvalue
  obtain ⟨column', op', constant', hcmp', hcol, _⟩ := honly predicate hmem
  rw [hcmp] at hcmp'
  cases hcmp'
  obtain ⟨hlow, hhigh⟩ := hvals column hcol
  refine ⟨(hcmps predicate hmem column hcol op constant hcmp).1.symm, ?_⟩
  rintro val ⟨⟩
  rw [toInt_integerRow hvals hcol]
  exact ⟨(intMin_le_least column).trans hlow, hhigh.trans (greatest_le_intMax column)⟩

theorem integerRow_acceptable (hholds : ComparesIntegers holds)
    (hcmps : IntegerComparisons types index predicates) (honly : OnlyBounds index predicates) :
    acceptable holds predicates (integerRow predicates values) = true := by
  apply List.all_eq_true.2
  intro predicate hmem
  obtain ⟨column, op, value, hcmp, hcol, hop⟩ := honly predicate hmem
  obtain ⟨hkind, val, rfl⟩ := hcmps predicate hmem column hcol op value hcmp
  obtain ⟨hlow, hhigh⟩ := hvals column hcol
  apply (isTrue_comparison hholds hcmp hkind (integerRow_typed hvals hcmps honly)).2
  refine ⟨_, integerRow_compared hmem hcmp, ?_⟩
  rw [toInt_integerRow hvals hcol]
  apply compare_of_limits hop
  · intro end' hend
    exact ((least_le_iff.1 hlow).2 end' (mem_limits_iff.2 ⟨predicate, hmem, op, val, hcmp, hend⟩))
  · intro end' hend
    exact ((le_greatest_iff.1 hhigh).2 end' (mem_limits_iff.2 ⟨predicate, hmem, op, val, hcmp,
      hend⟩))

/-- A row of allowed values lies between the bounds if the scans agree. -/
theorem integerRow_within (htype : type ≠ .exact) (hholds : ComparesIntegers holds)
    (hcmps : IntegerComparisons types index predicates) (htyped : ScanTypeChecks types predicates)
    (honly : OnlyBounds index predicates)
    (h : Agrees holds less types index predicates (visitIndexScan type bounds)) :
    withinBounds less types index (visitIndexScan type bounds)
      (integerRow predicates values) = true := by
  let row := integerRow predicates values
  have hrow : RowTyped types row := integerRow_typed hvals hcmps honly
  have hacc : acceptable holds predicates row = true :=
    integerRow_acceptable hvals hholds hcmps honly
  obtain ⟨found, expected, hfound, hexpected, hperm⟩ := h [row] [row]
    ⟨List.Perm.refl _, pairwise_singleton _ _⟩ (by simpa using hrow)
  rw [runSeqScan_eq htyped, filter_cons_of_pos hacc] at hexpected
  cases hexpected
  obtain ⟨rows, hrows, hres⟩ := bind_eq_some_iff.1 hfound
  rw [acceptedRows_eq (scanAccepts_eq htyped)] at hres
  rw [indexIterator, if_neg (visitIndexScan_ne_exact htype)] at hrows
  split at hrows
  · cases hrows
  · cases hrows
    cases hres
    have hkept := hperm.mem_iff.2 (by simp : row ∈ row :: List.filter _ [])
    exact (mem_filter.1 (mem_filter.1 hkept).1).2

end Limits

theorem rowKey_integerRow (hchoose : Chosen index predicates ranges type bounds)
    (huses : usesEnd type side = true) (values : Nat → Int) :
    rowKey index (integerRow predicates values) bounds.length =
      integerKey index values bounds.length := by
  apply map_congr_left
  intro column hcol
  obtain ⟨key, hkey⟩ := mem_iff_getElem?.1 hcol
  obtain ⟨predicate, hmem, op, value, _, hcmp, _⟩ := hchoose.compared huses hkey
  exact integerRow_compared hmem hcmp

theorem covers_of_agrees (hholds : ComparesIntegers holds)
    (hcmps : IntegerComparisons types index predicates) (htyped : ScanTypeChecks types predicates)
    (hplan : predicateScan index predicates = some plan) (honly : OnlyBounds index predicates)
    (h : Agrees holds less types index predicates plan) :
    Covers less types index predicates plan := by
  obtain ⟨ranges, type, bounds, hchoose, rfl⟩ := chosen_of_predicateScan hplan
  by_cases hempty : ∃ column ∈ index.columns,
      greatest types predicates column < least types predicates column
  · exact .inl hempty
  have hrange : ∀ column ∈ index.columns,
      least types predicates column ≤ greatest types predicates column := by
    intro column hcol
    by_contra hlt
    exact hempty ⟨column, hcol, by omega⟩
  by_cases htype : type = .exact
  · subst htype
    exact .inr ⟨by rintro ⟨⟩, by rintro ⟨⟩⟩
  have hlow := integerRow_within (fun column hcol => ⟨le_rfl, hrange column hcol⟩)
    htype hholds hcmps htyped honly h
  have hhigh := integerRow_within (fun column hcol => ⟨hrange column hcol, le_rfl⟩)
    htype hholds hcmps htyped honly h
  rw [withinBounds, hchoose.numAttrs_eq htype, Bool.and_eq_true] at hlow hhigh
  refine .inr ⟨?_, ?_⟩
  · intro hexists
    have huses : usesEnd type .low = true := by
      cases type <;> simp_all [lowKeyExists, visitIndexScan, usesEnd]
    rw [hchoose.numAttrs_eq htype, ← rowKey_integerRow hchoose huses]
    simpa [hexists] using hlow.1
  · intro hexists
    have huses : usesEnd type .high = true := by
      cases type <;> simp_all [highKeyExists, visitIndexScan, usesEnd]
    rw [hchoose.numAttrs_eq htype, ← rowKey_integerRow hchoose huses]
    simpa [hexists] using hhigh.2

/-! ### Scans in order -/

theorem sortColumns_eq {columns : List Nat} (hcheck : checkSortProperty sort = true)
    (hlen : sort.length ≤ columns.length)
    (hall : (sort.zip columns).all (fun (key, column) => key.column == some column) = true) :
    sort.filterMap (·.column) = columns.take sort.length := by
  induction sort generalizing columns with
  | nil => rfl
  | cons key rest ih =>
    cases columns with
    | nil => simp at hlen
    | cons column columns =>
      rw [checkSortProperty, all_cons, Bool.and_eq_true] at hcheck
      rw [zip_cons_cons, all_cons, Bool.and_eq_true, beq_iff_eq] at hall
      rw [filterMap_cons_some hall.1, length_cons, take_succ_cons,
        ih hcheck.2 (Nat.le_of_succ_le_succ hlen) hall.2]

theorem agreesInOrder_iff (htyped : ScanTypeChecks types predicates)
    (hplan : sortScan index sort = some plan) :
    AgreesInOrder holds less types index predicates sort plan ↔ index.kind = .bwTree := by
  obtain ⟨hacc, hplan⟩ := ite_none_right_eq_some.mp hplan
  cases hplan
  rw [Bool.and_eq_true, satisfiesSortWithIndex, Bool.and_eq_true, decide_eq_true_eq] at hacc
  obtain ⟨hcheck, hlen, hall⟩ := hacc
  constructor
  · intro h
    obtain ⟨found, _, hfound, _⟩ := h [] [] ⟨List.Perm.refl _, List.Pairwise.nil⟩ (by simp)
    obtain ⟨rows, hrows, _⟩ := bind_eq_some_iff.1 hfound
    cases hkind : index.kind with
    | bwTree => rfl
    | hash => simp [indexIterator, visitIndexScan, hkind] at hrows
  · intro hkind table entries hindexed hrows
    have hiterator : indexIterator less types index entries
        (visitIndexScan .ascendingOpenBoth []) = some entries := by
      simp [indexIterator, visitIndexScan, hkind, withinBounds, lowKeyExists, highKeyExists]
    refine ⟨_, _, runIndexScan_eq htyped hiterator, runSeqScan_eq htyped table,
      hindexed.perm.filter _, ?_⟩
    apply (hindexed.sorted.sublist filter_sublist).imp
    intro a b hab
    rw [sortColumns_eq hcheck hlen hall, map_take, map_take]
    exact partialLessThan_take hab _

/-! ### The two ways an index is taken -/

def holdsIntegers : CompareOp → Value → Value → Bool
  | op, .integer a, .integer b => compareIntegers op a.toInt b.toInt
  | _, _, _ => false

def firstColumn (kind : IndexKind) : Index :=
  ⟨kind, [0]⟩

/-- `a < val`, with `a` column 0. -/
def lessThan (val : Int64) : List Predicate :=
  [.compare .less (.column 0) (.constant (.integer val))]

theorem lessThan_compares {types : Nat → ColumnType} (hkind : (types 0).kind = .integer)
    (val : Int64) :
    IntegerComparisons types index (lessThan val) ∧ ScanTypeChecks types (lessThan val) := by
  constructor
  · rintro predicate hmem column _ op value hcmp
    cases mem_singleton.1 hmem
    cases hcmp
    exact ⟨hkind, val, rfl⟩
  · rintro predicate ⟨⟩
    simp [TypeChecks, checkCondition, deriveExpr, deriveOperand, peekValue, resolve,
      checkComparisonOperands, hkind, Value.kind, castToBool, comparisonType]

def oneValue (val : Int64) : Row :=
  fun column => if column = 0 then some (.integer val) else none

end Terrier.Compiler
