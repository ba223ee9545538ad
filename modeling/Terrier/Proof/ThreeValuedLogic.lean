import Terrier.Compiler.ExpressionTranslator

/-!
What the code generated for a predicate decides. A NULL is taken for false at every AND and OR and
not only at the root; as no NOT stands above one, the rows accepted are those of which the
predicate is true, its integer constants cut to 32 bits.
-/

namespace Terrier.Compiler

open Network (Value ValueKind)
open Sql
open Option

variable {holds : CompareOp → Value → Value → Bool} {columns : Nat → ValueKind} {row : Row}

def narrowOperand : Operand → Operand
  | .column index => .column index
  | .constant value => .constant (initValue value)

def narrow : Predicate → Predicate
  | .compare op left right => .compare op (narrowOperand left) (narrowOperand right)
  | .isNull operand => .isNull (narrowOperand operand)
  | .isNotNull operand => .isNotNull (narrowOperand operand)
  | .and left right => .and (narrow left) (narrow right)
  | .or left right => .or (narrow left) (narrow right)
  | .not child => .not (narrow child)

def isTrue (holds : CompareOp → Value → Value → Bool) (row : Row) (predicate : Predicate) : Bool :=
  predicate.value holds row == some true

@[simp] theorem isTrue_and (p q : Predicate) :
    isTrue holds row (.and p q) = (isTrue holds row p && isTrue holds row q) := by
  simp only [isTrue, Predicate.value]
  generalize p.value holds row = a, q.value holds row = b
  revert a b
  decide

@[simp] theorem isTrue_or (p q : Predicate) :
    isTrue holds row (.or p q) = (isTrue holds row p || isTrue holds row q) := by
  simp only [isTrue, Predicate.value]
  generalize p.value holds row = a, q.value holds row = b
  revert a b
  decide

inductive Holding (holds : CompareOp → Value → Value → Bool) (row : Row) (value : Option Value) :
    Typed → Prop
  | primitive {e : TplExpr} {val : Bool} (hvalue : value = some (.bool val))
      (heval : evaluate holds row e = some (.bool val)) : Holding holds row value (e, .bool)
  | sql {e : TplExpr} {kind : ValueKind} (heval : evaluate holds row e = some (.sql value)) :
      Holding holds row value (e, .sql kind)

variable {e left right : Typed} {op : CompareOp} {l r : Operand} {predicate p q : Predicate}

theorem holding_deriveOperand {operand : Operand}
    (h : resolve columns (deriveOperand operand) = some e) :
    Holding holds row ((narrowOperand operand).value row) e := by
  cases operand with
  | column index =>
    cases h
    exact .sql rfl
  | constant value =>
    cases value with
    | bool val =>
      cases h
      exact .primitive rfl rfl
    | integer | real | date | timestamp | string =>
      cases h
      exact .sql rfl

theorem evaluate_boolToSqlBool {e : TplExpr} {val : Bool}
    (h : evaluate holds row e = some (.bool val)) :
    evaluate holds row (.cast .boolToSqlBool e) = some (.sql (some (.bool val))) := by
  rw [evaluate, h]
  rfl

inductive Deciding (holds : CompareOp → Value → Value → Bool) (row : Row) (predicate : Predicate) :
    Typed → Prop
  | primitive {e : TplExpr}
      (heval : evaluate holds row e = some (.bool (isTrue holds row predicate))) :
      Deciding holds row predicate (e, .bool)
  | sql {e : TplExpr}
      (heval : evaluate holds row e = some (.sql ((predicate.value holds row).map .bool))) :
      Deciding holds row predicate (e, .sql .bool)

theorem deciding_compare_sql {left right : TplExpr}
    (hl : evaluate holds row left = some (.sql (l.value row)))
    (hr : evaluate holds row right = some (.sql (r.value row))) :
    Deciding holds row (.compare op l r) (.compare op left right, .sql .bool) := by
  apply Deciding.sql
  rw [evaluate, hl, hr]
  rfl

theorem deciding_compare (hl : Holding holds row (l.value row) left)
    (hr : Holding holds row (r.value row) right)
    (h : checkComparisonOperands op left right = some e) :
    Deciding holds row (.compare op l r) e := by
  cases hl with
  | @primitive el a hlval hleval =>
    cases hr with
    | @primitive er b hrval hreval =>
      cases h
      apply Deciding.primitive
      rw [evaluate, hleval, hreval, isTrue, Predicate.value, hlval, hrval]
      simp [compare3]
    | @sql er kind hreval =>
      rw [checkComparisonOperands, if_neg (by simp)] at h
      split_ifs at h with hkind
      · cases h
        apply deciding_compare_sql
        · rw [hlval, evaluate_boolToSqlBool hleval]
        · exact hreval
      · simp_all
  | @sql el kind hleval =>
    cases hr with
    | @primitive er b hrval hreval =>
      obtain ⟨_, h⟩ := ite_none_right_eq_some.mp h
      cases h
      apply deciding_compare_sql
      · exact hleval
      · rw [hrval, evaluate_boolToSqlBool hreval]
    | @sql er kind' hreval =>
      rw [checkComparisonOperands] at h
      split_ifs at h with hkind hbool hbool'
      · cases h
        exact deciding_compare_sql hleval hreval
      · simp at hbool
      · simp at hbool'

theorem deciding_castToBool (h : Deciding holds row predicate e) : (castToBool e).2 = .bool ∧
      evaluate holds row (castToBool e).1 = some (.bool (isTrue holds row predicate)) := by
  cases h with
  | primitive heval => exact ⟨rfl, heval⟩
  | sql heval =>
    constructor
    · rfl
    · change evaluate holds row (.cast .sqlBoolToBool _) = _
      rw [evaluate, heval, isTrue]
      rcases predicate.value holds row with _ | _ | _ <;> rfl

theorem deciding_and (hl : Deciding holds row p left) (hr : Deciding holds row q right)
    (h : checkLogicalOperands .and left right = some e) : Deciding holds row (.and p q) e := by
  obtain ⟨_, h⟩ := ite_none_right_eq_some.mp h
  cases h
  apply Deciding.primitive
  rw [evaluate, (deciding_castToBool hl).2, isTrue_and]
  cases isTrue holds row p with
  | true => exact (deciding_castToBool hr).2
  | false => rfl

theorem deciding_or (hl : Deciding holds row p left) (hr : Deciding holds row q right)
    (h : checkLogicalOperands .or left right = some e) : Deciding holds row (.or p q) e := by
  obtain ⟨_, h⟩ := ite_none_right_eq_some.mp h
  cases h
  apply Deciding.primitive
  rw [evaluate, (deciding_castToBool hl).2, isTrue_or]
  cases isTrue holds row p with
  | true => rfl
  | false => exact (deciding_castToBool hr).2

/-- A predicate with a NULL check gets no type; the others decide in two truth values. -/
theorem deciding_deriveExpr {expr : TplExpr} (hderive : deriveExpr predicate = some expr)
    (h : resolve columns expr = some e) : Deciding holds row (narrow predicate) e := by
  induction predicate generalizing expr e with
  | compare op left right =>
    cases hderive
    obtain ⟨l, hl, h⟩ := bind_eq_some_iff.1 h
    obtain ⟨r, hr, h⟩ := bind_eq_some_iff.1 h
    exact deciding_compare (holding_deriveOperand hl) (holding_deriveOperand hr) h
  | isNull | isNotNull =>
    cases hderive
    obtain ⟨r, hr, h⟩ := bind_eq_some_iff.1 h
    cases h
  | and left right ihl ihr | or left right ihl ihr =>
    obtain ⟨dl, hdl, hderive⟩ := bind_eq_some_iff.1 hderive
    obtain ⟨dr, hdr, hderive⟩ := bind_eq_some_iff.1 hderive
    cases hderive
    obtain ⟨l, hl, h⟩ := bind_eq_some_iff.1 h
    obtain ⟨r, hr, h⟩ := bind_eq_some_iff.1 h
    first
    | exact deciding_and (ihl hdl hl) (ihr hdr hr) h
    | exact deciding_or (ihl hdl hl) (ihr hdr hr) h
  | not child => cases hderive

def TypeChecks (columns : Nat → ValueKind) (predicate : Predicate) : Prop :=
  ((deriveExpr predicate).bind (checkCondition columns)).isSome

instance (predicate : Predicate) : Decidable (TypeChecks columns predicate) :=
  inferInstanceAs (Decidable (_ = true))

theorem accepts_eq_isTrue {predicate : Predicate} (h : TypeChecks columns predicate) :
    accepts holds columns row predicate = some (isTrue holds row (narrow predicate)) := by
  obtain ⟨condition, hcheck⟩ := isSome_iff_exists.1 h
  obtain ⟨expr, hderive, hcond⟩ := bind_eq_some_iff.1 hcheck
  obtain ⟨e, he, hcast⟩ := bind_eq_some_iff.1 hcond
  obtain ⟨_, hcast⟩ := ite_none_right_eq_some.mp hcast
  cases hcast
  have hdeciding : Deciding holds row (narrow predicate) e := deciding_deriveExpr hderive he
  rw [accepts, hderive]
  change (checkCondition columns expr).bind _ = _
  rw [hcond]
  change (evaluate holds row (castToBool e).1).bind _ = _
  rw [(deciding_castToBool hdeciding).2]
  rfl

/-! ### Constants of 32 bits -/

def Fits (val : Int64) : Prop :=
  -2 ^ 31 ≤ val.toInt ∧ val.toInt < 2 ^ 31

theorem initValue_eq_iff {val : Int64} : initValue (.integer val) = .integer val ↔ Fits val := by
  rw [initValue, Value.integer.injEq, ← Int64.toInt_inj, Int32.toInt_toInt64, Int64.toInt_toInt32,
    Fits]
  constructor
  · intro h
    have := Int.le_bmod (x := val.toInt) (m := 2 ^ 32) (by decide)
    have := Int.bmod_lt (x := val.toInt) (m := 2 ^ 32) (by decide)
    omega
  · intro h
    apply Int.bmod_eq_of_le <;> omega

def integerConstants : Predicate → List Int64
  | .compare _ left right => operand left ++ operand right
  | .isNull child | .isNotNull child => operand child
  | .and left right | .or left right => integerConstants left ++ integerConstants right
  | .not child => integerConstants child
where
  operand : Operand → List Int64
    | .constant (.integer val) => [val]
    | _ => []

theorem narrowOperand_eq {operand : Operand}
    (h : ∀ val ∈ integerConstants.operand operand, Fits val) : narrowOperand operand = operand := by
  cases operand with
  | column => rfl
  | constant value =>
    cases value with
    | integer val => rw [narrowOperand, initValue_eq_iff.2 (h val (List.mem_singleton_self val))]
    | bool | real | date | timestamp | string => rfl

theorem narrow_eq (h : ∀ val ∈ integerConstants predicate, Fits val) :
    narrow predicate = predicate := by
  induction predicate with
  | compare op left right =>
    rw [integerConstants, List.forall_mem_append] at h
    rw [narrow, narrowOperand_eq h.1, narrowOperand_eq h.2]
  | isNull child | isNotNull child => rw [narrow, narrowOperand_eq h]
  | and left right ihl ihr | or left right ihl ihr =>
    rw [integerConstants, List.forall_mem_append] at h
    rw [narrow, ihl h.1, ihr h.2]
  | not child ih => rw [narrow, ih h]

def equalTo (val : Int64) : Predicate :=
  .compare .equal (.column 0) (.constant (.integer val))

theorem equalTo_typeChecks (val : Int64) : TypeChecks (fun _ => .integer) (equalTo val) := rfl

def equalOnly (_ : CompareOp) (left right : Value) : Bool := left == right

end Terrier.Compiler
