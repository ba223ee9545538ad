import Terrier.Lib.Fallible
import Terrier.Compiler.AggregateTranslator

/-!
Which columns a grouping query returns. The payload holds the grouping columns and then the
aggregates, in an order of its own. A query is answered as asked exactly if the places computed
for its columns and for HAVING agree with those of the payload.
-/

namespace Terrier.Compiler

open Network (Value)
open Optimizer
open Fallible (mapM_eq_some_map_iff)
open List

def Group.satisfies (group : Group) (query : GroupedQuery) (tests : Tests) : Bool :=
  allHold tests (query.having.map (·.map group.value))

/-- The group comes out with the required values in their places, and is kept
exactly if it satisfies HAVING. -/
def Answers (query : GroupedQuery) (children : List Nat) (tests : Tests) (group : Group) : Prop :=
  ∃ payload, fillPayload (buildAggregatePlan query children) children group = some payload ∧
    (∀ place expr, query.requiredColumns[place]? = some expr →
      topOutput (buildAggregatePlan query children) payload place = some (group.value expr)) ∧
    keepsGroup (buildAggregatePlan query children) payload tests =
      some (group.satisfies query tests)

def layout (query : GroupedQuery) : List OutputExpr :=
  query.groupBy.map .column ++ (query.outputColumns.filterMap (·.aggregate?)).map .aggregate

structure Aligned (query : GroupedQuery) (children : List Nat) : Prop where
  /-- A required column has the same place among the child's columns and in the payload. -/
  columns : ∀ index, .column index ∈ query.required →
    (layout query)[children.idxOf index]? = some (.column index)
  /-- An expression of HAVING has the same place in the output and in the payload. -/
  having : ∀ exprs ∈ query.having, ∀ expr ∈ exprs,
    (layout query)[query.outputColumns.idxOf expr]? = some expr
  /-- No aggregate of HAVING is over a column that is put out. -/
  arguments : ∀ exprs ∈ query.having, ∀ term, .aggregate term ∈ exprs →
    ∀ index ∈ term.argument.columns, .column index ∉ query.outputColumns
  grouped : query.groupBy = [] → query.having = []

variable {expr : OutputExpr}

namespace GroupedOutputs

open GroupedQuery (addOutput)

theorem mem_addOutput {outputs : List OutputExpr} {added : OutputExpr} :
    expr ∈ addOutput outputs added ↔ expr ∈ outputs ∨ expr = added := by
  unfold addOutput
  split_ifs with h
  · exact ⟨.inl, fun h' => h'.elim id fun heq => heq ▸ h⟩
  · simp

theorem mem_foldl_addOutput {added outputs : List OutputExpr} :
    expr ∈ added.foldl addOutput outputs ↔ expr ∈ outputs ∨ expr ∈ added := by
  induction added generalizing outputs with
  | nil => simp
  | cons first rest ih => rw [foldl_cons, ih, mem_addOutput, mem_cons, or_assoc]

theorem isPrefix_foldl_addOutput (added outputs : List OutputExpr) :
    outputs <+: added.foldl addOutput outputs := by
  induction added generalizing outputs with
  | nil => exact prefix_rfl
  | cons first rest ih =>
    apply List.IsPrefix.trans _ (ih _)
    unfold addOutput
    split_ifs
    · exact prefix_rfl
    · exact prefix_append _ _

end GroupedOutputs

variable {query : GroupedQuery} {children : List Nat}

theorem mem_requiredColumns : expr ∈ query.requiredColumns ↔ expr ∈ query.required := by
  rw [GroupedQuery.requiredColumns, GroupedOutputs.mem_foldl_addOutput]
  simp

variable {place : Nat}

theorem outputColumns_of_required (h : query.requiredColumns[place]? = some expr) :
    query.outputColumns[place]? = some expr := by
  obtain ⟨rest, hrest⟩ := GroupedOutputs.isPrefix_foldl_addOutput
    (query.keptHaving.flatMap GroupedQuery.conjunctExprs) query.requiredColumns
  obtain ⟨hlt, -⟩ := List.getElem?_eq_some_iff.1 h
  rw [GroupedQuery.outputColumns, ← hrest, getElem?_append_left hlt, h]

variable {exprs : List OutputExpr}

theorem mem_outputColumns_of_having (hexprs : exprs ∈ query.keptHaving) (hexpr : expr ∈ exprs) :
    expr ∈ query.outputColumns := by
  apply GroupedOutputs.mem_foldl_addOutput.2 (.inr _)
  apply mem_flatMap.2 ⟨exprs, hexprs, _⟩
  cases hkind : expr.isColumn <;> simp [GroupedQuery.conjunctExprs, hexpr, hkind]

theorem planOutputs_aggregate {aggId : Nat} {term : Aggregate}
    (h : exprs[place]? = some (.aggregate term)) :
    ∃ offset, (planOutputs children aggId exprs)[place]? = some (.derived 1 (aggId + offset)) ∧
      (exprs.filterMap (·.aggregate?))[offset]? = some term := by
  induction exprs generalizing place aggId with
  | nil => simp at h
  | cons expr rest ih =>
    cases place with
    | zero =>
      cases h
      exact ⟨0, rfl, rfl⟩
    | succ place =>
      cases expr with
      | column index => exact ih h
      | aggregate first =>
        obtain ⟨offset, hplan, hterm⟩ := @ih _ (aggId + 1) h
        refine ⟨offset + 1, ?_, hterm⟩
        rw [← Nat.add_assoc, Nat.add_right_comm]
        exact hplan

variable {index : Nat}

theorem planOutputs_column {aggId : Nat} (h : exprs[place]? = some (.column index)) :
    (planOutputs children aggId exprs)[place]? = some (childColumn children index) := by
  induction exprs generalizing place aggId with
  | nil => simp at h
  | cons expr rest ih =>
    cases place with
    | zero =>
      cases h
      rfl
    | succ place => cases expr <;> exact ih h

def payloadOf (query : GroupedQuery) (group : Group) : Payload where
  groupByTerms := query.groupBy.map group.columns
  aggregateTerms := (query.outputColumns.filterMap (·.aggregate?)).map group.aggregates

theorem groupBy_mem_children (henum : query.Enumerates children) (h : index ∈ query.groupBy) :
    index ∈ children := by
  apply (henum.2 index).2
  simp [GroupedQuery.inputColumns, h]

theorem fillPayload_eq (henum : query.Enumerates children) (group : Group) :
    fillPayload (buildAggregatePlan query children) children group =
      some (payloadOf query group) := by
  have hterms : (query.groupBy.map (childColumn children)).mapM
      (fillTerm (children.map group.columns)) = some (query.groupBy.map group.columns) := by
    rw [mapM_map]
    apply mapM_eq_some_map_iff.2
    intro index hindex
    have hmem := groupBy_mem_children henum hindex
    have hlt := idxOf_lt_length_of_mem hmem
    simp [childColumn, hmem, fillTerm, hlt]
  unfold fillPayload
  rw [show (buildAggregatePlan query children).groupByTerms =
    query.groupBy.map (childColumn children) from rfl, hterms]
  rfl

theorem getOutput_payloadOf (group : Group) (place : Nat) :
    (payloadOf query group).getOutput place = (layout query)[place]?.map group.value := by
  unfold Payload.getOutput layout payloadOf
  rw [length_map]
  split_ifs with h
  · simp [getElem?_append_left, h, Group.value]
  · rw [getElem?_append_right (by simpa using h)]
    simp [Group.value, Function.comp_def]

theorem deriveExpr_zero (group : Group) (place : Nat) :
    (payloadOf query group).deriveExpr (.derived 0 place) =
      (layout query)[place]?.map group.value := by
  rw [← getOutput_payloadOf]
  simp [Payload.deriveExpr, Payload.getChildOutput]

def apart (expr : OutputExpr) : Group where
  columns index := if .column index = expr then some (.integer 1) else none
  aggregates term := if .aggregate term = expr then some (.integer 1) else none

theorem apart_value (expr other : OutputExpr) :
    (apart expr).value other = if other = expr then some (.integer 1) else none := by
  cases other <;> rfl

theorem place_of_apart
    (h : (layout query)[place]?.map (apart expr).value = some ((apart expr).value expr)) :
    (layout query)[place]? = some expr := by
  obtain ⟨other, hother, hvalue⟩ := Option.map_eq_some_iff.1 h
  rw [apart_value, apart_value, if_pos rfl] at hvalue
  split_ifs at hvalue with heq
  exact heq ▸ hother

theorem topOutput_aggregate (group : Group) {term : Aggregate}
    (h : query.requiredColumns[place]? = some (.aggregate term)) :
    topOutput (buildAggregatePlan query children) (payloadOf query group) place =
      some (group.aggregates term) := by
  obtain ⟨offset, hplan, hterm⟩ :=
    @planOutputs_aggregate children _ _ 0 _ (outputColumns_of_required h)
  rw [topOutput, buildAggregatePlan, hplan, Nat.zero_add]
  simp [Payload.deriveExpr, Payload.getChildOutput, Payload.getOutput, payloadOf, hterm]

theorem topOutput_column (henum : query.Enumerates children) (group : Group)
    (h : query.requiredColumns[place]? = some (.column index)) :
    topOutput (buildAggregatePlan query children) (payloadOf query group) place =
      (layout query)[children.idxOf index]?.map group.value := by
  have hreq := mem_requiredColumns.1 (mem_of_getElem? h)
  have hmem := groupBy_mem_children henum (query.required_grouped index hreq)
  rw [topOutput, buildAggregatePlan, planOutputs_column (outputColumns_of_required h),
    childColumn, if_pos hmem]
  exact deriveExpr_zero group _

/-- An expression of HAVING reads its place in the output, unless it is an aggregate
over a column put out. -/
theorem planHaving_eq (hmem : expr ∈ query.outputColumns)
    (harguments : ∀ term, expr = .aggregate term →
      ∀ index ∈ term.argument.columns, .column index ∉ query.outputColumns) :
    planHaving query.outputColumns expr = .derived 0 (query.outputColumns.idxOf expr) := by
  cases expr with
  | column index => exact if_pos hmem
  | aggregate term =>
    have hunchanged : ¬ term.argument.columns.any
        (fun index => .column index ∈ query.outputColumns) = true := by
      simpa using harguments term rfl
    rw [planHaving, if_neg hunchanged, if_pos hmem]

theorem arguments_of_deriveExpr {payload : Payload} {term : Aggregate} {value : Option Value}
    (h : payload.deriveExpr (planHaving query.outputColumns (.aggregate term)) = some value) :
    ∀ index ∈ term.argument.columns, .column index ∉ query.outputColumns := by
  intro index hindex hout
  have hchanged : term.argument.columns.any
      (fun index => .column index ∈ query.outputColumns) = true :=
    List.any_eq_true.2 ⟨index, hindex, by simpa using hout⟩
  rw [planHaving, if_pos hchanged] at h
  cases h

theorem havingValues_iff (group : Group) : (buildAggregatePlan query children).having.mapM
        (List.mapM (payloadOf query group).deriveExpr) =
      some (query.keptHaving.map (·.map group.value)) ↔
    ∀ exprs ∈ query.keptHaving, ∀ expr ∈ exprs,
      (payloadOf query group).deriveExpr (planHaving query.outputColumns expr) =
        some (group.value expr) := by
  have hconjunct (exprs : List OutputExpr) :
      (exprs.map (planHaving query.outputColumns)).mapM (payloadOf query group).deriveExpr =
        some (exprs.map group.value) ↔
      ∀ expr ∈ exprs, (payloadOf query group).deriveExpr
        (planHaving query.outputColumns expr) = some (group.value expr) := by
    rw [mapM_map]
    exact mapM_eq_some_map_iff
  rw [buildAggregatePlan, mapM_map, mapM_eq_some_map_iff]
  exact forall₂_congr fun exprs _ => hconjunct exprs

theorem keptHaving_of_grouped (h : query.groupBy = [] → query.having = []) :
    query.keptHaving = query.having := by
  unfold GroupedQuery.keptHaving
  split_ifs with hgroup
  · exact (h hgroup).symm
  · rfl

def asking (wanted : List (List (Option Value))) : Tests :=
  fun index values => wanted[index]? = some values

theorem allHold_asking_iff {wanted values : List (List (Option Value))}
    (hlen : values.length = wanted.length) :
    allHold (asking wanted) values = true ↔ values = wanted := by
  unfold allHold
  rw [List.all_eq_true]
  constructor
  · intro h
    apply ext_getElem hlen
    intro index hlt hlt'
    have hasked := h (values[index], index) (by simp [mem_zipIdx_iff_getElem?])
    have hwanted : wanted[index]? = some values[index] := by simpa [asking] using hasked
    rw [getElem?_eq_getElem hlt'] at hwanted
    exact (Option.some.inj hwanted).symm
  · rintro rfl ⟨conjunct, index⟩ hmem
    simpa [asking] using mem_zipIdx_iff_getElem?.1 hmem

/-- Every expression of HAVING is read right in a group it is tested on for the values
it has there. -/
theorem deriveExpr_of_kept {group : Group}
    (hkept : keepsGroup (buildAggregatePlan query children) (payloadOf query group)
      (asking (query.keptHaving.map (·.map group.value))) = some true) :
    ∀ exprs ∈ query.keptHaving, ∀ expr ∈ exprs,
      (payloadOf query group).deriveExpr (planHaving query.outputColumns expr) =
        some (group.value expr) := by
  obtain ⟨values, hvals, hhold⟩ := Option.map_eq_some_iff.1 hkept
  have hlen := (Fallible.mapM_eq_some_iff.1 hvals).length_eq
  have hwanted : values = query.keptHaving.map (·.map group.value) := by
    apply (allHold_asking_iff _).1 hhold
    rw [← hlen]
    simp [buildAggregatePlan]
  apply (havingValues_iff group).1
  rw [hvals, hwanted]

section

variable (henum : query.Enumerates children)
include henum

theorem answers_iff {tests : Tests} {group : Group} : Answers query children tests group ↔
      (∀ place expr, query.requiredColumns[place]? = some expr →
        topOutput (buildAggregatePlan query children) (payloadOf query group) place =
          some (group.value expr)) ∧
      keepsGroup (buildAggregatePlan query children) (payloadOf query group) tests =
        some (group.satisfies query tests) := by
  unfold Answers
  rw [fillPayload_eq henum]
  simp

theorem answers_of_aligned (h : Aligned query children) (tests : Tests) (group : Group) :
    Answers query children tests group := by
  apply (answers_iff henum).2 ⟨_, _⟩
  · intro place expr hexpr
    cases expr with
    | aggregate term => exact topOutput_aggregate group hexpr
    | column index =>
      have hreq := mem_requiredColumns.1 (mem_of_getElem? hexpr)
      rw [topOutput_column henum group hexpr, h.columns index hreq]
      rfl
  · have hkept := keptHaving_of_grouped h.grouped
    have hvals : (buildAggregatePlan query children).having.mapM
        (List.mapM (payloadOf query group).deriveExpr) =
          some (query.keptHaving.map (·.map group.value)) := by
      apply (havingValues_iff group).2
      intro exprs hexprs expr hexpr
      have hmem := mem_outputColumns_of_having hexprs hexpr
      rw [hkept] at hexprs
      have hplan := planHaving_eq hmem fun term hterm =>
        h.arguments exprs hexprs term (hterm ▸ hexpr)
      rw [hplan, deriveExpr_zero, h.having exprs hexprs expr hexpr]
      rfl
    rw [keepsGroup, hvals, hkept]
    rfl

section

variable (h : ∀ tests group, Answers query children tests group)
include h

theorem columns_of_answers (hreq : .column index ∈ query.required) :
    (layout query)[children.idxOf index]? = some (.column index) := by
  obtain ⟨place, hplace⟩ := mem_iff_getElem?.1 (mem_requiredColumns.2 hreq)
  have hvalue := ((answers_iff henum).1 (h (fun _ _ => true) (apart (.column index)))).1
    place _ hplace
  rw [topOutput_column henum _ hplace] at hvalue
  exact place_of_apart hvalue

/-- Without grouping columns HAVING is dropped, so there must be none. -/
theorem having_of_answers (hgroup : query.groupBy = []) : query.having = [] := by
  have hkept := ((answers_iff henum).1 (h (fun _ _ => false) (apart (.column 0)))).2
  have hplan : (buildAggregatePlan query children).having = [] := by
    simp [buildAggregatePlan, GroupedQuery.keptHaving, hgroup]
  rw [keepsGroup, hplan] at hkept
  cases hhaving : query.having with
  | nil => rfl
  | cons exprs rest => simp [Group.satisfies, allHold, hhaving] at hkept

theorem deriveExpr_of_answers (hexprs : exprs ∈ query.having) (hexpr : expr ∈ exprs) :
    (payloadOf query (apart expr)).deriveExpr (planHaving query.outputColumns expr) =
      some ((apart expr).value expr) := by
  have hkept := keptHaving_of_grouped (having_of_answers henum h)
  let wanted := query.keptHaving.map (·.map (apart expr).value)
  have hans := ((answers_iff henum).1 (h (asking wanted) (apart expr))).2
  have hsatisfied : (apart expr).satisfies query (asking wanted) = true := by
    apply (allHold_asking_iff _).2
    · simp [wanted, hkept]
    · simp [wanted, hkept]
  rw [hsatisfied] at hans
  exact deriveExpr_of_kept hans exprs (hkept ▸ hexprs) expr hexpr

theorem aligned_of_answers : Aligned query children where
  columns _ hreq := columns_of_answers henum h hreq
  arguments _ hexprs _ hterm :=
    arguments_of_deriveExpr (deriveExpr_of_answers henum h hexprs hterm)
  grouped := having_of_answers henum h
  having exprs hexprs expr hexpr := by
    have hvalue := deriveExpr_of_answers henum h hexprs hexpr
    have hkept := keptHaving_of_grouped (having_of_answers henum h)
    have hmem := mem_outputColumns_of_having (hkept ▸ hexprs) hexpr
    have hplan := planHaving_eq hmem fun term hterm =>
      arguments_of_deriveExpr (deriveExpr_of_answers henum h hexprs (hterm ▸ hexpr))
    rw [hplan, deriveExpr_zero] at hvalue
    exact place_of_apart hvalue

end

end

/-- A grouping query is answered as asked, whatever its tests and groups, exactly if
the places computed for its columns and for HAVING agree with those of the payload. -/
theorem grouped_query_answered_iff (query : GroupedQuery) (children : List Nat)
    (henum : query.Enumerates children) :
    (∀ tests group, Answers query children tests group) ↔ Aligned query children :=
  ⟨aligned_of_answers henum, answers_of_aligned henum⟩

/-- `SELECT a, SUM(b) … GROUP BY a HAVING a …`, with `a` column 0 and `b` column 1. -/
def sumByFirst : GroupedQuery where
  groupBy := [0]
  required := [.column 0, .aggregate ⟨.sum, false, "", .column 1⟩]
  having := [[.column 0]]
  required_grouped := by simp
  having_grouped := by simp

/-- The sums are returned if the child lists the grouping column first. -/
theorem sumByFirst_answered :
    sumByFirst.Enumerates [0, 1] ∧ ∀ tests group, Answers sumByFirst [0, 1] tests group := by
  have henum : sumByFirst.Enumerates [0, 1] := by
    refine ⟨by decide, ?_⟩
    have hinput : sumByFirst.inputColumns = [1, 0, 0] := by decide
    rw [hinput]
    simp [or_comm]
  refine ⟨henum, (grouped_query_answered_iff sumByFirst [0, 1] henum).2 ?_⟩
  exact {
    columns := by simp [sumByFirst]; decide
    having := by simp [sumByFirst]; decide
    arguments := by simp [sumByFirst]
    grouped := by simp [sumByFirst] }

/-- Listed the other way, the first column returned is the sum. -/
theorem sumByFirst_returns_sum : sumByFirst.Enumerates [1, 0] ∧ ∃ tests group,
      (fillPayload (buildAggregatePlan sumByFirst [1, 0]) [1, 0] group).bind
          (topOutput (buildAggregatePlan sumByFirst [1, 0]) · 0) = some (some (.integer 7)) ∧
      group.value (.column 0) = some (.integer 3) ∧
      ¬ Answers sumByFirst [1, 0] tests group := by
  have henum : sumByFirst.Enumerates [1, 0] := by
    refine ⟨by decide, ?_⟩
    have hinput : sumByFirst.inputColumns = [1, 0, 0] := by decide
    rw [hinput]
    simp
  refine ⟨henum, fun _ _ => true,
    ⟨fun _ => some (.integer 3), fun _ => some (.integer 7)⟩, by decide, rfl, ?_⟩
  intro h
  have hfirst := ((answers_iff henum).1 h).1 0 (.column 0) (by decide)
  revert hfirst
  decide

end Terrier.Compiler
