import Terrier.Network.Commands

/-!
The rules of transaction blocks. A query keeps them all unless an exception leaves the traffic
cop, an unsupported `CREATE` is answered by an error without failing the transaction, or a
definition that reports success has marked its transaction.
-/

namespace Terrier.Network

open ConnectionContext

namespace Response

def isError : Response → Bool
  | .errorResponse _ => true
  | _ => false

def ready? : Response → Option NetworkTransactionStateType
  | .readyForQuery state => some state
  | _ => none

end Response

namespace ConnectionContext

def hasError (c : ConnectionContext) : Bool := c.out.any Response.isError

def announced (c : ConnectionContext) : List NetworkTransactionStateType :=
  c.out.filterMap Response.ready?

end ConnectionContext

namespace Query

/-- Whether the query is a statement of the given kind. -/
def is (query : Query) (type : QueryType) : Bool :=
  match query.parsed with
  | .statement statement => statement.type = type
  | _ => false

end Query

/-- The context that a query leaves, also through an exception. -/
def contextOf : Except ConnectionContext ConnectionContext → ConnectionContext
  | .ok c => c
  | .error c => c

structure Obeys (c : ConnectionContext) (query : Query) (left : ConnectionContext) : Prop where
  inBlock : c.transactionState = .block → left.hasError = true → left.transactionState = .fail
  inFail : ∀ txn, c.txn = some txn → txn.mustAbort = true →
    if query.is .commit ∨ query.is .rollback then
      left.txn = none ∧ left.log = c.log.finish txn.id .aborted
    else left.txn = c.txn ∧ left.log = c.log
  inIdle : c.txn = none → query.is .begin = false → left.txn = none ∧ (left.log = c.log ∨ left.log =
        c.log.begin.finish c.log.begun (if left.hasError then .aborted else .committed))
  ready : left.announced = [left.transactionState]

namespace QueryType

/-- The statements that are neither about transactions nor beyond what the traffic cop supports. -/
def isPlanned (type : QueryType) : Bool := !upTo .rollback type && !upTo type .rename

/-- The kinds of `CREATE` without an executor. -/
def isUnsupportedCreate : QueryType → Bool
  | .createTrigger | .createView => true
  | _ => false

def isRun (type : QueryType) (singleStatementTxn : Bool) : Bool :=
  match type with
  | .createDb | .dropDb => singleStatementTxn
  | .dropTrigger | .dropView => false
  | _ => true

end QueryType

/-- An execution that does not throw, and that does not both succeed and mark the transaction of a
definition that is a transaction of its own. -/
def Execution.contained (execution : Execution) (type : QueryType) (singleStatementTxn : Bool) :
    Bool :=
  match execution with
  | .threw => false
  | .finished success mustAbort _ =>
    QueryType.upTo .delete type || !(singleStatementTxn && success && mustAbort)

/-- What keeps a statement to the rules once it is bound: the optimizer and the execution do not
throw, and the statement is not a `CREATE` without an executor. -/
def Outcome.contained (outcome : Outcome) (type : QueryType) (singleStatementTxn : Bool) : Bool :=
  outcome.optimizes && !type.isUnsupportedCreate &&
    (!type.isRun singleStatementTxn || outcome.execution.contained type singleStatementTxn)

def Query.contained (query : Query) (state : NetworkTransactionStateType) : Bool :=
  match query.parsed with
  | .statement statement =>
    !(statement.type.isPlanned && state ≠ .fail && query.outcome.binds) ||
      query.outcome.contained statement.type (state = .idle)
  | _ => true

/-- A context in which a statement has been executed: its transaction is still there, marked or
not, an error has been written or not, and no state has been announced. -/
structure Answered (id : Nat) (log : TransactionLog) (error abort : Bool)
    (c : ConnectionContext) : Prop where
  txn : c.txn = some ⟨id, abort⟩
  log : c.log = log
  hasError : c.hasError = error
  quiet : c.announced = []

/-- What an answer must be for the rules: an error marks the transaction, and if that is the
statement's own, nothing else does. -/
def Proper (singleStatementTxn error abort : Bool) : Prop :=
  if singleStatementTxn then error = abort else error = true → abort = true

theorem proper_self (singleStatementTxn b : Bool) : Proper singleStatementTxn b b := by
  cases singleStatementTxn <;> simp [Proper]

theorem not_proper_unmarked (singleStatementTxn : Bool) :
    ¬ Proper singleStatementTxn true false := by
  cases singleStatementTxn <;> simp [Proper]

inductive Executed (id : Nat) (log : TransactionLog) (singleStatementTxn contained : Bool) :
    Except ConnectionContext ConnectionContext → Prop
  | threw (d : ConnectionContext) : d.announced = [] → contained = false →
      Executed id log singleStatementTxn contained (.error d)
  | answered (error abort : Bool) (d : ConnectionContext) : Answered id log error abort d →
      (Proper singleStatementTxn error abort ↔ contained = true) →
      Executed id log singleStatementTxn contained (.ok d)

variable {outcome : Outcome}

section Executing

variable {c : ConnectionContext} {id : Nat}

section

variable (htxn : c.txn = some ⟨id, false⟩) (hout : c.out = [])
include htxn hout

theorem bindingFailed_answered (statement : Statement) :
    ∃ failed, Answered id c.log failed failed (c.bindingFailed statement) := by
  obtain ⟨txn, log, out⟩ := c
  subst htxn hout
  rw [bindingFailed]
  split
  · exact ⟨false, rfl, rfl, rfl, rfl⟩
  · exact ⟨true, rfl, rfl, rfl, rfl⟩

variable {type : QueryType}

theorem runExecutor_executed (hddl : QueryType.upTo .delete type = false) (execution : Execution)
    (failed : String) (singleStatementTxn : Bool) :
    Executed id c.log singleStatementTxn (execution.contained type singleStatementTxn)
      (c.runExecutor type execution failed) := by
  obtain ⟨txn, log, out⟩ := c
  subst htxn hout
  cases execution with
  | threw => exact .threw _ rfl rfl
  | finished success mustAbort rows =>
    have hproper : Proper singleStatementTxn (!success) (mustAbort || !success) ↔
        (Execution.finished success mustAbort rows).contained type singleStatementTxn = true := by
      rw [Execution.contained, hddl]
      cases singleStatementTxn <;> cases success <;> cases mustAbort <;> simp [Proper]
    cases success <;> cases mustAbort <;> exact .answered _ _ _ ⟨rfl, rfl, rfl, rfl⟩ hproper

theorem codegen_executed (hdml : QueryType.upTo .delete type = true) (execution : Execution)
    (singleStatementTxn : Bool) :
    Executed id c.log singleStatementTxn (execution.contained type singleStatementTxn)
      (c.codegenAndRunPhysicalPlan type execution) := by
  obtain ⟨txn, log, out⟩ := c
  subst htxn hout
  cases execution with
  | threw => exact .threw _ rfl rfl
  | finished success mustAbort rows =>
    have hans : ∃ d, codegenAndRunPhysicalPlan ⟨some ⟨id, false⟩, log, []⟩ type
        (.finished success mustAbort rows) = .ok d ∧ Answered id log mustAbort mustAbort d := by
      by_cases hselect : type = .select
      · subst hselect
        cases mustAbort <;> exact ⟨_, rfl, rfl, rfl, rfl, rfl⟩
      · rw [codegenAndRunPhysicalPlan, if_neg hselect]
        cases mustAbort <;> exact ⟨_, rfl, rfl, rfl, rfl, rfl⟩
    obtain ⟨d, hd, hans⟩ := hans
    rw [hd]
    apply Executed.answered _ _ d hans
    rw [Execution.contained, hdml]
    exact iff_of_true (proper_self _ _) rfl

theorem executeBound_executed (hplan : type.isPlanned = true) (outcome : Outcome)
    (singleStatementTxn : Bool) :
    Executed id c.log singleStatementTxn (outcome.contained type singleStatementTxn)
      (c.executeBound type outcome singleStatementTxn) := by
  rw [executeBound, Outcome.contained]
  cases outcome.optimizes with
  | false => exact .threw c (by rw [announced, hout]; rfl) rfl
  | true =>
    cases hdml : QueryType.upTo .delete type with
    | true =>
      have hcodegen := codegen_executed htxn hout hdml outcome.execution singleStatementTxn
      cases type <;> first | exact hcodegen | cases hdml
    | false =>
      have hexecutor := runExecutor_executed htxn hout hdml outcome.execution
      obtain ⟨txn, log, out⟩ := c
      subst htxn hout
      cases type with
      | createTable | createIndex | createSchema | dropTable | dropIndex | dropSchema =>
        exact hexecutor _ singleStatementTxn
      | createDb | dropDb =>
        cases singleStatementTxn with
        | true => exact hexecutor _ true
        | false =>
          exact .answered true true _ ⟨rfl, rfl, rfl, rfl⟩ (iff_of_true (proper_self _ _) rfl)
      | createTrigger | createView =>
        exact .answered true false _ ⟨rfl, rfl, rfl, rfl⟩
          (iff_of_false (not_proper_unmarked _) Bool.false_ne_true)
      | dropTrigger | dropView =>
        exact .answered true true _ ⟨rfl, rfl, rfl, rfl⟩ (iff_of_true (proper_self _ _) rfl)
      | _ => cases hdml <;> cases hplan

end

end Executing

variable {c : ConnectionContext}

namespace ConnectionContext

@[simp] theorem hasError_finish (c : ConnectionContext) :
    c.finishSimpleQueryCommand.hasError = c.hasError := by
  simp [hasError, finishSimpleQueryCommand, write, Response.isError]

@[simp] theorem announced_finish (c : ConnectionContext) :
    c.finishSimpleQueryCommand.announced = c.announced ++ [c.transactionState] := by
  simp [announced, finishSimpleQueryCommand, write, Response.ready?]

@[simp] theorem transactionState_finish (c : ConnectionContext) :
    c.finishSimpleQueryCommand.transactionState = c.transactionState := rfl

@[simp] theorem txn_finish (c : ConnectionContext) : c.finishSimpleQueryCommand.txn = c.txn := rfl

@[simp] theorem log_finish (c : ConnectionContext) : c.finishSimpleQueryCommand.log = c.log := rfl

theorem transactionState_eq_idle : c.transactionState = .idle ↔ c.txn = none := by
  cases htxn : c.txn with
  | none => simp [transactionState, htxn]
  | some txn => cases hmust : txn.mustAbort <;> simp [transactionState, htxn, hmust]

theorem transactionState_some {txn : TransactionContext} (h : c.txn = some txn) :
    c.transactionState = if txn.mustAbort then .fail else .block := by
  rw [transactionState, h]

end ConnectionContext

/-- Nothing was announced but at the end of the command. -/
theorem ready_of_quiet (h : c.announced = []) :
    c.finishSimpleQueryCommand.announced = [c.finishSimpleQueryCommand.transactionState] := by
  rw [announced_finish, h, transactionState_finish, List.nil_append]

namespace Obeys

variable {c left : ConnectionContext} {query : Query} {id : Nat}

theorem of_idle (htxn : c.txn = none) (hready : left.announced = [left.transactionState])
    (h : query.is .begin = false → left.txn = none ∧ (left.log = c.log ∨ left.log =
        c.log.begin.finish c.log.begun (if left.hasError then .aborted else .committed))) :
    Obeys c query left where
  inBlock hblock := by
    rw [transactionState_eq_idle.2 htxn] at hblock
    cases hblock
  inFail txn hsome := by
    rw [htxn] at hsome
    cases hsome
  inIdle _ := h
  ready := hready

theorem of_block (htxn : c.txn = some ⟨id, false⟩)
    (hready : left.announced = [left.transactionState])
    (h : left.hasError = true → left.transactionState = .fail) : Obeys c query left where
  inBlock _ := h
  inFail txn hsome hmust := by
    rw [htxn] at hsome
    cases hsome
    cases hmust
  inIdle hnone := by
    rw [htxn] at hnone
    cases hnone
  ready := hready

theorem of_fail (htxn : c.txn = some ⟨id, true⟩) (hready : left.announced = [left.transactionState])
    (h : if query.is .commit ∨ query.is .rollback then
        left.txn = none ∧ left.log = c.log.finish id .aborted
      else left.txn = c.txn ∧ left.log = c.log) : Obeys c query left where
  inBlock hblock := by
    rw [transactionState_some htxn] at hblock
    cases hblock
  inFail txn hsome _ := by
    rw [htxn] at hsome
    cases hsome
    exact h
  inIdle hnone := by
    rw [htxn] at hnone
    cases hnone
  ready := hready

end Obeys

variable {query : Query} {id : Nat} {contained : Bool}
  {result : Except ConnectionContext ConnectionContext}

theorem not_obeys_threw {d : ConnectionContext} (h : d.announced = []) : ¬ Obeys c query d := by
  intro hobeys
  have hready := hobeys.ready
  rw [h] at hready
  cases hready

/-- Inside a block a statement keeps the rules if and only if its answer is proper. -/
theorem obeys_in_block (htxn : c.txn = some ⟨id, false⟩)
    (h : Executed id c.log false contained result) :
    Obeys c query (contextOf (result.map finishSimpleQueryCommand)) ↔ contained = true := by
  have hblock : c.transactionState = .block := transactionState_some htxn
  cases h with
  | threw d hquiet hcont =>
    exact iff_of_false (not_obeys_threw hquiet) (by simp [hcont])
  | answered error abort d hans hproper =>
    rw [← hproper]
    have hstate : d.transactionState = if abort then .fail else .block :=
      transactionState_some hans.txn
    constructor
    · intro hobeys herror
      have hfail := hobeys.inBlock hblock (by
        simpa [contextOf, Except.map, hans.hasError] using herror)
      cases abort with
      | true => rfl
      | false =>
        have hstill : d.transactionState = .fail := hfail
        rw [hstate] at hstill
        cases hstill
    · intro hmarks
      apply Obeys.of_block htxn (ready_of_quiet hans.quiet)
      intro herror
      have herror' : error = true := by
        simpa [contextOf, Except.map, hans.hasError] using herror
      change d.transactionState = .fail
      rw [hstate, hmarks herror']
      rfl

theorem begun_ne (log : TransactionLog) (id : Nat) (ending : Ending) :
    log.begin.finish id ending ≠ log := by
  intro h
  have hbegun : log.begun + 1 = log.begun := congrArg TransactionLog.begun h
  omega

/-- Outside of a block a statement keeps the rules if and only if its answer is proper. -/
theorem obeys_in_idle (htxn : c.txn = none) (hbegin : query.is .begin = false)
    (h : Executed c.log.begun c.log.begin true contained result) : Obeys c query
      (contextOf ((result.map endSingleStatement).map finishSimpleQueryCommand)) ↔
      contained = true := by
  cases h with
  | threw d hquiet hcont =>
    exact iff_of_false (not_obeys_threw hquiet) (by simp [hcont])
  | answered error abort d hans hproper =>
    rw [← hproper]
    obtain ⟨txn, log, out⟩ := d
    obtain ⟨rfl, rfl, herror, hquiet⟩ := hans
    have hleft : contextOf ((Except.map endSingleStatement (Except.ok (⟨some ⟨c.log.begun, abort⟩,
          c.log.begin, out⟩ : ConnectionContext))).map finishSimpleQueryCommand) =
        finishSimpleQueryCommand ⟨none,
          c.log.begin.finish c.log.begun (if abort then .aborted else .committed), out⟩ := by
      cases abort <;> rfl
    rw [hleft]
    have herror' (log : TransactionLog) :
        (finishSimpleQueryCommand ⟨none, log, out⟩).hasError = error := by
      rw [hasError_finish]
      exact herror
    constructor
    · intro hobeys
      obtain ⟨-, hlog⟩ := hobeys.inIdle htxn hbegin
      have hending := hlog.resolve_left (begun_ne _ _ _)
      rw [herror', log_finish] at hending
      cases error <;> cases abort <;> first | rfl | simp [TransactionLog.finish] at hending
    · intro hsame
      have heq : error = abort := hsame
      have hquiet' (log : TransactionLog) :
          (⟨none, log, out⟩ : ConnectionContext).announced = [] := hquiet
      apply Obeys.of_idle htxn (ready_of_quiet (hquiet' _))
      intro _
      rw [herror', heq]
      exact ⟨rfl, .inr rfl⟩

variable {statement : Statement}

theorem executeStatement_planned (hplan : statement.type.isPlanned = true) :
    c.executeStatement statement outcome = if c.txn = none then
        (if outcome.binds then c.beginTransaction.executeBound statement.type outcome true
          else .ok (c.beginTransaction.bindingFailed statement)).map endSingleStatement
      else
        if outcome.binds then c.executeBound statement.type outcome false
        else .ok (c.bindingFailed statement) := by
  simp only [QueryType.isPlanned, Bool.and_eq_true, Bool.not_eq_true'] at hplan
  simp only [executeStatement, hplan.1, hplan.2, Bool.false_eq_true, if_false]
  by_cases hidle : c.txn = none
  · simp only [transactionState_eq_idle.2 hidle, hidle, if_true, decide_true]
    cases outcome.binds <;> rfl
  · have hstate : c.transactionState ≠ .idle := fun h => hidle (transactionState_eq_idle.1 h)
    simp only [hstate, hidle, if_false, decide_false]
    cases outcome.binds with
    | true =>
      cases c.executeBound statement.type outcome false <;> rfl
    | false => rfl

theorem bound_executed (htxn : c.txn = some ⟨id, false⟩) (hout : c.out = [])
    (hplan : statement.type.isPlanned = true) (outcome : Outcome) (singleStatementTxn : Bool) :
    Executed id c.log singleStatementTxn
      (!outcome.binds || outcome.contained statement.type singleStatementTxn)
      (if outcome.binds then c.executeBound statement.type outcome singleStatementTxn
        else .ok (c.bindingFailed statement)) := by
  cases outcome.binds with
  | true => exact executeBound_executed htxn hout hplan outcome singleStatementTxn
  | false =>
    obtain ⟨failed, hfailed⟩ := bindingFailed_answered htxn hout statement
    exact .answered failed failed _ hfailed (iff_of_true (proper_self _ _) rfl)

theorem is_begin_of_planned (hplan : statement.type.isPlanned = true) :
    (⟨.statement statement, outcome⟩ : Query).is .begin = false := by
  simp only [Query.is, decide_eq_false_iff_not]
  rintro hbegin
  rw [hbegin] at hplan
  cases hplan

theorem obeys_planned (hplan : statement.type.isPlanned = true)
    (hstate : c.transactionState ≠ .fail) :
    Obeys c ⟨.statement statement, outcome⟩
        (contextOf ((executeStatement { c with out := [] } statement outcome).map
          finishSimpleQueryCommand)) ↔
      (!outcome.binds || outcome.contained statement.type (c.transactionState = .idle)) = true := by
  rw [executeStatement_planned hplan]
  obtain ⟨_ | ⟨id, _ | _⟩, log, out⟩ := c
  · have hexec := bound_executed (c := ⟨some ⟨log.begun, false⟩, log.begin, []⟩) rfl rfl
      hplan outcome true
    exact obeys_in_idle rfl (is_begin_of_planned hplan) hexec
  · have hexec := bound_executed (c := ⟨some ⟨id, false⟩, log, []⟩) rfl rfl hplan outcome false
    exact obeys_in_block rfl hexec
  · exact absurd rfl hstate

/-- Statements about transactions, and those that the traffic cop does not support. -/
theorem obeys_unplanned (hplan : statement.type.isPlanned = false)
    (hexec : c.transactionState = .fail → statement.type = .commit ∨ statement.type = .rollback) :
    Obeys c ⟨.statement statement, outcome⟩
      (contextOf ((executeStatement { c with out := [] } statement outcome).map
        finishSimpleQueryCommand)) := by
  obtain ⟨type, ifExists⟩ := statement
  obtain ⟨_ | ⟨id, _ | _⟩, log, out⟩ := c
  · cases type <;> first
      | exact .of_idle rfl rfl fun _ => ⟨rfl, .inl rfl⟩
      | exact .of_idle rfl rfl fun hbegin => by cases hbegin
      | cases hplan
  · cases type <;> first
      | exact .of_block rfl rfl fun herror => by cases herror
      | cases hplan
  · obtain hcom | hrollback := hexec rfl
    · cases hcom
      exact .of_fail rfl rfl ⟨rfl, rfl⟩
    · cases hrollback
      exact .of_fail rfl rfl ⟨rfl, rfl⟩

/-- A query keeps the rules if and only if it is contained in the state it finds. -/
theorem simpleQuery_obeys_iff (c : ConnectionContext) (query : Query) :
    Obeys c query (contextOf (c.simpleQuery query)) ↔
      query.contained c.transactionState = true := by
  obtain ⟨parsed, outcome⟩ := query
  cases parsed with
  | failed =>
    apply iff_of_true _ rfl
    obtain ⟨_ | ⟨id, _ | _⟩, log, out⟩ := c
    · exact .of_idle rfl rfl fun _ => ⟨rfl, .inl rfl⟩
    · exact .of_block rfl rfl fun _ => rfl
    · exact .of_fail rfl rfl ⟨rfl, rfl⟩
  | empty =>
    apply iff_of_true _ rfl
    obtain ⟨_ | ⟨id, _ | _⟩, log, out⟩ := c
    · exact .of_idle rfl rfl fun _ => ⟨rfl, .inl rfl⟩
    · exact .of_block rfl rfl fun herror => by cases herror
    · exact .of_fail rfl rfl ⟨rfl, rfl⟩
  | statement statement =>
    by_cases hignored : c.transactionState = .fail ∧ statement.type ≠ .commit ∧
        statement.type ≠ .rollback
    · have hres : c.simpleQuery ⟨.statement statement, outcome⟩ =
          .ok (({ c with out := [] } : ConnectionContext).write (.errorResponse
          "ERROR:  current transaction is aborted, commands ignored until end of transaction block"
            )).finishSimpleQueryCommand :=
        if_pos hignored
      have hcont : (⟨.statement statement, outcome⟩ : Query).contained
          c.transactionState = true := by
        simp [Query.contained, hignored.1]
      apply iff_of_true _ hcont
      rw [hres]
      obtain ⟨_ | ⟨id, _ | _⟩, log, out⟩ := c
      · cases hignored.1
      · cases hignored.1
      · apply Obeys.of_fail rfl rfl
        simp [Query.is, hignored.2.1, hignored.2.2, contextOf, write]
    · have hres : c.simpleQuery ⟨.statement statement, outcome⟩ =
          (executeStatement { c with out := [] } statement outcome).map finishSimpleQueryCommand :=
        if_neg hignored
      rw [hres, Query.contained]
      cases hplan : statement.type.isPlanned with
      | true =>
        have hstate : c.transactionState ≠ .fail := by
          intro hfail
          apply hignored
          refine ⟨hfail, ?_, ?_⟩ <;>
          · intro htype
            rw [htype] at hplan
            cases hplan
        rw [obeys_planned hplan hstate]
        simp [hstate, hplan]
      | false =>
        apply iff_of_true
        · apply obeys_unplanned hplan
          intro hfail
          by_contra hother
          exact hignored ⟨hfail, fun h => hother (.inl h), fun h => hother (.inr h)⟩
        · simp [hplan]

def queriesFrom : ConnectionContext → List Query → List (ConnectionContext × Query)
  | _, [] => []
  | c, query :: queries => (c, query) :: queriesFrom (contextOf (c.simpleQuery query)) queries

/-- In every sequence the rules are kept throughout if and only if every query is contained in the
state it finds. -/
theorem queries_obey_iff (c : ConnectionContext) (queries : List Query) :
    (∀ step ∈ queriesFrom c queries, Obeys step.1 step.2 (contextOf (step.1.simpleQuery step.2))) ↔
      ∀ step ∈ queriesFrom c queries, step.2.contained step.1.transactionState = true :=
  forall₂_congr fun step _ => simpleQuery_obeys_iff step.1 step.2

def createView : Query := ⟨.statement ⟨.createView, false⟩, ⟨true, true, .finished true false 0⟩⟩

def beginQuery : Query := ⟨.statement ⟨.begin, false⟩, ⟨true, true, .finished true false 0⟩⟩

/-- A connection on which nothing has happened. -/
def newConnection : ConnectionContext := ⟨none, ⟨0, []⟩, []⟩

/-- After `BEGIN`, the error that answers `CREATE VIEW` leaves the block as it was. -/
theorem createView_breaks_block : ¬ ∀ step ∈ queriesFrom newConnection [beginQuery, createView],
      Obeys step.1 step.2 (contextOf (step.1.simpleQuery step.2)) := by
  intro hobey
  have hblock := (hobey (⟨some ⟨0, false⟩, ⟨1, []⟩, [.commandComplete .begin 0,
    .readyForQuery .block]⟩, createView) (by decide)).inBlock rfl rfl
  cases hblock

end Terrier.Network
