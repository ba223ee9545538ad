import Terrier.Network.ConnectionContext

/-!
The traffic cop: a statement is bound, optimized and executed inside a transaction, its own
outside a transaction block. What these steps do is given as the outcome of the statement. A
result `error` stands for an exception, with the context as it leaves it.
-/

namespace Terrier.Network

/-- What executing a plan came to. `success` is the result of an executor of a definition;
`mustAbort` says whether the transaction was marked on the way. -/
inductive Execution
  | threw
  | finished (success mustAbort : Bool) (rows : Nat)
  deriving DecidableEq, Repr

structure Statement where
  type : QueryType
  ifExists : Bool
  deriving DecidableEq, Repr

structure Outcome where
  binds : Bool
  optimizes : Bool
  execution : Execution
  deriving DecidableEq, Repr

namespace ConnectionContext

def beginTransaction (c : ConnectionContext) : ConnectionContext :=
  { c with txn := some ⟨c.log.begun, false⟩, log := c.log.begin }

def endTransaction (c : ConnectionContext) (type : QueryType) : ConnectionContext :=
  match c.txn with
  | none => c
  | some txn =>
    { c with
      txn := none
      log := c.log.finish txn.id (if type = .commit then .committed else .aborted) }

def executeTransactionStatement (c : ConnectionContext) (type : QueryType) : ConnectionContext :=
  match type with
  | .begin =>
    if c.transactionState = .block then
      (c.write (.noticeResponse "WARNING:  there is already a transaction in progress")).write
        (.commandComplete type 0)
    else c.beginTransaction.write (.commandComplete type 0)
  | .commit =>
    if c.transactionState = .idle then
      (c.write (.noticeResponse "WARNING:  there is no transaction in progress")).write
        (.commandComplete type 0)
    else if c.transactionState = .fail then
      (c.endTransaction .rollback).write (.commandComplete .rollback 0)
    else (c.endTransaction .commit).write (.commandComplete type 0)
  | .rollback =>
    if c.transactionState = .idle then
      (c.write (.noticeResponse "WARNING:  there is no transaction in progress")).write
        (.commandComplete type 0)
    else (c.endTransaction .rollback).write (.commandComplete type 0)
  | _ => c

/-- The context once an execution has marked its transaction, if it did. -/
def marked (c : ConnectionContext) (mustAbort : Bool) : ConnectionContext :=
  if mustAbort then c.setMustAbort else c

def runExecutor (c : ConnectionContext) (type : QueryType) (execution : Execution)
    (failed : String) : Except ConnectionContext ConnectionContext :=
  match execution with
  | .threw => .error c
  | .finished success mustAbort _ =>
    let c := c.marked mustAbort
    if success then .ok (c.write (.commandComplete type 0))
    else .ok (c.write (.errorResponse failed)).setMustAbort

def executeCreateStatement (c : ConnectionContext) (type : QueryType) (execution : Execution)
    (singleStatementTxn : Bool) : Except ConnectionContext ConnectionContext :=
  match type with
  | .createTable | .createIndex | .createSchema =>
    c.runExecutor type execution "ERROR:  failed to execute CREATE"
  | .createDb =>
    if singleStatementTxn then c.runExecutor type execution "ERROR:  failed to execute CREATE"
    else
      .ok (c.write (.errorResponse
        "ERROR:  CREATE DATABASE cannot run inside a transaction block")).setMustAbort
  | _ => .ok (c.write (.errorResponse "ERROR:  unsupported CREATE statement type"))

def executeDropStatement (c : ConnectionContext) (type : QueryType) (execution : Execution)
    (singleStatementTxn : Bool) : Except ConnectionContext ConnectionContext :=
  match type with
  | .dropTable | .dropIndex | .dropSchema =>
    c.runExecutor type execution "ERROR:  failed to execute DROP"
  | .dropDb =>
    if singleStatementTxn then c.runExecutor type execution "ERROR:  failed to execute DROP"
    else
      .ok (c.write (.errorResponse
        "ERROR:  DROP DATABASE cannot run inside a transaction block")).setMustAbort
  | _ =>
    -- unlike its counterpart this branch runs on into the error of a failed executor
    .ok ((c.write (.errorResponse "ERROR:  unsupported DROP statement type")).write
      (.errorResponse "ERROR:  failed to execute DROP")).setMustAbort

def bindingFailed (c : ConnectionContext) (statement : Statement) : ConnectionContext :=
  if statement.type.isDrop && statement.ifExists then
    (c.write (.noticeResponse
      "NOTICE:  binding failed with an IF EXISTS clause, skipping statement")).write
      (.commandComplete statement.type 0)
  else (c.write (.errorResponse "ERROR:  binding failed")).setMustAbort

def codegenAndRunPhysicalPlan (c : ConnectionContext) (type : QueryType) (execution : Execution) :
    Except ConnectionContext ConnectionContext :=
  match execution with
  | .threw => .error c
  | .finished _ mustAbort rows =>
    let c := if type = .select then c.write .rowDescription else c
    let c := c.marked mustAbort
    if c.transactionState = .block then .ok (c.write (.commandComplete type rows))
    else .ok (c.write (.errorResponse "Query failed."))

def executeBound (c : ConnectionContext) (type : QueryType) (outcome : Outcome)
    (singleStatementTxn : Bool) : Except ConnectionContext ConnectionContext :=
  if outcome.optimizes then
    if QueryType.upTo .delete type then c.codegenAndRunPhysicalPlan type outcome.execution
    else if QueryType.upTo .createView type then
      c.executeCreateStatement type outcome.execution singleStatementTxn
    else if QueryType.upTo .dropView type then
      c.executeDropStatement type outcome.execution singleStatementTxn
    else .ok c
  else .error c

def endSingleStatement (c : ConnectionContext) : ConnectionContext :=
  c.endTransaction (if c.transactionState = .fail then .rollback else .commit)

def executeStatement (c : ConnectionContext) (statement : Statement) (outcome : Outcome) :
    Except ConnectionContext ConnectionContext :=
  if QueryType.upTo .rollback statement.type then
    .ok (c.executeTransactionStatement statement.type)
  else if QueryType.upTo statement.type .rename then
    .ok (c.write (.commandComplete statement.type 0))
  else do
    let singleStatementTxn := c.transactionState = .idle
    let c := if singleStatementTxn then c.beginTransaction else c
    let c ← if outcome.binds then c.executeBound statement.type outcome singleStatementTxn
      else .ok (c.bindingFailed statement)
    if singleStatementTxn then .ok c.endSingleStatement else .ok c

end ConnectionContext

end Terrier.Network
