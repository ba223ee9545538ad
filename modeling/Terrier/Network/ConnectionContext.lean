import Mathlib.Tactic

/-!
The context of a connection, as far as it concerns transactions, and the packets
that answer a query.
-/

namespace Terrier.Network

/-- The kinds of statements. Their order matters: the traffic cop compares them. -/
inductive QueryType
  | begin | commit | rollback | select | insert | update | delete | createTable | createDb
  | createIndex | createTrigger | createSchema | createView | dropTable | dropDb | dropIndex
  | dropTrigger | dropSchema | dropView | rename | alter | dropPreparedStatement | prepare | execute
  | copy | analyze | set | show | other | invalid | explain
  deriving DecidableEq, Repr

namespace QueryType

def upTo (last type : QueryType) : Bool := type.ctorIdx ≤ last.ctorIdx

/-- The kinds of the statements that the parser represents as `DROP`. -/
def isDrop : QueryType → Bool
  | .dropTable | .dropDb | .dropIndex | .dropTrigger | .dropSchema | .dropView
  | .dropPreparedStatement => true
  | _ => false

end QueryType

inductive NetworkTransactionStateType
  | idle
  | block
  | fail
  deriving DecidableEq, Repr

inductive Response
  | commandComplete (type : QueryType) (rows : Nat)
  | errorResponse (text : String)
  | noticeResponse (text : String)
  | emptyQueryResponse
  | rowDescription
  | readyForQuery (state : NetworkTransactionStateType)
  deriving DecidableEq, Repr

inductive Ending
  | committed
  | aborted
  deriving DecidableEq, Repr

/-- The transactions of a connection: those begun so far are numbered, and those that came to an end
are listed with it. -/
structure TransactionLog where
  begun : Nat
  ended : List (Nat × Ending)
  deriving DecidableEq, Repr

namespace TransactionLog

def begin (log : TransactionLog) : TransactionLog := { log with begun := log.begun + 1 }

def finish (log : TransactionLog) (id : Nat) (ending : Ending) : TransactionLog :=
  { log with ended := log.ended ++ [(id, ending)] }

def running (log : TransactionLog) : List Nat :=
  (List.range log.begun).filter fun id => id ∉ log.ended.map Prod.fst

end TransactionLog

structure TransactionContext where
  id : Nat
  mustAbort : Bool
  deriving DecidableEq, Repr

structure ConnectionContext where
  txn : Option TransactionContext
  log : TransactionLog
  out : List Response
  deriving DecidableEq, Repr

namespace ConnectionContext

def transactionState (c : ConnectionContext) : NetworkTransactionStateType :=
  match c.txn with
  | none => .idle
  | some txn => if txn.mustAbort then .fail else .block

def write (c : ConnectionContext) (packet : Response) : ConnectionContext :=
  { c with out := c.out ++ [packet] }

def setMustAbort (c : ConnectionContext) : ConnectionContext :=
  { c with txn := c.txn.map fun txn => { txn with mustAbort := true } }

end ConnectionContext

end Terrier.Network
