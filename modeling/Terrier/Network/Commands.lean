import Terrier.Network.TrafficCop

/-!
The command that runs a simple query.
-/

namespace Terrier.Network

inductive ParseResult
  | failed
  | empty
  | statement (statement : Statement)
  deriving DecidableEq, Repr

structure Query where
  parsed : ParseResult
  outcome : Outcome
  deriving DecidableEq, Repr

namespace ConnectionContext

def finishSimpleQueryCommand (c : ConnectionContext) : ConnectionContext :=
  c.write (.readyForQuery c.transactionState)

/-- `SimpleQueryCommand::Exec`. The packets of the query before are gone. -/
def simpleQuery (c : ConnectionContext) (query : Query) :
    Except ConnectionContext ConnectionContext :=
  let c := { c with out := [] }
  match query.parsed with
  | .failed =>
    let c := c.write (.errorResponse "ERROR:  syntax error")
    let c := if c.transactionState = .block then c.setMustAbort else c
    .ok c.finishSimpleQueryCommand
  | .empty => .ok (c.write .emptyQueryResponse).finishSimpleQueryCommand
  | .statement statement =>
    if c.transactionState = .fail ∧ statement.type ≠ .commit ∧ statement.type ≠ .rollback then
      let packet := .errorResponse
        "ERROR:  current transaction is aborted, commands ignored until end of transaction block"
      .ok (c.write packet).finishSimpleQueryCommand
    else (c.executeStatement statement query.outcome).map finishSimpleQueryCommand

end ConnectionContext

end Terrier.Network
