import Terrier.Lib.Runs
import Terrier.Network.Commands
import Terrier.Network.IoUtils

/-!
The state machine of a connection. A step runs one method; what the socket, the client and the
catalog contribute is given as an input. Between two events the machine waits, and its next
transition is `none`.
-/

namespace Terrier.Network

inductive ConnState
  | read
  | process
  | write
  | closing
  deriving DecidableEq, Repr

inductive Method
  | tryRead
  | process
  | getResult
  | tryWrite
  | tryCloseConnection
  | wait
  deriving DecidableEq, Repr

/-- The transition table. A transition that it does not define ends the server. -/
def delta : ConnState → Transition → Option (ConnState × Method)
  | .read, .wakeup => some (.read, .tryRead)
  | .read, .proceed => some (.process, .process)
  | .read, .needRead => some (.read, .wait)
  | .read, .needReadTimeout => some (.read, .wait)
  | .read, .needWrite => some (.read, .wait)
  | .process, .wakeup => some (.process, .getResult)
  | .process, .proceed => some (.write, .tryWrite)
  | .process, .needRead => some (.read, .tryRead)
  | .process, .needReadTimeout => some (.read, .wait)
  | .process, .needResult => some (.process, .wait)
  | .write, .wakeup => some (.write, .tryWrite)
  | .write, .needRead => some (.write, .wait)
  | .write, .needWrite => some (.write, .wait)
  | .write, .proceed => some (.process, .process)
  | .closing, .wakeup => some (.closing, .tryCloseConnection)
  | .closing, .needRead => some (.write, .wait)
  | .closing, .needWrite => some (.write, .wait)
  | _, .terminate => some (.closing, .tryCloseConnection)
  | _, _ => none

inductive NamespaceCreation
  | invalidDatabase
  | exhausted
  | created
  deriving DecidableEq, Repr

inductive Message
  /-- not yet a whole packet -/
  | incomplete
  /-- a packet, startup packet or command that cannot be read -/
  | malformed
  | sslRequest
  | unsupportedVersion
  | startup (conflicts : Nat) (creation : NamespaceCreation)
  | query (query : Query)
  | terminate
  /-- one of the commands that only answer -/
  | answered
  deriving DecidableEq, Repr

inductive Input
  | event (timeout : Bool)
  | io (result : Transition)
  | message (message : Message)
  | close (conflicts : Nat)
  | none
  deriving DecidableEq, Repr

structure ConnectionHandle where
  state : ConnState
  next : Transition
  context : ConnectionContext
  startup : Bool
  tempNamespace : Bool
  closed : Bool
  deriving DecidableEq, Repr

namespace TransactionLog

def attempts (log : TransactionLog) (ending : Ending) : Nat → TransactionLog
  | 0 => log
  | n + 1 => (log.begin.finish log.begun ending).attempts ending n

end TransactionLog

namespace ConnectionHandle

/-- A handle that has just been given a socket. -/
def new : ConnectionHandle := ⟨.read, .none, ⟨none, ⟨0, []⟩, []⟩, true, false, false⟩

def withLog (h : ConnectionHandle) (log : TransactionLog) : ConnectionHandle :=
  { h with context := { h.context with log := log } }

/-- The temporary namespace of the connection: every attempt has a transaction of its own. -/
def createTempNamespace (h : ConnectionHandle) (conflicts : Nat) (creation : NamespaceCreation) :
    ConnectionHandle :=
  let log := h.context.log.attempts .aborted conflicts
  match creation with
  | .invalidDatabase => { h.withLog (log.attempts .aborted 1) with next := .terminate }
  | .exhausted => { h.withLog log with next := .terminate }
  | .created =>
    { h.withLog (log.attempts .committed 1) with
      tempNamespace := true, startup := false, next := .proceed }

/-- `Process`. An exception other than that of the network layer leaves the machine where it is. -/
def process (h : ConnectionHandle) (message : Message) : Option ConnectionHandle :=
  match message with
  | .incomplete => some { h with next := .needReadTimeout }
  | .malformed => some { h with next := .terminate }
  | .sslRequest => if h.startup then some { h with next := .proceed } else none
  | .unsupportedVersion => if h.startup then some { h with next := .terminate } else none
  | .startup conflicts creation =>
    if h.startup then some (h.createTempNamespace conflicts creation) else none
  | .query query =>
    if h.startup then none
    else
      match h.context.simpleQuery query with
      | .ok context => some { h with context := context, next := .proceed }
      | .error context => some { h with context := context, next := .none }
  | .terminate => if h.startup then none else some { h with next := .terminate }
  | .answered => if h.startup then none else some { h with next := .proceed }

/-- `Teardown`: the temporary namespace is dropped, in as many transactions as it takes. -/
def teardown (h : ConnectionHandle) (conflicts : Nat) : ConnectionHandle :=
  if h.tempNamespace then
    h.withLog ((h.context.log.attempts .aborted conflicts).attempts .committed 1)
  else h

def tryCloseConnection (h : ConnectionHandle) (conflicts : Nat) : ConnectionHandle :=
  { h.teardown conflicts with next := .none, closed := true }

def ioResult (method : Method) (result : Transition) : Bool :=
  match method, result with
  | .tryRead, .proceed | .tryRead, .needRead | .tryRead, .terminate => true
  | .tryWrite, .proceed | .tryWrite, .needWrite | .tryWrite, .terminate => true
  | _, _ => false

def invoke (h : ConnectionHandle) (method : Method) (input : Input) : Option ConnectionHandle :=
  match method, input with
  | .tryRead, .io result | .tryWrite, .io result =>
    if ioResult method result then some { h with next := result } else none
  | .process, .message message => h.process message
  | .getResult, .none => some { h with next := .proceed }
  | .tryCloseConnection, .close conflicts => some (h.tryCloseConnection conflicts)
  | .wait, .none => some { h with next := .none }
  | _, _ => none

/-- A waiting machine takes an event; otherwise it goes on with the transition it is to take. -/
def step (h : ConnectionHandle) (input : Input) : Option ConnectionHandle :=
  if h.closed then none
  else if h.next = .none then
    match input with
    | .event timeout => some { h with next := if timeout then .terminate else .wakeup }
    | _ => none
  else do
    let (state, method) ← delta h.state h.next
    invoke { h with state := state } method input

end ConnectionHandle

end Terrier.Network
