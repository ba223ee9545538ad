import Terrier.Lib.Runs

/-!
The deferred action manager, next to the transactions that it waits for. An action is stamped with
the time when it is registered. The garbage collector calls `Process` with the oldest start time;
between its steps transactions begin and end, and actions are registered, also by the one being
run.
-/

namespace Terrier

/-- An action in a queue. `active` is not part of the program: the transactions
that were running when the action was registered. -/
structure DeferredAction (α : Type) where
  timestamp : Nat
  action : α
  active : List Nat
  deriving DecidableEq, Repr

/-- Where `Process` is. `clearing` and `runningBacklog` are in `ClearBacklog`, at the head of its
loop and in an action; `clearing` ends the call or `ClearBacklog` alone. The others are in
`ProcessNewActions`, with its local queue. The last count is what the call returned. -/
inductive ProcessPhase (α : Type) where
  | returned (processed : Nat)
  | clearing (oldestTxn backlogSize processed : Nat)
  | runningBacklog (oldestTxn backlogSize processed : Nat)
  | cleared (oldestTxn processed : Nat)
  | ingesting (oldestTxn processed : Nat) (newActionsLocal : List (DeferredAction α))
  | runningNew (oldestTxn processed : Nat) (newActionsLocal : List (DeferredAction α))
  | storing (processed : Nat) (newActionsLocal : List (DeferredAction α))
  deriving DecidableEq, Repr

/-- `beginning` is the transaction that holds the latch of the running transactions and is not
among them yet. `oldestTxn` is what the collector read last. The last two fields list the actions
registered and those begun. -/
structure DeferredActionManager (α : Type) where
  time : Nat
  currRunningTxns : List Nat
  beginning : Option Nat
  oldestTxn : Option Nat
  newDeferredActions : List (DeferredAction α)
  backLog : List (DeferredAction α)
  phase : ProcessPhase α
  registered : List (DeferredAction α)
  ran : List (DeferredAction α)
  deriving DecidableEq, Repr

inductive DeferredStep (α : Type) where
  | takeStartTime
  | enterRunningTxns
  | checkOutTimestamp
  | removeTransactions (timestamps : List Nat)
  | registerDeferredAction (action : α)
  | oldestTransactionStartTime
  | process
  | runBacklogAction
  | popBacklogAction
  | endBacklog
  | swapNewActions
  | runNewAction
  | popNewAction
  | endNewActions
  | storeInBacklog
  | endProcess
  deriving DecidableEq, Repr

namespace DeferredActionManager

variable {α : Type}

def init : DeferredActionManager α where
  time := 0
  currRunningTxns := []
  beginning := none
  oldestTxn := none
  newDeferredActions := []
  backLog := []
  phase := .returned 0
  registered := []
  ran := []

/-- The loops of `Process` go on as long as this is so for their queue. -/
def canRun (oldestTxn : Nat) : List (DeferredAction α) → Bool
  | [] => false
  | front :: _ => decide (oldestTxn ≥ front.timestamp)

/-- `none` means that the step cannot be taken. An action stays at the front of
its queue while it is run. -/
def step (s : DeferredActionManager α) : DeferredStep α → Option (DeferredActionManager α)
  | .takeStartTime =>
    if s.beginning = none then some { s with time := s.time + 1, beginning := some s.time }
    else none
  | .enterRunningTxns =>
    match s.beginning with
    | some start =>
      some { s with currRunningTxns := start :: s.currRunningTxns, beginning := none }
    | none => none
  | .checkOutTimestamp => some { s with time := s.time + 1 }
  | .removeTransactions timestamps =>
    if s.beginning = none then
      some { s with currRunningTxns := s.currRunningTxns.filter (· ∉ timestamps) }
    else none
  | .registerDeferredAction action =>
    let registration : DeferredAction α :=
      ⟨s.time, action, s.beginning.toList ++ s.currRunningTxns⟩
    some { s with
      newDeferredActions := s.newDeferredActions ++ [registration]
      registered := s.registered ++ [registration] }
  | .oldestTransactionStartTime =>
    if s.beginning = none then
      some { s with oldestTxn := some (s.currRunningTxns.min?.getD s.time) }
    else none
  | .process =>
    match s.phase, s.oldestTxn with
    | .returned _, some oldestTxn =>
      some { s with phase := .clearing oldestTxn s.backLog.length 0 }
    | _, _ => none
  | .runBacklogAction =>
    match s.phase, s.backLog with
    | .clearing oldestTxn backlogSize processed, front :: _ =>
      if oldestTxn ≥ front.timestamp then
        some { s with
          ran := s.ran ++ [front]
          phase := .runningBacklog oldestTxn backlogSize processed }
      else none
    | _, _ => none
  | .popBacklogAction =>
    match s.phase with
    | .runningBacklog oldestTxn backlogSize processed =>
      some { s with
        backLog := s.backLog.tail
        phase := .clearing oldestTxn backlogSize (processed + 1) }
    | _ => none
  | .endBacklog =>
    match s.phase with
    | .clearing oldestTxn backlogSize processed =>
      if canRun oldestTxn s.backLog = false then
        some { s with
          phase :=
            if backlogSize ≠ processed then .returned processed
            else .cleared oldestTxn processed }
      else none
    | _ => none
  | .swapNewActions =>
    match s.phase with
    | .cleared oldestTxn processed =>
      some { s with
        newDeferredActions := []
        phase := .ingesting oldestTxn processed s.newDeferredActions }
    | _ => none
  | .runNewAction =>
    match s.phase with
    | .ingesting oldestTxn processed (front :: rest) =>
      if oldestTxn ≥ front.timestamp then
        some { s with
          ran := s.ran ++ [front]
          phase := .runningNew oldestTxn processed (front :: rest) }
      else none
    | _ => none
  | .popNewAction =>
    match s.phase with
    | .runningNew oldestTxn processed newActionsLocal =>
      some { s with phase := .ingesting oldestTxn (processed + 1) newActionsLocal.tail }
    | _ => none
  | .endNewActions =>
    match s.phase with
    | .ingesting oldestTxn processed newActionsLocal =>
      if canRun oldestTxn newActionsLocal = false then
        some { s with phase := .storing processed newActionsLocal }
      else none
    | _ => none
  | .storeInBacklog =>
    match s.phase with
    | .storing processed (front :: rest) =>
      some { s with backLog := s.backLog ++ [front], phase := .storing processed rest }
    | _ => none
  | .endProcess =>
    match s.phase with
    | .storing processed [] => some { s with phase := .returned processed }
    | _ => none

end DeferredActionManager

end Terrier
