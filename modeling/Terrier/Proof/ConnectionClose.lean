import Terrier.Network.ConnectionHandle
import Terrier.Proof.TransactionBlocks

/-!
The transactions of a connection. Along every run the only transaction that is
running on behalf of the connection is the one its context holds. Closing the
connection ends transactions of its own, but not that one.
-/

namespace Terrier.Network

open ConnectionContext
open List

variable {log : TransactionLog}

namespace TransactionLog

def Sound (log : TransactionLog) : Prop := ∀ e ∈ log.ended, e.1 < log.begun

theorem begun_not_ended (h : log.Sound) : log.begun ∉ log.ended.map Prod.fst := by
  intro hmem
  obtain ⟨e, he, hbegun⟩ := List.mem_map.1 hmem
  exact absurd (h e he) (by omega)

theorem running_begin (h : log.Sound) : log.begin.running = log.running ++ [log.begun] := by
  have hnew := begun_not_ended h
  rw [running, running, begin, range_succ, filter_append]
  simpa using hnew

theorem running_finish (log : TransactionLog) (id : Nat) (ending : Ending) :
    (log.finish id ending).running = log.running.filter fun other => other ≠ id := by
  rw [running, running, finish, List.filter_filter]
  apply filter_congr
  intro other _
  rw [map_append, ← Bool.decide_and, decide_eq_decide]
  simp [not_or, and_comm]

theorem Sound.begin (h : log.Sound) : log.begin.Sound :=
  fun e he => Nat.lt_succ_of_lt (h e he)

theorem Sound.finish (h : log.Sound) {id : Nat} (hid : id < log.begun) (ending : Ending) :
    (log.finish id ending).Sound :=
  forall_mem_append.2 ⟨h, forall_mem_singleton.2 hid⟩

theorem lt_begun_of_running {id : Nat} (h : id ∈ log.running) :
    id < log.begun := mem_range.1 (mem_filter.1 h).1

theorem attempts_keeps (h : log.Sound) (ending : Ending) (n : Nat) :
    (log.attempts ending n).Sound ∧ (log.attempts ending n).running = log.running := by
  induction n generalizing log with
  | zero => exact ⟨h, rfl⟩
  | succ n ih =>
    have hsound := h.begin.finish (Nat.lt_succ_self log.begun) ending
    obtain ⟨hkept, hrunning⟩ := ih hsound
    refine ⟨hkept, hrunning.trans ?_⟩
    rw [running_finish, running_begin h, filter_append]
    have hold : ∀ id ∈ log.running, ¬ id = log.begun :=
      fun id hid => (lt_begun_of_running hid).ne
    simpa using hold

end TransactionLog

structure Tracked (c : ConnectionContext) : Prop where
  sound : c.log.Sound
  running : c.log.running = (c.txn.map TransactionContext.id).toList

namespace Tracked

variable {c : ConnectionContext}

section

variable (h : Tracked c)
include h

theorem write (packet : Response) : Tracked (c.write packet) :=
  ⟨h.sound, h.running⟩

theorem cleared : Tracked { c with out := [] } := ⟨h.sound, h.running⟩

theorem setMustAbort : Tracked c.setMustAbort := by
  refine ⟨h.sound, h.running.trans ?_⟩
  rw [ConnectionContext.setMustAbort, Option.map_map]
  rfl

theorem marked (mustAbort : Bool) : Tracked (c.marked mustAbort) := by
  cases mustAbort with
  | true => exact h.setMustAbort
  | false => exact h

theorem beginTransaction (htxn : c.txn = none) : Tracked c.beginTransaction := by
  refine ⟨h.sound.begin, ?_⟩
  have hrunning := h.running
  rw [htxn] at hrunning
  exact (TransactionLog.running_begin h.sound).trans (by rw [hrunning]; rfl)

theorem endTransaction (type : QueryType) : Tracked (c.endTransaction type) := by
  cases htxn : c.txn with
  | none =>
    rw [ConnectionContext.endTransaction, htxn]
    exact h
  | some txn =>
    have hrunning : c.log.running = [txn.id] := by
      rw [h.running, htxn]
      rfl
    have hid := TransactionLog.lt_begun_of_running
      (show txn.id ∈ c.log.running by rw [hrunning]; exact mem_singleton_self _)
    rw [ConnectionContext.endTransaction, htxn]
    refine ⟨h.sound.finish hid _, ?_⟩
    rw [TransactionLog.running_finish, hrunning]
    simp

theorem executeTransactionStatement {type : QueryType}
    (hstate : c.transactionState = .fail → type ≠ .begin) :
    Tracked (c.executeTransactionStatement type) := by
  cases type with
  | begin =>
    rw [ConnectionContext.executeTransactionStatement]
    split
    · exact (h.write _).write _
    · rename_i hblock
      have htxn : c.txn = none := by
        cases htxn : c.txn with
        | none => rfl
        | some txn =>
          cases hmust : txn.mustAbort with
          | true =>
            exact absurd rfl (hstate (by simp [transactionState, htxn, hmust]))
          | false => exact absurd (by simp [transactionState, htxn, hmust]) hblock
      exact (h.beginTransaction htxn).write _
  | commit =>
    rw [ConnectionContext.executeTransactionStatement]
    split
    · exact (h.write _).write _
    · split
      · exact (h.endTransaction _).write _
      · exact (h.endTransaction _).write _
  | rollback =>
    rw [ConnectionContext.executeTransactionStatement]
    split
    · exact (h.write _).write _
    · exact (h.endTransaction _).write _
  | _ => exact h

variable (type : QueryType)

theorem runExecutor (execution : Execution) (failed : String) :
    Tracked (contextOf (c.runExecutor type execution failed)) := by
  cases execution with
  | threw => exact h
  | finished success mustAbort rows =>
    cases success with
    | true => exact (h.marked mustAbort).write _
    | false => exact ((h.marked mustAbort).write _).setMustAbort

theorem executeCreateStatement (execution : Execution) (singleStatementTxn : Bool) :
    Tracked (contextOf (c.executeCreateStatement type execution singleStatementTxn)) := by
  rw [ConnectionContext.executeCreateStatement.eq_def]
  split
  · exact h.runExecutor _ _ _
  · exact h.runExecutor _ _ _
  · exact h.runExecutor _ _ _
  · split
    · exact h.runExecutor _ _ _
    · exact (h.write _).setMustAbort
  · exact h.write _

theorem executeDropStatement (execution : Execution) (singleStatementTxn : Bool) :
    Tracked (contextOf (c.executeDropStatement type execution singleStatementTxn)) := by
  rw [ConnectionContext.executeDropStatement.eq_def]
  split
  · exact h.runExecutor _ _ _
  · exact h.runExecutor _ _ _
  · exact h.runExecutor _ _ _
  · split
    · exact h.runExecutor _ _ _
    · exact (h.write _).setMustAbort
  · exact ((h.write _).write _).setMustAbort

theorem codegenAndRunPhysicalPlan (execution : Execution) :
    Tracked (contextOf (c.codegenAndRunPhysicalPlan type execution)) := by
  cases execution with
  | threw => exact h
  | finished success mustAbort rows =>
    have hdescribed : Tracked (if type = .select then c.write .rowDescription else c) := by
      split
      · exact h.write _
      · exact h
    rw [ConnectionContext.codegenAndRunPhysicalPlan]
    generalize (if type = .select then c.write .rowDescription else c) = d at hdescribed
    split
    · exact (hdescribed.marked mustAbort).write _
    · exact (hdescribed.marked mustAbort).write _

theorem executeBound (outcome : Outcome) (singleStatementTxn : Bool) :
    Tracked (contextOf (c.executeBound type outcome singleStatementTxn)) := by
  rw [ConnectionContext.executeBound]
  split
  · split
    · exact h.codegenAndRunPhysicalPlan _ _
    · split
      · exact h.executeCreateStatement _ _ _
      · split
        · exact h.executeDropStatement _ _ _
        · exact h
  · exact h

theorem bindingFailed (statement : Statement) : Tracked (c.bindingFailed statement) := by
  rw [ConnectionContext.bindingFailed]
  split
  · exact (h.write _).write _
  · exact (h.write _).setMustAbort

end

theorem of_map {result : Except ConnectionContext ConnectionContext}
    {f : ConnectionContext → ConnectionContext} (h : Tracked (contextOf result))
    (hf : ∀ {d}, Tracked d → Tracked (f d)) : Tracked (contextOf (result.map f)) := by
  cases result with
  | ok d => exact hf h
  | error d => exact h

theorem executeStatement (h : Tracked c) {statement : Statement} (outcome : Outcome)
    (hstate : c.transactionState = .fail → statement.type = .commit ∨ statement.type = .rollback) :
    Tracked (contextOf (c.executeStatement statement outcome)) := by
  cases hplan : statement.type.isPlanned with
  | true =>
    have hbound {d : ConnectionContext} (hd : Tracked d) (singleStatementTxn : Bool) :
        Tracked (contextOf (if outcome.binds then
          d.executeBound statement.type outcome singleStatementTxn
          else .ok (d.bindingFailed statement))) := by
      split
      · exact hd.executeBound _ _ _
      · exact hd.bindingFailed _
    rw [executeStatement_planned hplan]
    split
    · rename_i hidle
      exact (hbound (h.beginTransaction hidle) true).of_map fun hd => hd.endTransaction _
    · exact hbound h false
  | false =>
    rw [ConnectionContext.executeStatement]
    split
    · apply h.executeTransactionStatement
      intro hfail hbegin
      obtain hcom | hrollback := hstate hfail
      · rw [hbegin] at hcom
        cases hcom
      · rw [hbegin] at hrollback
        cases hrollback
    · split
      · exact h.write _
      · rename_i htransaction hunsupported
        simp [QueryType.isPlanned, htransaction, hunsupported] at hplan

theorem finishSimpleQueryCommand (h : Tracked c) : Tracked c.finishSimpleQueryCommand := h.write _

theorem simpleQuery (h : Tracked c) (query : Query) :
    Tracked (contextOf (c.simpleQuery query)) := by
  obtain ⟨parsed, outcome⟩ := query
  cases parsed with
  | failed =>
    have hwrit := h.cleared.write (.errorResponse "ERROR:  syntax error")
    rw [ConnectionContext.simpleQuery]
    dsimp only
    split
    · exact hwrit.setMustAbort.finishSimpleQueryCommand
    · exact hwrit.finishSimpleQueryCommand
  | empty => exact (h.cleared.write _).finishSimpleQueryCommand
  | statement statement =>
    rw [ConnectionContext.simpleQuery]
    dsimp only
    split
    · exact (h.cleared.write _).finishSimpleQueryCommand
    · rename_i hexec
      refine (h.cleared.executeStatement outcome fun hfail => ?_).of_map finishSimpleQueryCommand
      by_contra hother
      exact hexec ⟨hfail, fun h => hother (.inl h), fun h => hother (.inr h)⟩

theorem withLog {h : ConnectionHandle} (hc : Tracked h.context) (hsound : log.Sound)
    (hrunning : log.running = h.context.log.running) :
    Tracked (h.withLog log).context := ⟨hsound, hrunning.trans hc.running⟩

end Tracked

namespace ConnectionHandle

variable {h h' : ConnectionHandle}

section

variable (hc : Tracked h.context)
include hc

theorem tracked_createTempNamespace (conflicts : Nat) (creation : NamespaceCreation) :
    Tracked (h.createTempNamespace conflicts creation).context := by
  obtain ⟨hsound, hrunning⟩ := TransactionLog.attempts_keeps hc.sound .aborted conflicts
  cases creation with
  | invalidDatabase =>
    obtain ⟨hsound', hrunning'⟩ := TransactionLog.attempts_keeps hsound .aborted 1
    exact hc.withLog hsound' (hrunning'.trans hrunning)
  | exhausted => exact hc.withLog hsound hrunning
  | created =>
    obtain ⟨hsound', hrunning'⟩ := TransactionLog.attempts_keeps hsound .committed 1
    exact hc.withLog hsound' (hrunning'.trans hrunning)

theorem tracked_process {message : Message} (hstep : h.process message = some h') :
    Tracked h'.context := by
  cases message with
  | incomplete | malformed =>
    cases hstep
    exact hc
  | sslRequest | unsupportedVersion =>
    obtain ⟨-, rfl⟩ := Runs.of_guard hstep
    exact hc
  | startup conflicts creation =>
    obtain ⟨-, rfl⟩ := Runs.of_guard hstep
    exact tracked_createTempNamespace hc conflicts creation
  | query query =>
    have hquery := hc.simpleQuery query
    rw [process] at hstep
    split at hstep
    · cases hstep
    · split at hstep
      · rename_i context hres
        cases hstep
        rw [hres] at hquery
        exact hquery
      · rename_i context hres
        cases hstep
        rw [hres] at hquery
        exact hquery
  | terminate | answered =>
    rw [process] at hstep
    split at hstep
    · cases hstep
    · cases hstep
      exact hc

theorem tracked_teardown (conflicts : Nat) : Tracked (h.teardown conflicts).context := by
  obtain ⟨hsound, hrunning⟩ := TransactionLog.attempts_keeps hc.sound .aborted conflicts
  obtain ⟨hsound', hrunning'⟩ := TransactionLog.attempts_keeps hsound .committed 1
  rw [teardown]
  split
  · exact hc.withLog hsound' (hrunning'.trans hrunning)
  · exact hc

theorem tracked_invoke {method : Method} {input : Input} (hstep : h.invoke method input = some h') :
    Tracked h'.context := by
  rw [invoke.eq_def] at hstep
  split at hstep
  · obtain ⟨-, rfl⟩ := Runs.of_guard hstep
    exact hc
  · obtain ⟨-, rfl⟩ := Runs.of_guard hstep
    exact hc
  · exact tracked_process hc hstep
  · cases hstep
    exact hc
  · cases hstep
    exact tracked_teardown hc _
  · cases hstep
    exact hc
  · cases hstep

end

theorem step_cases {input : Input} (hstep : h.step input = some h') :
    (∃ timeout, input = .event timeout ∧
      h' = { h with next := if timeout then .terminate else .wakeup }) ∨
    ∃ state method, delta h.state h.next = some (state, method) ∧
      invoke { h with state := state } method input = some h' := by
  rw [step.eq_def] at hstep
  split at hstep
  · cases hstep
  · split at hstep
    · cases input with
      | event timeout =>
        cases hstep
        exact .inl ⟨timeout, rfl, rfl⟩
      | _ => cases hstep
    · obtain ⟨⟨state, method⟩, hdelta, hinvoke⟩ := Option.bind_eq_some_iff.1 hstep
      exact .inr ⟨state, method, hdelta, hinvoke⟩

theorem tracked_step {input : Input} (hstep : h.step input = some h') (hc : Tracked h.context) :
    Tracked h'.context := by
  obtain ⟨timeout, -, rfl⟩ | ⟨state, method, -, hinvoke⟩ := step_cases hstep
  · exact hc
  · have hstate : Tracked ({ h with state := state } : ConnectionHandle).context := hc
    exact tracked_invoke hstate hinvoke

theorem tracked_new : Tracked new.context := ⟨by simp [TransactionLog.Sound, new], rfl⟩

theorem tracked_run {inputs : List Input} (hrun : Runs.run step new inputs = some h) :
    Tracked h.context :=
  Runs.run_keeps (p := fun h => Tracked h.context) tracked_step hrun tracked_new

theorem txn_of_closes {conflicts : Nat} (hstep : h.step (.close conflicts) = some h') :
    h'.context.txn = h.context.txn := by
  obtain ⟨timeout, hevent, -⟩ | ⟨state, method, -, hinvoke⟩ := step_cases hstep
  · cases hevent
  · cases method with
    | tryCloseConnection =>
      cases hinvoke
      simp only [tryCloseConnection, teardown]
      split <;> rfl
    | _ => cases hinvoke

/-- After a connection is closed none of its transactions runs, if and only if it was not in a
transaction when its closing began. -/
theorem closed_running_iff {inputs : List Input} {conflicts : Nat}
    (hrun : Runs.run step new inputs = some h) (hclose : h.step (.close conflicts) = some h') :
    h'.context.log.running = [] ↔ h.context.transactionState = .idle := by
  have htracked := tracked_step hclose (tracked_run hrun)
  rw [htracked.running, txn_of_closes hclose, transactionState_eq_idle]
  cases h.context.txn with
  | none => simp
  | some txn => simp

/-- The connection a client makes, up to the first query. -/
def connect : List Input :=
  [.event false, .io .proceed, .message (.startup 0 .created), .io .proceed]

/-- A statement about transactions, and the writing of its answer. -/
def transactionStatement (type : QueryType) : List Input :=
  [.message (.query ⟨.statement ⟨type, false⟩, ⟨true, true, .finished true false 0⟩⟩), .io .proceed]

/-- A client that commits before it terminates. -/
theorem closed_after_commit : ∃ h h', Runs.run step new (connect ++ transactionStatement .begin ++
        transactionStatement .commit ++ [.message .terminate]) = some h ∧
      h.step (.close 0) = some h' ∧ h'.context.log.running = [] := by
  have hrun : Runs.run step new (connect ++ transactionStatement .begin ++
      transactionStatement .commit ++ [.message .terminate]) = some ⟨.process, .terminate,
        ⟨none, ⟨2, [(0, .committed), (1, .committed)]⟩,
          [.commandComplete .commit 0, .readyForQuery .idle]⟩, false, true, false⟩ := by
    decide +kernel
  refine ⟨_, _, hrun, rfl, ?_⟩
  exact (closed_running_iff hrun rfl).2 rfl

/-- A client that disconnects inside a block: the connection is closed and its transaction runs. -/
theorem closed_in_block : ((Runs.run step new (connect ++ transactionStatement .begin ++
        [.message .incomplete, .none, .event false, .io .terminate, .close 0])).map
      fun h => (h.closed, h.context.log.running)) = some (true, [1]) := by
  decide +kernel

end ConnectionHandle

end Terrier.Network
