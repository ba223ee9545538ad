import Terrier.Transaction.DeferredActionManager

/-!
Deferred actions run in the order of registration, each at most once, and an action waits for
every transaction that was active when it was registered. A start time that the collector read
stays a lower bound of what is active.
-/

namespace Terrier

open List

namespace ProcessPhase

variable {α : Type}

/-- The start time that a call of `Process` compares with. -/
def oldestTxn? : ProcessPhase α → Option Nat
  | returned _ => none
  | clearing oldestTxn _ _ => some oldestTxn
  | runningBacklog oldestTxn _ _ => some oldestTxn
  | cleared oldestTxn _ => some oldestTxn
  | ingesting oldestTxn _ _ => some oldestTxn
  | runningNew oldestTxn _ _ => some oldestTxn
  | storing _ _ => none

def waiting (backLog : List (DeferredAction α)) : ProcessPhase α → List (DeferredAction α)
  | returned _ => backLog
  | clearing _ _ _ => backLog
  | runningBacklog _ _ _ => backLog.tail
  | cleared _ _ => backLog
  | ingesting _ _ newActionsLocal => backLog ++ newActionsLocal
  | runningNew _ _ newActionsLocal => backLog ++ newActionsLocal.tail
  | storing _ newActionsLocal => backLog ++ newActionsLocal

def Fits (backLog : List (DeferredAction α)) : ProcessPhase α → Prop
  | returned _ => True
  | clearing _ backlogSize processed => backlogSize = processed + backLog.length
  | runningBacklog _ backlogSize processed =>
    backlogSize = processed + backLog.length ∧ backLog ≠ []
  | cleared _ _ => backLog = []
  | ingesting _ _ _ => backLog = []
  | runningNew _ _ newActionsLocal => backLog = [] ∧ newActionsLocal ≠ []
  | storing _ _ => True

end ProcessPhase

namespace DeferredActionManager

variable {α : Type} {s s' : DeferredActionManager α}

def activeTxns (s : DeferredActionManager α) : List Nat :=
  s.beginning.toList ++ s.currRunningTxns

/-- What a step can do: transactions, registrations and reads of the oldest
start time, and the steps of `Process`. -/
inductive Move (s : DeferredActionManager α) : DeferredActionManager α → Prop
  | takeStartTime (hlatch : s.beginning = none) :
      Move s { s with time := s.time + 1, beginning := some s.time }
  | enterRunningTxns (start : Nat) (hbeginning : s.beginning = some start) :
      Move s { s with currRunningTxns := start :: s.currRunningTxns, beginning := none }
  | checkOutTimestamp : Move s { s with time := s.time + 1 }
  | removeTransactions (timestamps : List Nat) :
      Move s { s with currRunningTxns := s.currRunningTxns.filter (· ∉ timestamps) }
  | register (action : α) :
      Move s { s with
        newDeferredActions := s.newDeferredActions ++ [⟨s.time, action, s.activeTxns⟩]
        registered := s.registered ++ [⟨s.time, action, s.activeTxns⟩] }
  | oldest (hlatch : s.beginning = none) :
      Move s { s with oldestTxn := some (s.currRunningTxns.min?.getD s.time) }
  | process (backLog newActions : List (DeferredAction α)) (phase : ProcessPhase α)
      (holdest : ∀ o, phase.oldestTxn? = some o →
        s.phase.oldestTxn? = some o ∨ s.oldestTxn = some o)
      (hwaiting : s.phase.waiting s.backLog ++ s.newDeferredActions =
        phase.waiting backLog ++ newActions)
      (hfits : phase.Fits backLog) :
      Move s { s with newDeferredActions := newActions, backLog := backLog, phase := phase }
  | run (front : DeferredAction α) (rest : List (DeferredAction α)) (phase : ProcessPhase α)
      (oldestTxn : Nat) (hbefore : s.phase.oldestTxn? = some oldestTxn)
      (holdest : phase.oldestTxn? = some oldestTxn) (hready : oldestTxn ≥ front.timestamp)
      (hwaiting : s.phase.waiting s.backLog = front :: rest)
      (hrest : phase.waiting s.backLog = rest) (hfits : phase.Fits s.backLog) :
      Move s { s with ran := s.ran ++ [front], phase := phase }

theorem step_move {action : DeferredStep α} (hfits : s.phase.Fits s.backLog)
    (h : s.step action = some s') : Move s s' := by
  obtain ⟨time, running, beginning, oldest, newActions, backLog, phase, registered, ran⟩ := s
  cases action with
  | takeStartTime =>
    obtain ⟨hlatch, rfl⟩ := Runs.of_guard h
    exact .takeStartTime hlatch
  | enterRunningTxns =>
    cases beginning with
    | none => cases h
    | some start =>
      cases h
      exact .enterRunningTxns start rfl
  | checkOutTimestamp =>
    cases h
    exact .checkOutTimestamp
  | removeTransactions timestamps =>
    obtain ⟨-, rfl⟩ := Runs.of_guard h
    exact .removeTransactions timestamps
  | registerDeferredAction action =>
    cases h
    exact .register action
  | oldestTransactionStartTime =>
    obtain ⟨hlatch, rfl⟩ := Runs.of_guard h
    exact .oldest hlatch
  | process =>
    cases phase with
    | returned processed =>
      cases oldest with
      | none => cases h
      | some oldestTxn =>
        cases h
        exact .process _ _ _ (fun o ho => .inr ho) rfl (Nat.zero_add _).symm
    | _ => cases h
  | runBacklogAction =>
    cases phase with
    | clearing oldestTxn backlogSize processed =>
      cases backLog with
      | nil => cases h
      | cons front rest =>
        obtain ⟨hready, rfl⟩ := Runs.of_guard h
        exact .run front rest _ oldestTxn rfl rfl hready rfl rfl ⟨hfits, cons_ne_nil _ _⟩
    | _ => cases h
  | popBacklogAction =>
    cases phase with
    | runningBacklog oldestTxn backlogSize processed =>
      cases h
      have hsize : backlogSize = processed + backLog.length := hfits.1
      have hlen : 0 < backLog.length := length_pos_iff.mpr hfits.2
      refine .process _ _ _ (fun o ho => .inl ho) rfl ?_
      change backlogSize = processed + 1 + backLog.tail.length
      rw [length_tail]
      omega
    | _ => cases h
  | endBacklog =>
    cases phase with
    | clearing oldestTxn backlogSize processed =>
      obtain ⟨-, rfl⟩ := Runs.of_guard h
      have hlen : backlogSize = processed + backLog.length := hfits
      by_cases hsize : backlogSize = processed
      · have hnil : backLog = [] := eq_nil_of_length_eq_zero (by omega)
        rw [if_neg (not_not_intro hsize)]
        exact .process _ _ _ (fun o ho => .inl ho) rfl hnil
      · rw [if_pos hsize]
        exact .process _ _ _ (fun o ho => nomatch ho) rfl trivial
    | _ => cases h
  | swapNewActions =>
    cases phase with
    | cleared oldestTxn processed =>
      cases h
      exact .process _ _ _ (fun o ho => .inl ho) (append_nil _).symm hfits
    | _ => cases h
  | runNewAction =>
    cases phase with
    | ingesting oldestTxn processed newActionsLocal =>
      cases newActionsLocal with
      | nil => cases h
      | cons front rest =>
        obtain ⟨hready, rfl⟩ := Runs.of_guard h
        cases hfits
        exact .run front rest _ oldestTxn rfl rfl hready rfl rfl ⟨rfl, cons_ne_nil _ _⟩
    | _ => cases h
  | popNewAction =>
    cases phase with
    | runningNew oldestTxn processed newActionsLocal =>
      cases h
      exact .process _ _ _ (fun o ho => .inl ho) rfl hfits.1
    | _ => cases h
  | endNewActions =>
    cases phase with
    | ingesting oldestTxn processed newActionsLocal =>
      obtain ⟨-, rfl⟩ := Runs.of_guard h
      exact .process _ _ _ (fun o ho => nomatch ho) rfl trivial
    | _ => cases h
  | storeInBacklog =>
    cases phase with
    | storing processed newActionsLocal =>
      cases newActionsLocal with
      | nil => cases h
      | cons front rest =>
        cases h
        refine .process _ _ _ (fun o ho => nomatch ho) ?_ trivial
        simp [ProcessPhase.waiting]
    | _ => cases h
  | endProcess =>
    cases phase with
    | storing processed newActionsLocal =>
      cases newActionsLocal with
      | nil =>
        cases h
        refine .process _ _ _ (fun o ho => nomatch ho) ?_ trivial
        simp [ProcessPhase.waiting]
      | cons => cases h
    | _ => cases h

/-- A start time that the collector has read, or that `Process` was called with. -/
def Holds (s : DeferredActionManager α) (o : Nat) : Prop :=
  s.oldestTxn = some o ∨ s.phase.oldestTxn? = some o

structure Waits (s : DeferredActionManager α) : Prop where
  started : ∀ start ∈ s.activeTxns, start < s.time
  bound : ∀ o, s.Holds o → o ≤ s.time ∧ ∀ start ∈ s.activeTxns, o ≤ start
  stamped : ∀ d ∈ s.registered, d.timestamp ≤ s.time ∧ ∀ start ∈ d.active, start < d.timestamp
  ordered : s.ran ++ (s.phase.waiting s.backLog ++ s.newDeferredActions) = s.registered
  left : ∀ d ∈ s.ran, ∀ start ∈ d.active, start ∉ s.activeTxns
  fits : s.phase.Fits s.backLog

theorem Waits.init : (init : DeferredActionManager α).Waits where
  started := by simp [activeTxns, DeferredActionManager.init]
  bound := by
    intro o ho
    rcases ho with ho | ho <;> cases ho
  stamped := by simp [DeferredActionManager.init]
  ordered := rfl
  left := by simp [DeferredActionManager.init]
  fits := trivial

theorem Waits.ran_mem (h : s.Waits) {d : DeferredAction α} (hd : d ∈ s.ran) : d ∈ s.registered := by
  rw [← h.ordered]
  exact mem_append_left _ hd

/-- A transaction that was active at the registration of an action that ran is
older than the current time. -/
theorem Waits.active_lt (h : s.Waits) {d : DeferredAction α} (hd : d ∈ s.ran) {start : Nat}
    (hstart : start ∈ d.active) : start < s.time := by
  obtain ⟨hle, hact⟩ := h.stamped d (h.ran_mem hd)
  exact (hact start hstart).trans_le hle

theorem Waits.move (h : s.Waits) (hmove : Move s s') : s'.Waits := by
  cases hmove with
  | takeStartTime hlatch =>
    have hact : ∀ start, start ∈ activeTxns
        { s with time := s.time + 1, beginning := some s.time } ↔
        start = s.time ∨ start ∈ s.activeTxns := by
      simp [activeTxns, hlatch]
    refine { h with started := ?_, bound := ?_, stamped := ?_, left := ?_ }
    · intro start hstart
      rcases (hact start).mp hstart with rfl | hold
      · exact Nat.lt_succ_self _
      · exact (h.started start hold).trans (Nat.lt_succ_self _)
    · intro o ho
      obtain ⟨hle, hall⟩ := h.bound o ho
      refine ⟨hle.trans (Nat.le_succ _), fun start hstart => ?_⟩
      rcases (hact start).mp hstart with rfl | hold
      · exact hle
      · exact hall start hold
    · intro d hd
      exact ⟨(h.stamped d hd).1.trans (Nat.le_succ _), (h.stamped d hd).2⟩
    · intro d hd start hstart hmem
      rcases (hact start).mp hmem with rfl | hold
      · exact (h.active_lt hd hstart).ne rfl
      · exact h.left d hd start hstart hold
  | enterRunningTxns start hbeginning =>
    have hact : activeTxns
        { s with currRunningTxns := start :: s.currRunningTxns, beginning := none } =
        s.activeTxns := by
      simp [activeTxns, hbeginning]
    exact { h with
      started := by rw [hact]; exact h.started
      bound := fun o ho => by rw [hact]; exact h.bound o ho
      left := by rw [hact]; exact h.left }
  | checkOutTimestamp =>
    exact { h with
      started := fun start hstart => (h.started start hstart).trans (Nat.lt_succ_self _)
      bound := fun o ho => ⟨(h.bound o ho).1.trans (Nat.le_succ _), (h.bound o ho).2⟩
      stamped := fun d hd => ⟨(h.stamped d hd).1.trans (Nat.le_succ _), (h.stamped d hd).2⟩ }
  | removeTransactions timestamps =>
    have hact : ∀ start ∈ activeTxns
        { s with currRunningTxns := s.currRunningTxns.filter (· ∉ timestamps) },
        start ∈ s.activeTxns := by
      intro start hstart
      simp only [activeTxns, mem_append, mem_filter] at hstart ⊢
      exact hstart.imp_right And.left
    exact { h with
      started := fun start hstart => h.started start (hact start hstart)
      bound := fun o ho =>
        ⟨(h.bound o ho).1, fun start hstart => (h.bound o ho).2 start (hact start hstart)⟩
      left := fun d hd start hstart hmem => h.left d hd start hstart (hact start hmem) }
  | register action =>
    refine { h with stamped := ?_, ordered := ?_ }
    · exact forall_mem_append.mpr ⟨h.stamped, forall_mem_singleton.mpr ⟨le_rfl, h.started⟩⟩
    · simp only [← h.ordered, append_assoc]
  | oldest hlatch =>
    refine { h with bound := ?_ }
    intro o ho
    rcases ho with ho | ho
    · cases ho
      have hact : s.activeTxns = s.currRunningTxns := by simp [activeTxns, hlatch]
      change _ ∧ ∀ start ∈ s.activeTxns, _
      cases hmin : s.currRunningTxns.min? with
      | none =>
        rw [min?_eq_none_iff] at hmin
        rw [hact, hmin]
        exact ⟨le_rfl, by simp⟩
      | some least =>
        obtain ⟨hmem, hleast⟩ := min?_eq_some_iff.mp hmin
        rw [hact]
        exact ⟨(h.started least (hact ▸ hmem)).le, hleast⟩
    · exact h.bound o (.inr ho)
  | process backLog newActions phase holdest hwait hfits =>
    refine { h with bound := ?_, ordered := ?_, fits := hfits }
    · intro o ho
      rcases ho with ho | ho
      · exact h.bound o (.inl ho)
      · exact h.bound o (holdest o ho).symm
    · rw [← h.ordered, hwait]
  | run front rest phase oldestTxn hbef holdest hready hwait hrest hfits =>
    have hregistered : front ∈ s.registered := by
      rw [← h.ordered, hwait]
      simp
    refine { h with bound := ?_, ordered := ?_, left := ?_, fits := hfits }
    · intro o ho
      rcases ho with ho | ho
      · exact h.bound o (.inl ho)
      · exact h.bound o (.inr (hbef.trans (holdest.symm.trans ho)))
    · simp only [← h.ordered, hwait, hrest, append_assoc, cons_append, nil_append]
    · refine forall_mem_append.mpr ⟨h.left, forall_mem_singleton.mpr ?_⟩
      intro start hstart hact
      have hlt := (h.stamped front hregistered).2 start hstart
      have hle := (h.bound oldestTxn (.inr hbef)).2 start hact
      omega

theorem Waits.step (h : s.Waits) {action : DeferredStep α} (hstep : s.step action = some s') :
    s'.Waits :=
  h.move (step_move h.fits hstep)

/-- In every interleaving the actions that were begun are the first ones that
were registered, in that order, and no transaction is left that was active when
one of them was registered. -/
theorem deferred_actions_wait (actions : List (DeferredStep α)) (s : DeferredActionManager α)
    (hrun : Runs.run step init actions = some s) :
    s.ran <+: s.registered ∧ ∀ d ∈ s.ran, ∀ start ∈ d.active, start ∉ s.activeTxns := by
  have hwaits : s.Waits := Runs.run_keeps (fun hstep h => h.step hstep) hrun Waits.init
  refine ⟨?_, hwaits.left⟩
  rw [← hwaits.ordered]
  exact prefix_append _ _

def putOffOnce : List (DeferredStep Bool) :=
  [.takeStartTime, .enterRunningTxns, .registerDeferredAction true, .oldestTransactionStartTime,
    .process, .endBacklog, .swapNewActions, .endNewActions, .storeInBacklog, .endProcess,
    .removeTransactions [0], .oldestTransactionStartTime, .process, .runBacklogAction,
    .registerDeferredAction false, .popBacklogAction]

theorem deferred_actions_wait_putOffOnce :
    ∃ s, Runs.run step init putOffOnce = some s ∧ s.ran = [⟨1, true, [0]⟩] ∧
      s.ran <+: s.registered ∧ ∀ d ∈ s.ran, ∀ start ∈ d.active, start ∉ s.activeTxns := by
  obtain ⟨s, hrun, hran⟩ := Option.map_eq_some_iff.mp
    (show (Runs.run step init putOffOnce).map DeferredActionManager.ran = some [⟨1, true, [0]⟩] by
      decide)
  exact ⟨s, hrun, hran, deferred_actions_wait putOffOnce s hrun⟩

end DeferredActionManager

end Terrier
