import Terrier.System
import Terrier.Storage.GarbageCollectorSteps

/-!
The engine with a garbage collector in a thread of its own. Transactions and the log serializer
take their steps between any two steps of a collection pass, which may also be one step.
-/

namespace Terrier

variable {V : Type}

inductive ConcurrentStep (cfg : Config) : State V × Collector → State V × Collector → Prop where
  | client {σ σ' : State V} {a : Action V} {e : Event V} (pc : Collector)
      (hstep : step cfg σ a = some (σ', e)) (hclient : e ≠ .performGarbageCollection) :
      ConcurrentStep cfg (σ, pc) (σ', pc)
  | collector (σ : State V) (pc : Collector) : ConcurrentStep cfg (σ, pc) (collectStep σ pc)

def ConcurrentSteps (cfg : Config) : State V × Collector → State V × Collector → Prop :=
  Relation.ReflTransGen (ConcurrentStep cfg)

def ConcurrentRun (cfg : Config) (junk : TupleSlot → ColId → Option V) (σ : State V)
    (pc : Collector) : Prop :=
  ConcurrentSteps cfg (State.init junk, .idle) (σ, pc)

variable {cfg : Config} {s s' : State V × Collector}

/-- What both kinds of steps keep holds along a concurrent run. -/
theorem ConcurrentSteps.invariant {I : State V → Collector → Prop}
    (hclient : ∀ σ pc e σ', I σ pc → Transition cfg σ e σ' → e ≠ .performGarbageCollection →
      I σ' pc) (hcollector : ∀ σ pc, I σ pc → I (collectStep σ pc).1 (collectStep σ pc).2)
    (hsteps : ConcurrentSteps cfg s s') (hbase : I s.1 s.2) : I s'.1 s'.2 := by
  induction hsteps with
  | refl => exact hbase
  | tail _ hstep ih =>
    cases hstep with
    | client pc hstep hne => exact hclient _ _ _ _ ih (step_transition hstep) hne
    | collector σ pc => exact hcollector σ pc ih

theorem Collects.concurrent (h : Collects s s') : ConcurrentSteps cfg s s' := by
  induction h with
  | refl => exact .refl
  | head _ ih => exact .head (.collector _ _) ih

/-- Passes that nothing interrupts are a special case. -/
theorem Run.concurrent {junk : TupleSlot → ColId → Option V} {h : List (Event V)} {σ : State V}
    (hrun : Run cfg junk h σ) : ConcurrentRun cfg junk σ .idle := by
  unfold Run at hrun
  induction hrun with
  | nil => exact .refl
  | snoc _ hstep ih =>
    next h a e _ =>
    by_cases hclient : e = .performGarbageCollection
    · subst hclient
      have htrans := step_transition hstep
      cases htrans
      exact ih.trans (Collects.performGarbageCollection _).concurrent
    · exact ih.tail (.client .idle hstep hclient)

end Terrier
