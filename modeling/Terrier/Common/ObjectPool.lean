import Terrier.Lib.Runs

/-!
The object pool, and runs of calls on it. Every call holds the latch, so calls by
several threads come one after the other.
-/

namespace Terrier

structure ObjectPool (T : Type) where
  reuseQueue : List T
  sizeLimit : Nat
  reuseLimit : Nat
  currentSize : Nat
  deriving DecidableEq

inductive PoolException where
  | noMoreObject (sizeLimit : Nat)
  | allocatorFailure
  deriving DecidableEq

namespace ObjectPool

variable {T : Type}

def ofLimits (sizeLimit reuseLimit : Nat) : ObjectPool T := ⟨[], sizeLimit, reuseLimit, 0⟩

/-- What `Get` answers if `alloc_.New()` returns `new`, `none` standing for a null pointer. -/
def get (pool : ObjectPool T) (new : Option T) : Except PoolException T × ObjectPool T :=
  match pool.reuseQueue, new with
  | obj :: queue, _ => (.ok obj, { pool with reuseQueue := queue })
  | [], new =>
    if pool.sizeLimit ≤ pool.currentSize then (.error (.noMoreObject pool.sizeLimit), pool)
    else
      match new with
      | none => (.error .allocatorFailure, pool)
      | some obj => (.ok obj, { pool with currentSize := pool.currentSize + 1 })

def setSizeLimit (pool : ObjectPool T) (newSize : Nat) : Bool × ObjectPool T :=
  if pool.currentSize ≤ newSize then (true, { pool with sizeLimit := newSize })
  else (false, pool)

def deleteFront (pool : ObjectPool T) : List T → ObjectPool T
  | [] => { pool with reuseQueue := [] }
  | obj :: queue =>
    if pool.reuseLimit < (obj :: queue).length then
      deleteFront { pool with currentSize := pool.currentSize - 1 } queue
    else { pool with reuseQueue := obj :: queue }

def setReuseLimit (pool : ObjectPool T) (newReuseLimit : Nat) : ObjectPool T :=
  deleteFront { pool with reuseLimit := newReuseLimit } pool.reuseQueue

def release (pool : ObjectPool T) (obj : T) : ObjectPool T :=
  if pool.reuseLimit ≤ pool.reuseQueue.length then
    { pool with currentSize := pool.currentSize - 1 }
  else { pool with reuseQueue := pool.reuseQueue ++ [obj] }

end ObjectPool

structure PoolUse (T : Type) extends ObjectPool T where
  handedOut : List T
  deriving DecidableEq

inductive PoolCall (T : Type) where
  | get (new : Option T)
  | release (obj : T)
  | setSizeLimit (newSize : Nat)
  | setReuseLimit (newReuseLimit : Nat)

namespace PoolUse

variable {T : Type}

/-- The allocator returns memory that is not in use. -/
def IsNew (s : PoolUse T) (new : Option T) : Prop :=
  ∀ obj ∈ new, obj ∉ s.handedOut ∧ obj ∉ s.reuseQueue

variable [DecidableEq T]

instance (s : PoolUse T) (new : Option T) : Decidable (s.IsNew new) := by
  unfold IsNew
  infer_instance

def step (s : PoolUse T) : PoolCall T → Option (PoolUse T)
  | .get new =>
    if s.IsNew new then
      match s.get new with
      | (.ok obj, pool) => some ⟨pool, obj :: s.handedOut⟩
      | (.error _, pool) => some ⟨pool, s.handedOut⟩
    else none
  | .release obj =>
    if obj ∈ s.handedOut then some ⟨s.toObjectPool.release obj, s.handedOut.erase obj⟩ else none
  | .setSizeLimit newSize => some ⟨(s.toObjectPool.setSizeLimit newSize).2, s.handedOut⟩
  | .setReuseLimit newReuseLimit => some ⟨s.toObjectPool.setReuseLimit newReuseLimit, s.handedOut⟩

end PoolUse

end Terrier
