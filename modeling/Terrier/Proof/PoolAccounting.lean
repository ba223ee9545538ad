import Terrier.Common.ObjectPool

/-! The object pool counts what it has allocated, along every run of calls. -/

namespace Terrier.PoolUse

open List

variable {T : Type} {s s' : PoolUse T}

structure Accounted (s : PoolUse T) : Prop where
  size : s.currentSize = s.handedOut.length + s.reuseQueue.length
  limit : s.currentSize ≤ s.sizeLimit
  reuse : s.reuseQueue.length ≤ s.reuseLimit
  distinct : (s.handedOut ++ s.reuseQueue).Nodup

variable {pool : ObjectPool T} {new : Option T} {obj : T}

/-- What `SetReuseLimit` deletes is a first part of the queue. -/
theorem deleteFront_accounted {queue handedOut : List T}
    (hsize : pool.currentSize = handedOut.length + queue.length)
    (hlimit : pool.currentSize ≤ pool.sizeLimit) (hdist : (handedOut ++ queue).Nodup) :
    Accounted ⟨pool.deleteFront queue, handedOut⟩ := by
  induction queue generalizing pool with
  | nil => exact ⟨hsize, hlimit, Nat.zero_le _, hdist⟩
  | cons obj queue ih =>
    rw [ObjectPool.deleteFront]
    rw [length_cons] at hsize
    split
    case isTrue hlong =>
      apply ih
      · exact Nat.sub_eq_of_eq_add hsize
      · exact (Nat.sub_le _ _).trans hlimit
      · exact hdist.sublist ((sublist_cons_self obj queue).append_left handedOut)
    case isFalse hshort => exact ⟨hsize, hlimit, not_lt.mp hshort, hdist⟩

theorem Accounted.get (hs : s.Accounted) (hnew : s.IsNew new) (hget : s.get new = (.ok obj, pool)) :
    obj ∉ s.handedOut ∧ Accounted ⟨pool, obj :: s.handedOut⟩ := by
  obtain ⟨⟨queue, sizeLimit, reuseLimit, currentSize⟩, handedOut⟩ := s
  obtain ⟨hsize, hlimit, hreuse, hdist⟩ := hs
  dsimp only [IsNew] at *
  cases queue with
  | cons front queue =>
    cases hget
    have hmoved : (obj :: (handedOut ++ queue)).Nodup := nodup_middle.mp hdist
    refine ⟨fun h => (nodup_cons.mp hmoved).1 (mem_append_left queue h),
      ⟨?_, hlimit, Nat.le_of_succ_le hreuse, hmoved⟩⟩
    simp only [length_cons] at hsize ⊢
    omega
  | nil =>
    simp only [ObjectPool.get] at hget
    split at hget
    case isTrue => cases hget
    case isFalse hfull =>
      cases new with
      | none => cases hget
      | some new =>
        cases hget
        obtain ⟨hout, -⟩ := hnew obj rfl
        refine ⟨hout, ⟨?_, not_le.mp hfull, hreuse, nodup_cons.mpr ⟨?_, hdist⟩⟩⟩
        · simp only [length_cons, length_nil] at hsize ⊢
          omega
        · simpa using hout

theorem get_error {e : PoolException} {pool' : ObjectPool T}
    (hget : pool.get new = (.error e, pool')) : pool' = pool := by
  unfold ObjectPool.get at hget
  split at hget
  · cases hget
  · split_ifs at hget
    · cases hget
      rfl
    · split at hget <;> cases hget
      rfl

variable [DecidableEq T]

theorem Accounted.release (hs : s.Accounted) (hobj : obj ∈ s.handedOut) :
    Accounted ⟨s.toObjectPool.release obj, s.handedOut.erase obj⟩ := by
  have hlen : (s.handedOut.erase obj).length + 1 = s.handedOut.length :=
    length_erase_add_one hobj
  have hperm :
      (s.handedOut ++ s.reuseQueue).Perm (obj :: (s.handedOut.erase obj ++ s.reuseQueue)) :=
    (perm_cons_erase hobj).append_right s.reuseQueue
  have hdist := hperm.nodup_iff.mp hs.distinct
  have hsize := hs.size
  unfold ObjectPool.release
  split
  case isTrue =>
    refine ⟨?_, (Nat.sub_le _ _).trans hs.limit, hs.reuse, hdist.of_cons⟩
    show s.currentSize - 1 = (s.handedOut.erase obj).length + s.reuseQueue.length
    omega
  case isFalse hroom =>
    refine ⟨?_, hs.limit, ?_, ?_⟩
    · simp only [length_append, length_singleton]
      omega
    · simp only [length_append, length_singleton]
      omega
    · rw [← append_assoc]
      exact (perm_append_singleton obj _).nodup_iff.mpr hdist

theorem step_accounted {call : PoolCall T} (hstep : s.step call = some s') (hs : s.Accounted) :
    s'.Accounted := by
  cases call with
  | get new =>
    simp only [step] at hstep
    split_ifs at hstep with hnew
    split at hstep <;> cases hstep
    case h_1 obj pool hget => exact (hs.get hnew hget).2
    case h_2 e pool hget =>
      rw [get_error hget]
      exact hs
  | release obj =>
    obtain ⟨hobj, rfl⟩ := Runs.of_guard hstep
    exact hs.release hobj
  | setSizeLimit newSize =>
    cases hstep
    unfold ObjectPool.setSizeLimit
    split
    case isTrue hfits => exact ⟨hs.size, hfits, hs.reuse, hs.distinct⟩
    case isFalse => exact hs
  | setReuseLimit newReuseLimit =>
    cases hstep
    exact deleteFront_accounted hs.size hs.limit hs.distinct

/-- Along every run the pool's size counts the objects in use or kept for reuse, both limits hold,
no object is handed out twice, and a size limit below the pool's size is refused. -/
theorem run_accounted {sizeLimit reuseLimit : Nat} {calls : List (PoolCall T)}
    (hrun : Runs.run step ⟨.ofLimits sizeLimit reuseLimit, []⟩ calls = some s) :
    s.Accounted ∧ (∀ new obj, s.IsNew new → (s.get new).1 = .ok obj → obj ∉ s.handedOut) ∧
      ∀ newSize, ((s.toObjectPool.setSizeLimit newSize).1 = false ↔ newSize < s.currentSize) ∧
        ((s.toObjectPool.setSizeLimit newSize).1 = false →
          (s.toObjectPool.setSizeLimit newSize).2 = s.toObjectPool) := by
  have hs : s.Accounted := by
    apply Runs.run_keeps step_accounted hrun
    exact ⟨rfl, Nat.zero_le _, Nat.zero_le _, nodup_nil⟩
  refine ⟨hs, ?_, ?_⟩
  · intro new obj hnew hget
    exact (hs.get hnew (Prod.ext hget rfl)).1
  · intro newSize
    unfold ObjectPool.setSizeLimit
    split <;> simp <;> omega

theorem run_accounted_reused : ∃ s : PoolUse Nat, Runs.run step ⟨.ofLimits 2 1, []⟩
      [.get (some 7), .get (some 8), .get (some 9), .release 7, .release 8, .setSizeLimit 0,
        .get none, .setReuseLimit 0] = some s ∧ s.Accounted := by
  obtain ⟨s, hrun⟩ : ∃ s : PoolUse Nat, Runs.run step ⟨.ofLimits 2 1, []⟩
      [.get (some 7), .get (some 8), .get (some 9), .release 7, .release 8, .setSizeLimit 0,
        .get none, .setReuseLimit 0] = some s := ⟨_, rfl⟩
  exact ⟨s, hrun, (run_accounted hrun).1⟩

end Terrier.PoolUse
