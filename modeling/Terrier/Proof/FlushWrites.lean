import Terrier.Network.IoWrapper

/-!
What reaches the socket. The loop over the queue is first brought into a form without indices: a
call keeps its first buffer when the socket takes no more, and loses each of the others when the
socket takes no more in the middle of it.
-/

namespace Terrier.Network

open List Option

/-! ### A single buffer -/

namespace Buffer

theorem writeOut_append (b : Buffer) (n : Nat) :
    (b.writeOut n).1 ++ (b.writeOut n).2.remaining = b.remaining := by
  rw [writeOut, remaining_skip]
  exact take_append_drop _ _

theorem length_writeOut (b : Buffer) (n : Nat) :
    (b.writeOut n).1.length = min (n + 1) b.remaining.length := by
  rw [writeOut, length_take, length_remaining]
  omega

end Buffer

/-- The answers left of a schedule once so many bytes of a buffer have been written. -/
def scheduleAfter : Nat → List WriteResult → List WriteResult
  | 0, schedule => schedule
  | _ + 1, [] => []
  | bytes + 1, .wrote n :: rest => scheduleAfter (bytes - n) rest
  | bytes + 1, _ :: rest => scheduleAfter (bytes + 1) rest

inductive BufferFlushed (b : Buffer) (schedule : List WriteResult) : Flush Buffer → Prop
  | done (used rest : List WriteResult) : schedule = used ++ rest → .eagain ∉ used →
      scheduleAfter b.remaining.length schedule = rest →
      BufferFlushed b schedule ⟨.ok .proceed, .empty, b.remaining, rest⟩
  | stopped (used rest : List WriteResult) (sent : List UInt8) (left : Buffer) :
      schedule = used ++ rest → .eagain ∈ used → left.remaining ≠ [] →
      sent ++ left.remaining = b.remaining →
      scheduleAfter b.remaining.length schedule = scheduleAfter left.remaining.length rest →
      BufferFlushed b schedule ⟨.ok .needWrite, left, sent, rest⟩
  | failed (f : Flush Buffer) : f.proceeds = false → f.needsWrite = false →
      BufferFlushed b schedule f

variable {b : Buffer}

theorem scheduleAfter_wrote (h : b.remaining ≠ []) (n : Nat) (rest : List WriteResult) :
    scheduleAfter b.remaining.length (.wrote n :: rest) =
      scheduleAfter (b.writeOut n).2.remaining.length rest := by
  have hsplit := congrArg List.length (b.writeOut_append n)
  rw [length_append, b.length_writeOut] at hsplit
  have hpos := length_pos_iff.2 h
  obtain ⟨bytes, hbytes⟩ := Nat.exists_eq_succ_of_ne_zero hpos.ne'
  have hleft : (b.writeOut n).2.remaining.length = bytes - n := by omega
  rw [hbytes, hleft]
  rfl

theorem scheduleAfter_other {bytes : Nat} (h : 0 < bytes) {answer : WriteResult}
    (hans : ∀ n, answer ≠ .wrote n) (rest : List WriteResult) :
    scheduleAfter bytes (answer :: rest) = scheduleAfter bytes rest := by
  obtain ⟨bytes, rfl⟩ := Nat.exists_eq_succ_of_ne_zero h.ne'
  cases answer with
  | wrote n => exact absurd rfl (hans n)
  | eintr | eagain | epipe | error => rfl

theorem hasMore_eq_false_iff (b : Buffer) : b.hasMore = false ↔ b.remaining = [] := by
  rw [← Bool.not_eq_true, b.hasMore_iff 1 Nat.one_pos, Nat.not_le, Nat.lt_one_iff,
    length_eq_zero_iff]

namespace BufferFlushed

variable {b : Buffer} {schedule : List WriteResult}

theorem prepend {answer : WriteResult} {c : Buffer} {sent : List UInt8} {f : Flush Buffer}
    (hans : .eagain ≠ answer) (hsplit : sent ++ c.remaining = b.remaining)
    (hafter : scheduleAfter b.remaining.length (answer :: schedule) =
      scheduleAfter c.remaining.length schedule)
    (h : BufferFlushed c schedule f) : BufferFlushed b (answer :: schedule) (f.after sent) := by
  cases h with
  | done used rest hused hno hrest =>
    rw [Flush.after, hsplit]
    apply done (answer :: used)
    · rw [hused, cons_append]
    · simpa [hans] using hno
    · exact hafter.trans hrest
  | stopped used rest more left hused hagain hleft hsent hrest =>
    apply stopped (answer :: used)
    · rw [hused, cons_append]
    · exact mem_cons_of_mem _ hagain
    · exact hleft
    · rw [append_assoc, hsent, hsplit]
    · exact hafter.trans hrest
  | failed f hproc hneeds => exact failed _ hproc hneeds

end BufferFlushed

theorem flushWriteBuffer_empty (h : b.remaining = []) (schedule : List WriteResult) :
    flushWriteBuffer b schedule = some ⟨.ok .proceed, .empty, [], schedule⟩ := by
  rw [flushWriteBuffer.eq_def, (hasMore_eq_false_iff b).2 h]
  rfl

theorem hasMore_of_remaining (h : b.remaining ≠ []) : b.hasMore = true := by
  rw [← Bool.not_eq_false, hasMore_eq_false_iff]
  exact h

variable {schedule : List WriteResult}

theorem flushWriteBuffer_flushed {f : Flush Buffer} (h : flushWriteBuffer b schedule = some f) :
    BufferFlushed b schedule f := by
  induction schedule generalizing b f with
  | nil =>
    by_cases hnil : b.remaining = []
    · rw [flushWriteBuffer_empty hnil, Option.some.injEq] at h
      rw [← h, ← hnil]
      exact .done [] [] rfl (by simp) (by rw [hnil]; rfl)
    · rw [flushWriteBuffer.eq_def, hasMore_of_remaining hnil] at h
      cases h
  | cons answer schedule ih =>
    by_cases hnil : b.remaining = []
    · rw [flushWriteBuffer_empty hnil, Option.some.injEq] at h
      rw [← h, ← hnil]
      exact .done [] _ rfl (by simp) (by rw [hnil]; rfl)
    · have hpos := length_pos_iff.2 hnil
      rw [flushWriteBuffer.eq_def, hasMore_of_remaining hnil, if_pos rfl] at h
      cases answer with
      | wrote n =>
        obtain ⟨g, hg, rfl⟩ := map_eq_some_iff.1 h
        exact (ih hg).prepend (by simp) (b.writeOut_append n) (scheduleAfter_wrote hnil n schedule)
      | eintr =>
        have hafter := @scheduleAfter_other _ hpos .eintr (by simp) schedule
        exact (ih h).prepend (by simp) (nil_append _) hafter
      | eagain =>
        cases h
        exact .stopped [.eagain] schedule [] b rfl (by simp) hnil rfl
          (scheduleAfter_other hpos (by simp) schedule)
      | epipe | error => cases h; exact .failed _ rfl rfl

/-! ### The queue without indices -/

def flushOthers : List Buffer → List WriteResult → Option (Flush (List Buffer))
  | [], schedule => some ⟨.ok .proceed, [.empty], [], schedule⟩
  | b :: others, schedule => do
      let f ← flushWriteBuffer b schedule
      if f.proceeds then (flushOthers others f.rest).map (.after f.sent)
      else some ⟨f.result, others, f.sent, f.rest⟩

def flushWaiting : List Buffer → List WriteResult → Option (Flush (List Buffer))
  | [], schedule => some ⟨.ok .proceed, [.empty], [], schedule⟩
  | b :: others, schedule => do
      let f ← flushWriteBuffer b schedule
      if f.proceeds then (flushOthers others f.rest).map (.after f.sent)
      else some ⟨f.result, f.state :: others, f.sent, f.rest⟩

variable {σ τ : Type} {others : List Buffer} {fuel : Nat}

@[simp] theorem Flush.map_after (g : σ → τ) (sent : List UInt8) (f : Flush σ) :
    (f.after sent).map g = (f.map g).after sent := rfl

theorem flushLoop_step (flushed : List Buffer) (b : Buffer) (others : List Buffer) (offset : Nat)
    (flush : Bool) (fuel : Nat) (schedule : List WriteResult) :
    flushLoop (fuel + 1) (some flushed.length) ⟨flushed ++ b :: others, offset, flush⟩ schedule =
      (flushWriteBuffer b schedule).bind fun f =>
        let q : WriteQueue := ⟨flushed ++ f.state :: others, offset, flush⟩
        if f.proceeds then
          (flushLoop fuel q.flushHead q.markHeadFlushed f.rest).map (.after f.sent)
        else some ⟨f.result, q, f.sent, f.rest⟩ := by
  have hget : (flushed ++ b :: others).getD flushed.length .empty = b := by simp
  have hset (state : Buffer) :
      (flushed ++ b :: others).set flushed.length state = flushed ++ state :: others := by simp
  rw [flushLoop, hget]
  simp only [hset]
  rfl

/-- Behind its first buffer the loop is one position ahead of the buffer it flushes. -/
theorem flushLoop_others (others flushed : List Buffer) (b : Buffer) (flush : Bool) (fuel : Nat)
    (schedule : List WriteResult) (hfuel : others.length + 2 ≤ fuel) :
    (flushLoop fuel (some flushed.length) ⟨flushed ++ b :: others, flushed.length + 1, flush⟩
        schedule).map (Flush.map WriteQueue.waiting) =
      flushOthers (b :: others) schedule := by
  induction others generalizing flushed b fuel schedule with
  | nil =>
    obtain ⟨fuel, rfl⟩ : ∃ k, fuel = k + 2 := ⟨fuel - 2, by simp at hfuel; omega⟩
    rw [flushLoop_step, flushOthers]
    cases flushWriteBuffer b schedule with
    | none => rfl
    | some f =>
      have hhead : (⟨flushed ++ [f.state], flushed.length + 1, flush⟩ : WriteQueue).flushHead =
          none := by simp [WriteQueue.flushHead]
      have hwait :
          (⟨flushed ++ [f.state], flushed.length + 1, flush⟩ : WriteQueue).waiting = [] := by
        simp [WriteQueue.waiting]
      cases hproc : f.proceeds with
      | true => simp [hproc, hhead, flushLoop, flushOthers, Flush.map, Flush.after]; rfl
      | false => simp [hproc, Flush.map, hwait]
  | cons c others ih =>
    obtain ⟨fuel, rfl⟩ : ∃ k, fuel = k + 1 := ⟨fuel - 1, by simp at hfuel; omega⟩
    rw [flushLoop_step, flushOthers]
    cases flushWriteBuffer b schedule with
    | none => rfl
    | some f =>
      have hhead : (⟨flushed ++ f.state :: c :: others, flushed.length + 1, flush⟩ :
          WriteQueue).flushHead = some (flushed.length + 1) := by simp [WriteQueue.flushHead]
      have hwait : (⟨flushed ++ f.state :: c :: others, flushed.length + 1, flush⟩ :
          WriteQueue).waiting = c :: others := by
        simp [WriteQueue.waiting, drop_append]
      cases hproc : f.proceeds with
      | true =>
        have hnext := ih (flushed ++ [f.state]) c fuel f.rest (by simp at hfuel; omega)
        simp [hproc, hhead, WriteQueue.markHeadFlushed, ← hnext, Option.map_map, Function.comp_def]
      | false => simp [hproc, Flush.map, hwait]

theorem flushOthers_empty (others : List Buffer) (schedule : List WriteResult) :
    flushOthers (.empty :: others) schedule = flushOthers others schedule := by
  rw [flushOthers, flushWriteBuffer_empty Buffer.remaining_empty]
  change Option.map (Flush.after []) (flushOthers others schedule) = flushOthers others schedule
  cases flushOthers others schedule with
  | none => rfl
  | some f => rfl

theorem flushWriteBuffer_proceeds {f : Flush Buffer} (h : flushWriteBuffer b schedule = some f)
    (hproc : f.proceeds = true) : f.state = .empty := by
  cases flushWriteBuffer_flushed h with
  | done => rfl
  | stopped => cases hproc
  | failed f hno => exact absurd hproc (by rw [hno]; decide)

/-- A call of `FlushAllWrites` in terms of the waiting buffers. Its second iteration finds the first
buffer again, which is empty by then. -/
theorem flushAllWrites_waiting (q : WriteQueue) (schedule : List WriteResult) :
    (flushAllWrites q schedule).map (Flush.map WriteQueue.waiting) =
      flushWaiting q.waiting schedule := by
  obtain ⟨buffers, offset, flush⟩ := q
  cases hwait : buffers.drop offset with
  | nil =>
    have hle : ¬ offset < buffers.length := by simpa using hwait
    simp [flushAllWrites, WriteQueue.flushHead, WriteQueue.waiting, hle, flushLoop, hwait,
      flushWaiting, Flush.map, WriteQueue.reset]
  | cons b others =>
    have hlt : offset < buffers.length := by
      by_contra hle
      rw [drop_eq_nil_of_le (Nat.le_of_not_lt hle)] at hwait
      cases hwait
    obtain ⟨flushed, hlen, rfl⟩ :
        ∃ flushed, flushed.length = offset ∧ buffers = flushed ++ b :: others :=
      ⟨buffers.take offset, by simp; omega, by rw [← hwait, take_append_drop]⟩
    subst hlen
    have hhead (state : Buffer) (others : List Buffer) :
        (⟨flushed ++ state :: others, flushed.length, flush⟩ : WriteQueue).flushHead =
          some flushed.length := by simp [WriteQueue.flushHead]
    have hstate (state : Buffer) (others : List Buffer) :
        (⟨flushed ++ state :: others, flushed.length, flush⟩ : WriteQueue).waiting =
          state :: others := by simp [WriteQueue.waiting]
    rw [flushAllWrites, hhead, hstate, flushLoop_step, flushWaiting]
    cases hflush : flushWriteBuffer b schedule with
    | none => rfl
    | some f =>
      cases hproc : f.proceeds with
      | true =>
        have hempty := flushWriteBuffer_proceeds hflush hproc
        have hoth := flushLoop_others others flushed .empty flush
          ((flushed ++ b :: others).length + 1) f.rest (by simp)
        rw [flushOthers_empty] at hoth
        simp only [bind_some, hproc, if_true, hempty, hhead, bind_eq_bind,
          WriteQueue.markHeadFlushed, ← hoth, Option.map_map]
        rfl
      | false => simp [hproc, Flush.map, hstate]

def transmitWaiting : Nat → List Buffer → List WriteResult → Option (Flush (List Buffer))
  | 0, _, _ => none
  | fuel + 1, waiting, schedule => do
      let f ← flushWaiting waiting schedule
      if f.needsWrite then (transmitWaiting fuel f.state f.rest).map (.after f.sent) else some f

theorem transmitLoop_waiting (fuel : Nat) (q : WriteQueue) (schedule : List WriteResult) :
    (transmitLoop fuel q schedule).map (Flush.map WriteQueue.waiting) =
      transmitWaiting fuel q.waiting schedule := by
  induction fuel generalizing q schedule with
  | zero => rfl
  | succ fuel ih =>
    rw [transmitLoop, transmitWaiting, ← flushAllWrites_waiting]
    cases flushAllWrites q schedule with
    | none => rfl
    | some f =>
      have hneeds : (f.map WriteQueue.waiting).needsWrite = f.needsWrite := rfl
      have hnext := ih f.state f.rest
      cases h : f.needsWrite with
      | true =>
        simp only [bind_eq_bind, bind_some, map_some, hneeds, h, if_true, Option.map_map]
        change _ = (transmitWaiting fuel f.state.waiting f.rest).map (Flush.after f.sent)
        rw [← hnext, Option.map_map]
        rfl
      | false => simp [hneeds, h]

/-! ### What is sent and what is lost -/

def bytesOf (waiting : List Buffer) : List UInt8 := (waiting.map Buffer.remaining).flatten

@[simp] theorem bytesOf_cons (b : Buffer) (others : List Buffer) :
    bytesOf (b :: others) = b.remaining ++ bytesOf others := rfl

inductive OthersFlushed (others : List Buffer) (schedule : List WriteResult) :
    Flush (List Buffer) → Prop
  | done (used rest : List WriteResult) : schedule = used ++ rest → .eagain ∉ used →
      OthersFlushed others schedule ⟨.ok .proceed, [.empty], bytesOf others, rest⟩
  | lost (used rest : List WriteResult) (sent : List UInt8) (left : List Buffer) :
      schedule = used ++ rest → .eagain ∈ used →
      sent.length + (bytesOf left).length < (bytesOf others).length →
      OthersFlushed others schedule ⟨.ok .needWrite, left, sent, rest⟩
  | failed (f : Flush (List Buffer)) : f.proceeds = false → f.needsWrite = false →
      OthersFlushed others schedule f

variable {f : Flush (List Buffer)}

theorem flushOthers_flushed (h : flushOthers others schedule = some f) :
    OthersFlushed others schedule f := by
  induction others generalizing schedule f with
  | nil =>
    cases h
    exact .done [] schedule rfl (by simp)
  | cons b others ih =>
    obtain ⟨g, hg, hrest⟩ := bind_eq_some_iff.1 h
    cases flushWriteBuffer_flushed hg with
    | done used rest hused hno _ =>
      obtain ⟨k, hk, rfl⟩ : ∃ k, flushOthers others rest = some k ∧ k.after b.remaining = f :=
        map_eq_some_iff.1 hrest
      cases ih hk with
      | done more rest' hmore hno' =>
        apply OthersFlushed.done (used ++ more)
        · rw [hused, hmore, append_assoc]
        · simp [hno, hno']
      | lost more rest' sent left hmore hagain hlen =>
        apply OthersFlushed.lost (used ++ more)
        · rw [hused, hmore, append_assoc]
        · exact mem_append_right _ hagain
        · simp only [length_append, bytesOf_cons]
          omega
      | failed k hproc hneeds => exact .failed _ hproc hneeds
    | stopped used rest sent left hused hagain hleft hsent _ =>
      cases hrest
      apply OthersFlushed.lost used rest sent others hused hagain
      have hpos := length_pos_iff.2 hleft
      have hlen := congrArg List.length hsent
      simp only [length_append, bytesOf_cons] at hlen ⊢
      omega
    | failed g hproc hneeds =>
      simp only [hproc, Bool.false_eq_true, if_false, Option.some.injEq] at hrest
      rw [← hrest]
      exact .failed _ hproc hneeds

variable {waiting : List Buffer}

inductive CallFlushed (b : Buffer) (others : List Buffer) (schedule : List WriteResult) :
    Flush (List Buffer) → Prop
  | first (f : Flush (List Buffer)) :
      OthersFlushed others (scheduleAfter b.remaining.length schedule) f →
      CallFlushed b others schedule (f.after b.remaining)
  | stopped (rest : List WriteResult) (sent : List UInt8) (left : Buffer) :
      sent ++ left.remaining = b.remaining →
      scheduleAfter b.remaining.length schedule = scheduleAfter left.remaining.length rest →
      CallFlushed b others schedule ⟨.ok .needWrite, left :: others, sent, rest⟩
  | failed (f : Flush (List Buffer)) : f.proceeds = false → f.needsWrite = false →
      CallFlushed b others schedule f

theorem flushWaiting_flushed (h : flushWaiting (b :: others) schedule = some f) :
    CallFlushed b others schedule f := by
  obtain ⟨g, hg, hrest⟩ := bind_eq_some_iff.1 h
  cases flushWriteBuffer_flushed hg with
  | done used rest hused hno hafter =>
    obtain ⟨k, hk, rfl⟩ : ∃ k, flushOthers others rest = some k ∧ k.after b.remaining = f :=
      map_eq_some_iff.1 hrest
    exact .first k (hafter ▸ flushOthers_flushed hk)
  | stopped used rest sent left hused hagain hleft hsent hafter =>
    cases hrest
    exact .stopped rest sent left hsent hafter
  | failed g hproc hneeds =>
    simp only [hproc, Bool.false_eq_true, if_false, Option.some.injEq] at hrest
    rw [← hrest]
    exact .failed _ hproc hneeds

/-- A call that ends regularly neither makes up bytes nor, if it is through, leaves any. -/
theorem flushWaiting_ends (h : flushWaiting waiting schedule = some f)
    (hends : f.proceeds = true ∨ f.needsWrite = true) :
    f.sent.length + (bytesOf f.state).length ≤ (bytesOf waiting).length ∧
      (f.proceeds = true → f.state = [.empty]) := by
  cases waiting with
  | nil =>
    cases h
    exact ⟨le_rfl, fun _ => rfl⟩
  | cons b others =>
    cases flushWaiting_flushed h with
    | first k hoth =>
      cases hoth with
      | done => exact ⟨by simp [Flush.after, bytesOf], fun _ => rfl⟩
      | lost more rest sent left hmore hagain hlen =>
        refine ⟨?_, fun hproc => by cases hproc⟩
        simp only [Flush.after, length_append, bytesOf_cons]
        omega
      | failed k hproc hneeds =>
        have hk : k.proceeds = true ∨ k.needsWrite = true := hends
        simp [hproc, hneeds] at hk
    | stopped rest sent left hsent hafter =>
      refine ⟨?_, fun hproc => by cases hproc⟩
      have hlen := congrArg List.length hsent
      simp only [length_append, bytesOf_cons] at hlen ⊢
      omega
    | failed f hproc hneeds => simp [hproc, hneeds] at hends

theorem transmitWaiting_ends (h : transmitWaiting fuel waiting schedule = some f)
    (hproc : f.proceeds = true) :
    f.sent.length ≤ (bytesOf waiting).length ∧ f.state = [.empty] := by
  induction fuel generalizing waiting schedule f with
  | zero => cases h
  | succ fuel ih =>
    obtain ⟨g, hg, hrest⟩ := bind_eq_some_iff.1 h
    cases hneeds : g.needsWrite with
    | true =>
      rw [hneeds, if_pos rfl] at hrest
      obtain ⟨k, hk, rfl⟩ := map_eq_some_iff.1 hrest
      have hcall := (flushWaiting_ends hg (.inr hneeds)).1
      obtain ⟨hlater, hstate⟩ := ih hk hproc
      refine ⟨?_, hstate⟩
      simp only [Flush.after, length_append]
      omega
    | false =>
      rw [hneeds] at hrest
      cases hrest
      obtain ⟨hcall, hstate⟩ := flushWaiting_ends hg (.inl hproc)
      exact ⟨by omega, hstate hproc⟩

/-- Until a buffer is lost every call starts with the same buffer, so that what is sent is complete
exactly if the socket takes all the bytes behind that buffer at once. -/
theorem transmitWaiting_sent_iff (h : transmitWaiting fuel (b :: others) schedule = some f)
    (hproc : f.proceeds = true) (hrest : f.rest = []) :
    f.sent = bytesOf (b :: others) ↔ .eagain ∉ scheduleAfter b.remaining.length schedule := by
  induction fuel generalizing b schedule f with
  | zero => cases h
  | succ fuel ih =>
    obtain ⟨call, hcall, hnext⟩ := bind_eq_some_iff.1 h
    cases flushWaiting_flushed hcall with
    | first k hoth =>
      cases hoth with
      | done more rest' hmore hno' =>
        cases hnext
        have hnil : rest' = [] := hrest
        rw [hnil, append_nil] at hmore
        rw [hmore]
        simpa [Flush.after] using hno'
      | lost more rest' sent left hmore hagain hlen =>
        obtain ⟨m, hm, rfl⟩ := map_eq_some_iff.1 hnext
        have hlater := (transmitWaiting_ends hm hproc).1
        have hin : .eagain ∈ scheduleAfter b.remaining.length schedule := by
          rw [hmore]
          exact mem_append_left _ hagain
        have hshort : (b.remaining ++ sent ++ m.sent).length < (bytesOf (b :: others)).length := by
          simp only [Flush.after] at hlater
          simp only [length_append, bytesOf_cons]
          omega
        apply iff_of_false _ (not_not_intro hin)
        intro hsent
        have hsame : b.remaining ++ sent ++ m.sent = bytesOf (b :: others) := hsent
        exact hshort.ne (congrArg List.length hsame)
      | failed k hno hneeds =>
        have hneeds' : (k.after b.remaining).needsWrite = false := hneeds
        simp only [hneeds', Bool.false_eq_true, if_false, Option.some.injEq] at hnext
        rw [← hnext] at hproc
        exact absurd (hno.symm.trans hproc) (by decide)
    | stopped rest sent left hsent hafter =>
      obtain ⟨m, hm, rfl⟩ := map_eq_some_iff.1 hnext
      have hlater := ih hm hproc hrest
      rw [hafter, ← hlater, bytesOf_cons, bytesOf_cons, ← hsent, append_assoc]
      exact append_right_inj sent
    | failed call hno hneeds =>
      simp only [hneeds, Bool.false_eq_true, if_false, Option.some.injEq] at hnext
      rw [← hnext] at hproc
      exact absurd (hno.symm.trans hproc) (by decide)

/-! ### The calls end -/

/-- Answers after which the connection goes on. -/
def WriteResult.regular : WriteResult → Bool
  | .wrote _ | .eintr | .eagain => true
  | .epipe | .error => false

def WriteResult.isWrote : WriteResult → Bool
  | .wrote _ => true
  | _ => false

def writes (schedule : List WriteResult) : Nat := schedule.countP WriteResult.isWrote

structure Returned {σ : Type} (schedule : List WriteResult) (f : Flush σ) : Prop where
  ends : f.proceeds = true ∨ f.needsWrite = true
  rest : f.rest <:+ schedule
  shorter : f.needsWrite = true → f.rest.length < schedule.length
  writes : writes schedule ≤ writes f.rest + f.sent.length

theorem Returned.proceed (state : σ) (sent : List UInt8) :
    Returned schedule ⟨.ok .proceed, state, sent, schedule⟩ :=
  ⟨.inl rfl, suffix_refl _, by simp [Flush.needsWrite], Nat.le_add_right _ _⟩

theorem Returned.after {f : Flush σ} {g : Flush τ} (hf : Returned schedule f)
    (hg : Returned f.rest g) : Returned schedule (g.after f.sent) where
  ends := hg.ends
  rest := hg.rest.trans hf.rest
  shorter hneeds := (hg.shorter hneeds).trans_le hf.rest.length_le
  writes := by
    have hfirst := hf.writes
    have hsnd := hg.writes
    simp only [Flush.after, length_append]
    omega

theorem flushWriteBuffer_returns (b : Buffer) (schedule : List WriteResult)
    (hreg : ∀ answer ∈ schedule, answer.regular = true)
    (hwr : b.remaining.length ≤ writes schedule) :
    ∃ f, flushWriteBuffer b schedule = some f ∧ Returned schedule f := by
  induction schedule generalizing b with
  | nil =>
    have hnil : b.remaining = [] := length_eq_zero_iff.1 (Nat.le_zero.1 hwr)
    exact ⟨_, flushWriteBuffer_empty hnil [], .proceed _ _⟩
  | cons answer schedule ih =>
    have hrest : ∀ answer ∈ schedule, answer.regular = true :=
      fun a ha => hreg a (mem_cons_of_mem _ ha)
    by_cases hnil : b.remaining = []
    · exact ⟨_, flushWriteBuffer_empty hnil _, .proceed _ _⟩
    rw [flushWriteBuffer.eq_def, hasMore_of_remaining hnil, if_pos rfl]
    cases answer with
    | wrote n =>
      have hcount : writes (.wrote n :: schedule) = writes schedule + 1 :=
        countP_cons_of_pos rfl
      have hpos := length_pos_iff.2 hnil
      have hsplit := congrArg List.length (b.writeOut_append n)
      have hwrit := b.length_writeOut n
      rw [length_append] at hsplit
      obtain ⟨f, hf, hret⟩ := ih (b.writeOut n).2 hrest (by omega)
      refine ⟨f.after (b.writeOut n).1, by simp [hf], hret.ends,
        hret.rest.trans (suffix_cons _ _), ?_, ?_⟩
      · intro hneeds
        exact (hret.shorter hneeds).trans (Nat.lt_succ_self _)
      · have henough := hret.writes
        simp only [Flush.after, length_append]
        omega
    | eintr =>
      have hcount : writes (.eintr :: schedule) = writes schedule := by
        simp [writes, WriteResult.isWrote]
      obtain ⟨f, hf, hret⟩ := ih b hrest (by omega)
      refine ⟨f, hf, hret.ends, hret.rest.trans (suffix_cons _ _), ?_, ?_⟩
      · intro hneeds
        exact (hret.shorter hneeds).trans (Nat.lt_succ_self _)
      · exact hcount.trans_le hret.writes
    | eagain =>
      refine ⟨_, rfl, .inr rfl, suffix_cons _ _, fun _ => Nat.lt_succ_self _, ?_⟩
      simp [writes, WriteResult.isWrote]
    | epipe => exact absurd (hreg .epipe (by simp)) (by decide)
    | error => exact absurd (hreg .error (by simp)) (by decide)

theorem flushWriteBuffer_length {f : Flush Buffer} (h : flushWriteBuffer b schedule = some f)
    (hends : f.proceeds = true ∨ f.needsWrite = true) :
    f.sent.length + f.state.remaining.length = b.remaining.length := by
  cases flushWriteBuffer_flushed h with
  | done => rfl
  | stopped used rest sent left hused hagain hleft hsent _ =>
    rw [← hsent, length_append]
  | failed f hproc hneeds => simp [hproc, hneeds] at hends

/-- A first buffer, with what is kept when the socket stops it, and the buffers behind it. -/
theorem first_returns (state : Flush Buffer → List Buffer)
    (hreg : ∀ answer ∈ schedule, answer.regular = true)
    (hwr : (bytesOf (b :: others)).length ≤ writes schedule)
    (hoth : ∀ rest, (∀ answer ∈ rest, answer.regular = true) →
      (bytesOf others).length ≤ writes rest →
      ∃ f, flushOthers others rest = some f ∧ Returned rest f) :
    ∃ f, ((flushWriteBuffer b schedule).bind fun f =>
      if f.proceeds then (flushOthers others f.rest).map (.after f.sent)
      else some ⟨f.result, state f, f.sent, f.rest⟩) = some f ∧ Returned schedule f := by
  rw [bytesOf_cons, length_append] at hwr
  obtain ⟨f, hf, hret⟩ := flushWriteBuffer_returns b schedule hreg (by omega)
  have hlen := flushWriteBuffer_length hf hret.ends
  have henough := hret.writes
  cases hproc : f.proceeds with
  | true =>
    obtain ⟨g, hg, hoth⟩ := hoth f.rest (fun a ha => hreg a (hret.rest.subset ha)) (by omega)
    exact ⟨g.after f.sent, by simp [hf, hproc, hg], hret.after hoth⟩
  | false =>
    exact ⟨⟨f.result, state f, f.sent, f.rest⟩, by simp [hf, hproc],
      hret.ends, hret.rest, hret.shorter, hret.writes⟩

theorem flushOthers_returns (others : List Buffer) (schedule : List WriteResult)
    (hreg : ∀ answer ∈ schedule, answer.regular = true)
    (hwr : (bytesOf others).length ≤ writes schedule) :
    ∃ f, flushOthers others schedule = some f ∧ Returned schedule f := by
  induction others generalizing schedule with
  | nil => exact ⟨_, rfl, .proceed _ _⟩
  | cons b others ih => exact first_returns (fun _ => others) hreg hwr ih

theorem flushWaiting_returns (waiting : List Buffer) (schedule : List WriteResult)
    (hreg : ∀ answer ∈ schedule, answer.regular = true)
    (hwr : (bytesOf waiting).length ≤ writes schedule) :
    ∃ f, flushWaiting waiting schedule = some f ∧ Returned schedule f := by
  cases waiting with
  | nil => exact ⟨_, rfl, .proceed _ _⟩
  | cons b others =>
    exact first_returns (fun f => f.state :: others) hreg hwr (flushOthers_returns others)

theorem transmitWaiting_returns (fuel : Nat) (waiting : List Buffer) (schedule : List WriteResult)
    (hfuel : schedule.length < fuel) (hreg : ∀ answer ∈ schedule, answer.regular = true)
    (hwr : (bytesOf waiting).length ≤ writes schedule) :
    ∃ f, transmitWaiting fuel waiting schedule = some f ∧ f.proceeds = true := by
  induction fuel generalizing waiting schedule with
  | zero => exact absurd hfuel (Nat.not_lt_zero _)
  | succ fuel ih =>
    obtain ⟨f, hf, hret⟩ := flushWaiting_returns waiting schedule hreg hwr
    cases hneeds : f.needsWrite with
    | true =>
      have hshorter := hret.shorter hneeds
      have hlen := (flushWaiting_ends hf hret.ends).1
      have henough := hret.writes
      obtain ⟨g, hg, hproc⟩ := ih f.state f.rest (by omega)
        (fun a ha => hreg a (hret.rest.subset ha)) (by omega)
      exact ⟨g.after f.sent, by simp [transmitWaiting, hf, hneeds, hg], hproc⟩
    | false =>
      have hproc := hret.ends.resolve_right (by simp [hneeds])
      exact ⟨f, by simp [transmitWaiting, hf, hneeds], hproc⟩

/-! ### The queue -/

/-- The queue is sent exactly once if and only if the socket never asks to wait behind the bytes of
the first buffer. -/
theorem transmit_exact_iff (first : List UInt8) (others : List (List UInt8))
    (schedule : List WriteResult) :
    ((∀ answer ∈ schedule, answer.regular = true) →
      (WriteQueue.filled first others).queued.length ≤ writes schedule →
      ∃ f, transmit (.filled first others) schedule = some f ∧ f.proceeds = true) ∧
    ∀ f, transmit (.filled first others) schedule = some f → f.proceeds = true → f.rest = [] →
      ((f.sent = (WriteQueue.filled first others).queued ∧ f.state.queued = []) ↔
        .eagain ∉ scheduleAfter first.length schedule) := by
  constructor
  · intro hregular hwrites
    obtain ⟨g, hg, hproceeds⟩ := transmitWaiting_returns (schedule.length + 1)
      (WriteQueue.filled first others).waiting schedule (Nat.lt_succ_self _) hregular hwrites
    rw [← transmitLoop_waiting] at hg
    obtain ⟨f, hf, rfl⟩ := map_eq_some_iff.1 hg
    exact ⟨f, hf, hproceeds⟩
  · intro f hf hproceeds hrest
    have hwaiting := transmitLoop_waiting (schedule.length + 1) (.filled first others) schedule
    rw [← transmit, hf, map_some, eq_comm] at hwaiting
    have hstate : f.state.waiting = [.empty] := (transmitWaiting_ends hwaiting hproceeds).2
    have hempty : f.state.queued = [] := by
      rw [WriteQueue.queued, hstate]
      rfl
    have hsent := transmitWaiting_sent_iff hwaiting hproceeds hrest
    rw [Buffer.remaining_fresh] at hsent
    rw [← hsent]
    exact and_iff_left hempty

/-- A socket that asks to wait once, in the first of two buffers. -/
theorem transmit_waits_in_first :
    ∃ f, transmit (.filled [1, 2] [[3]]) [.wrote 0, .eagain, .wrote 0, .wrote 0] = some f ∧
      f.sent = [1, 2, 3] ∧ f.state.queued = [] := by
  have hexact := transmit_exact_iff [1, 2] [[3]] [.wrote 0, .eagain, .wrote 0, .wrote 0]
  obtain ⟨f, hf, hproceeds⟩ := hexact.1 (by decide) (by decide)
  have hrest : f.rest = [] := by
    cases hf
    rfl
  exact ⟨f, hf, (hexact.2 f hf hproceeds hrest).2 (by decide)⟩

/-- A socket that asks to wait in the second buffer: the call that follows finds nothing to send. -/
theorem transmit_loses_second : (transmit (.filled [1, 2] [[3]]) [.wrote 1, .eagain]).map
        (fun f => (f.proceeds, f.rest, f.sent)) = some (true, [], [1, 2]) ∧
      (WriteQueue.filled [1, 2] [[3]]).queued = [1, 2, 3] := by
  decide

end Terrier.Network
