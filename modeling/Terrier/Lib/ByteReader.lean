import Mathlib.Tactic

/-!
Programs that ask for a number of bytes, continue with what they get, and end with a value or an
error. What `read` does is left to an interpretation, which also reports whether the bytes were
all there.
-/

inductive ByteReader (ε α : Type) where
  | done (value : α)
  | fail (error : ε)
  | read (size : Nat) (next : List UInt8 → ByteReader ε α)

namespace ByteReader

open List

variable {ε α β σ : Type}

def bind : ByteReader ε α → (α → ByteReader ε β) → ByteReader ε β
  | done a, f => f a
  | fail e, _ => fail e
  | read size next, f => read size fun bytes => bind (next bytes) f

instance : Monad (ByteReader ε) where
  pure := done
  bind := bind

inductive Reads : ByteReader ε α → List UInt8 → α → Prop where
  | done (a : α) : Reads (done a) [] a
  | read {size : Nat} {next : List UInt8 → ByteReader ε α} {bytes rest : List UInt8} {a : α}
      (hsize : bytes.length = size) (hrest : Reads (next bytes) rest a) :
      Reads (read size next) (bytes ++ rest) a

namespace Reads

variable {p : ByteReader ε α} {input : List UInt8} {a : α}

theorem bind {f : α → ByteReader ε β} {rest : List UInt8} {b : β} (hp : Reads p input a)
    (hf : Reads (f a) rest b) : Reads (p >>= f) (input ++ rest) b := by
  induction hp with
  | done a => exact hf
  | read hsize hrest ih =>
    rw [append_assoc]
    exact .read hsize (ih hf)

theorem pure (a : α) : Reads (Pure.pure a : ByteReader ε α) [] a :=
  .done a

theorem bind_pure (f : α → β) (hp : Reads p input a) :
    Reads (p >>= fun x => Pure.pure (f x)) input (f a) := by
  have := hp.bind (f := fun x => Pure.pure (f x)) (.done (f a))
  rwa [append_nil] at this

theorem bytes {size : Nat} (h : input.length = size) :
    Reads (ε := ε) (ByteReader.read size ByteReader.done) input input := by
  have hread : Reads (ε := ε) (ByteReader.read size ByteReader.done) (input ++ []) input :=
    .read h (.done input)
  rwa [append_nil] at hread

end Reads

section Run

-- The answer to a read of a number of bytes, and whether the source had them.
variable (source : Nat → σ → (List UInt8 × Bool) × σ)

/-- The outcome, the source afterwards, and whether no read fell short. -/
def run : ByteReader ε α → σ → Except ε α × σ × Bool
  | done a, s => (.ok a, s, true)
  | fail e, s => (.error e, s, true)
  | read size next, s =>
    let answer := source size s
    let result := run (next answer.1.1) answer.2
    (result.1, result.2.1, answer.1.2 && result.2.2)

/-- A source with bytes left answers with them. `Serving s left` is what is
known of a source that has `left` to give. -/
def Serves (Serving : σ → List UInt8 → Prop) : Prop :=
  ∀ s bytes left, Serving s (bytes ++ left) →
    (source bytes.length s).1.1 = bytes ∧ Serving (source bytes.length s).2 left

variable {Serving : σ → List UInt8 → Prop} {p : ByteReader ε α} {input left : List UInt8} {a : α}
  {s : σ}

theorem run_of_reads (hserves : Serves source Serving) (h : Reads p input a)
    (hs : Serving s (input ++ left)) :
    (run source p s).1 = .ok a ∧ Serving (run source p s).2.1 left := by
  induction h generalizing s with
  | done a => exact ⟨rfl, hs⟩
  | @read size next bytes rest a hsize hrest ih =>
    subst hsize
    rw [append_assoc] at hs
    obtain ⟨hans, hserve⟩ := hserves s bytes (rest ++ left) hs
    simp only [run, hans]
    exact ih hserve

theorem run_ok_of_reads (hserves : Serves source Serving)
    (hok : ∀ s bytes left, Serving s (bytes ++ left) → (source bytes.length s).1.2 = true)
    (h : Reads p input a) (hs : Serving s (input ++ left)) : (run source p s).2.2 = true := by
  induction h generalizing s with
  | done a => rfl
  | @read size next bytes rest a hsize hrest ih =>
    subst hsize
    rw [append_assoc] at hs
    obtain ⟨hans, hserve⟩ := hserves s bytes (rest ++ left) hs
    simp only [run, hans, hok s bytes _ hs, Bool.true_and]
    exact ih hserve

end Run

end ByteReader
