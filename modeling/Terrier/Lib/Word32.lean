import Mathlib.Tactic

/-!
Unsigned arithmetic of 32 bits in which a result that would wrap around is no result.
-/

namespace Word32

def narrow (n : Nat) : Option Nat := if n < 2 ^ 32 then some n else none

def add (a b : Nat) : Option Nat := narrow (a + b)

def mul (a b : Nat) : Option Nat := narrow (a * b)

def sub (a b : Nat) : Option Nat := if b ≤ a then some (a - b) else none

variable {a b : Nat}

theorem narrow_of_lt (h : a < 2 ^ 32) : narrow a = some a := if_pos h

theorem add_of_lt (h : a + b < 2 ^ 32) : add a b = some (a + b) := if_pos h

theorem mul_of_lt (h : a * b < 2 ^ 32) : mul a b = some (a * b) := if_pos h

theorem sub_of_le (h : b ≤ a) : sub a b = some (a - b) := if_pos h

end Word32
