import Terrier.Lib.LittleEndian

/-!
Numbers as bytes, most significant first, and the taking of a number of bytes
from the front of an input.
-/

namespace BigEndian

def encode (width n : Nat) : List UInt8 := (LittleEndian.encode width n).reverse

def decode (bytes : List UInt8) : Nat := LittleEndian.decode bytes.reverse

@[simp] theorem length_encode (width n : Nat) : (encode width n).length = width := by
  simp [encode]

theorem decode_lt (bytes : List UInt8) : decode bytes < 256 ^ bytes.length := by
  rw [← List.length_reverse]
  exact LittleEndian.decode_lt bytes.reverse

theorem decode_encode_mod (width n : Nat) : decode (encode width n) = n % 256 ^ width := by
  rw [decode, encode, List.reverse_reverse, LittleEndian.decode_encode_mod]

theorem decode_encode {width n : Nat} (h : n < 256 ^ width) : decode (encode width n) = n := by
  rw [decode_encode_mod, Nat.mod_eq_of_lt h]

def take? (n : Nat) (bytes : List UInt8) : Option (List UInt8 × List UInt8) :=
  if n ≤ bytes.length then some (bytes.take n, bytes.drop n) else none

theorem take?_append {n : Nat} {front : List UInt8} (h : front.length = n) (rest : List UInt8) :
    take? n (front ++ rest) = some (front, rest) := by
  subst h
  simp [take?]

theorem length_of_take? {n : Nat} {bytes front rest : List UInt8}
    (h : take? n bytes = some (front, rest)) : front.length = n := by
  obtain ⟨hle, heq⟩ := Option.ite_none_right_eq_some.mp h
  cases heq
  rw [List.length_take]
  omega

end BigEndian
