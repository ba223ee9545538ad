import Mathlib.Tactic

/-!
Numbers and bit lists as bytes, least significant first. Both are memory
images: a number of a fixed width, and a bitmap that is padded with zero bits
to whole bytes.
-/

namespace LittleEndian

open List

/-- The `width` low bytes of a number. -/
def encode : Nat → Nat → List UInt8
  | 0, _ => []
  | width + 1, n => UInt8.ofNat n :: encode width (n / 256)

def decode : List UInt8 → Nat
  | [] => 0
  | b :: bytes => b.toNat + 256 * decode bytes

@[simp] theorem length_encode (width n : Nat) : (encode width n).length = width := by
  induction width generalizing n with
  | zero => rfl
  | succ width ih => simp [encode, ih]

theorem decode_lt (bytes : List UInt8) : decode bytes < 256 ^ bytes.length := by
  induction bytes with
  | nil => exact Nat.one_pos
  | cons byte rest ih =>
    have hbyte : byte.toNat < 256 := byte.toNat_lt
    rw [decode, length_cons, pow_succ]
    omega

/-- A number that does not fit loses its high bytes. -/
theorem decode_encode_mod (width n : Nat) : decode (encode width n) = n % 256 ^ width := by
  induction width generalizing n with
  | zero => simp [encode, decode, Nat.mod_one]
  | succ width ih =>
    have hlow : (UInt8.ofNat n).toNat = n % 256 := UInt8.toNat_ofNat'
    rw [encode, decode, ih, hlow, pow_succ', Nat.mod_mul]

theorem decode_encode {width n : Nat} (h : n < 256 ^ width) : decode (encode width n) = n := by
  rw [decode_encode_mod, Nat.mod_eq_of_lt h]

def read? (bytes : List UInt8) (position width : Nat) : Option Nat :=
  if position + width ≤ bytes.length then some (decode ((bytes.drop position).take width))
  else none

def At (bytes part : List UInt8) (position : Nat) : Prop :=
  ∃ before after, bytes = before ++ (part ++ after) ∧ before.length = position

namespace At

variable {bytes part rest : List UInt8} {position : Nat}

theorem left (h : At bytes (part ++ rest) position) : At bytes part position := by
  obtain ⟨before, after, hbytes, hpos⟩ := h
  rw [append_assoc] at hbytes
  exact ⟨before, rest ++ after, hbytes, hpos⟩

theorem right (h : At bytes (part ++ rest) position) : At bytes rest (position + part.length) := by
  obtain ⟨before, after, hbytes, hpos⟩ := h
  refine ⟨before ++ part, after, ?_, ?_⟩
  · rw [hbytes, append_assoc, append_assoc]
  · rw [length_append, hpos]

theorem length_le (h : At bytes part position) : position + part.length ≤ bytes.length := by
  obtain ⟨before, after, hbytes, hpos⟩ := h
  rw [hbytes, length_append, length_append]
  omega

/-- A number that stands in the bytes is read back. -/
theorem read?_eq {width n : Nat} (h : At bytes (encode width n) position)
    (hn : n < 256 ^ width) : read? bytes position width = some n := by
  have hroom := h.length_le
  rw [length_encode] at hroom
  obtain ⟨before, after, hbytes, hpos⟩ := h
  have htake : (encode width n ++ after).take width = encode width n := by
    rw [take_append_of_le_length (by simp), take_of_length_le (by simp)]
  rw [read?, if_pos hroom, hbytes, ← hpos, drop_left, htake, decode_encode hn]

end At

def bitmapSize (n : Nat) : Nat :=
  if n % 8 = 0 then n / 8 else n / 8 + 1

def packByte (bit : Nat → Bool) : UInt8 :=
  UInt8.ofNat ((bit 0).toNat + 2 * (bit 1).toNat + 4 * (bit 2).toNat + 8 * (bit 3).toNat +
    16 * (bit 4).toNat + 32 * (bit 5).toNat + 64 * (bit 6).toNat + 128 * (bit 7).toNat)

def packBits (bits : List Bool) : List UInt8 :=
  (List.range (bitmapSize bits.length)).map fun k => packByte fun j => bits.getD (8 * k + j) false

def testBit (bytes : List UInt8) (pos : Nat) : Bool :=
  (bytes.getD (pos / 8) 0).toNat.testBit (pos % 8)

@[simp] theorem length_packBits (bits : List Bool) :
    (packBits bits).length = bitmapSize bits.length := by
  simp [packBits]

theorem testBit_packByte (bit : Nat → Bool) {j : Nat} (h : j < 8) :
    (packByte bit).toNat.testBit j = bit j := by
  -- The eight bits are arbitrary, so they are named and the rest is a finite check.
  have hbyte : ∀ b0 b1 b2 b3 b4 b5 b6 b7 : Bool, ∀ j : Fin 8,
      (UInt8.ofNat (b0.toNat + 2 * b1.toNat + 4 * b2.toNat + 8 * b3.toNat + 16 * b4.toNat +
        32 * b5.toNat + 64 * b6.toNat + 128 * b7.toNat)).toNat.testBit j =
      [b0, b1, b2, b3, b4, b5, b6, b7].getD j false := by
    decide
  rw [packByte, hbyte _ _ _ _ _ _ _ _ ⟨j, h⟩]
  interval_cases j <;> rfl

theorem div_lt_bitmapSize {pos n : Nat} (h : pos < n) : pos / 8 < bitmapSize n := by
  unfold bitmapSize
  split <;> omega

theorem testBit_packBits (bits : List Bool) {pos : Nat} (h : pos < bits.length) :
    testBit (packBits bits) pos = bits.getD pos false := by
  have hbyte : (packBits bits).getD (pos / 8) 0 =
      packByte fun j => bits.getD (8 * (pos / 8) + j) false := by
    simp [packBits, getD_eq_getElem?_getD, div_lt_bitmapSize h]
  rw [testBit, hbyte, testBit_packByte _ (Nat.mod_lt _ (by decide)), Nat.div_add_mod]

end LittleEndian
