import Mathlib.Data.FinEnum
import Mathlib.Data.List.DropRight
import Terrier.Execution.StringFunctions

/-!
What `Left`, `Right` and the trim functions return, against their definitions.
-/

namespace Terrier.Sql.StringFunctions

open List Option

/-- The first `n` bytes, or all but the last `-n`. -/
def leftmost (s : List UInt8) (n : Int) : List UInt8 :=
  s.take (if 0 ≤ n then n else s.length + n).toNat

/-- The last `n` bytes, or all but the first `-n`. -/
def rightmost (s : List UInt8) (n : Int) : List UInt8 :=
  s.drop (if 0 ≤ n then s.length - n.toNat else n.natAbs)

theorem view_rest (s : Text) {first len : Nat} (h : first + len = s.bytes.length) :
    view s first len = some (.string (s.bytes.drop first)) := by
  have hview := (view_eq_iff s first len len).mpr (by omega)
  rwa [take_of_length_le (by rw [length_drop]; omega)] at hview

theorem right_eq (s : Text) (n : Int64) (hn : n.toInt ≠ -2 ^ 63) :
    right (some s) (some n) = some (.string (s.bytes.drop (if 0 < n.toInt then
      s.bytes.length - uint32 n.toInt.natAbs
      else min s.bytes.length (uint32 n.toInt.natAbs)))) := by
  simp only [right, if_neg hn, gt_iff_lt]
  split_ifs with hpos
  · rw [show (s.bytes.length : Int) - (min s.bytes.length (uint32 n.toInt.natAbs) : Nat) =
      (s.bytes.length - uint32 n.toInt.natAbs : Nat) by omega]
    exact view_rest s (by omega)
  · exact view_rest s (by omega)

theorem right_iff (s : Text) (n : Int64) :
    right (some s) (some n) = some (.string (rightmost s.bytes n.toInt)) ↔
      n.toInt ≠ -2 ^ 63 ∧ (n.toInt = 0 → s.bytes = []) ∧
        (n.toInt.natAbs < 2 ^ 32 ∨ s.bytes.length ≤ n.toInt.natAbs % 2 ^ 32) := by
  by_cases hn : n.toInt = -2 ^ 63
  · simp [right, hn]
  have hfits := s.fits
  rw [right_eq s n hn, some_inj, StringResult.string.injEq, rightmost, drop_eq_drop_iff,
    ← length_eq_zero_iff]
  unfold uint32
  split_ifs <;> omega

theorem bitIndex_eq (c : UInt8) : bitIndex c = if c < 128 then some c.toNat else none := by
  have hc : c < 128 ↔ c.toNat < 128 := UInt8.lt_iff_toNat_lt
  have hlt := c.toNat_lt
  have hint : c.toInt8.toInt = (c.toNat : Int).bmod 256 := BitVec.toInt_eq_toNat_bmod _
  have hindex : uint32 c.toInt8.toInt =
      if c.toNat < 128 then c.toNat else 2 ^ 32 - 256 + c.toNat := by
    rw [hint, Int.bmod_def, uint32]
    split_ifs <;> omega
  simp only [bitIndex, hindex, hc]
  by_cases hsmall : c.toNat < 128
  · rw [if_pos hsmall, if_pos hsmall, if_pos (by omega)]
  · rw [if_neg hsmall, if_neg hsmall, if_neg (by omega)]

theorem setAll_eq (chars : List UInt8) (bitset : List Nat) : setAll bitset chars =
    if ∀ c ∈ chars, c < 128 then some ((chars.map UInt8.toNat).reverse ++ bitset) else none := by
  induction chars generalizing bitset with
  | nil => simp [setAll]
  | cons c chars ih =>
    rw [setAll, bitIndex_eq]
    by_cases hc : c < 128
    · simp [hc, ih]
    · simp [hc]

/-- How many bytes of `chars` a side has in front, if the side is trimmed. -/
def edge (chars : List UInt8) (side : Bool) (src : List UInt8) : Nat :=
  if side then (src.takeWhile (· ∈ chars)).length else 0

section

variable {chars : List UInt8} {bitset : List Nat}
  (hbits : ∀ c : UInt8, c.toNat ∈ bitset ↔ c ∈ chars) (hascii : ∀ c ∈ chars, c < 128)
include hbits hascii

theorem passOver_eq (src : List UInt8) : passOver bitset src =
    if ∀ c ∈ src.find? (· ∉ chars), c < 128 then some (src.takeWhile (· ∈ chars)).length
      else none := by
  induction src with
  | nil => simp [passOver]
  | cons c src ih =>
    rw [passOver, bitIndex_eq]
    by_cases hmem : c ∈ chars
    · simp only [hascii c hmem, if_true, bind_eq_bind, bind_some, (hbits c).mpr hmem, ih,
        find?_cons, takeWhile_cons, hmem, decide_true, not_true_eq_false, decide_false]
      split_ifs <;> rfl
    · by_cases hc : c < 128
      · simp [hc, hbits, hmem]
      · simp [hc, hmem]

theorem trimLoop_eq (side : Bool) (src : List UInt8) : trimLoop side bitset src =
    if side → ∀ c ∈ src.find? (· ∉ chars), c < 128 then some (edge chars side src) else none := by
  cases side with
  | false => simp [trimLoop, edge]
  | true => simp [trimLoop, passOver_eq hbits hascii, edge]

end

/-- The bytes without the longest run of `chars` in front, behind, or on both sides. -/
def trimmed (trimLeft trimRight : Bool) (s chars : List UInt8) : List UInt8 :=
  let s := if trimLeft then s.dropWhile (· ∈ chars) else s
  if trimRight then s.rdropWhile (· ∈ chars) else s

section

variable (chars : List UInt8) (side : Bool) (s : List UInt8)

theorem edge_le : edge chars side s ≤ s.length := by
  cases side with
  | false => exact Nat.zero_le _
  | true => exact IsPrefix.length_le <| takeWhile_prefix _

theorem drop_edge : s.drop (edge chars side s) = if side then s.dropWhile (· ∈ chars) else s := by
  cases side with
  | false => rfl
  | true =>
    have hdrop := @drop_left _ (s.takeWhile (· ∈ chars)) (s.dropWhile (· ∈ chars))
    rwa [takeWhile_append_dropWhile] at hdrop

theorem find_drop_edge :
    (s.drop (edge chars side s)).reverse.find? (· ∉ chars) = s.reverse.find? (· ∉ chars) := by
  cases side with
  | false => rfl
  | true =>
    have hnone : (s.takeWhile (· ∈ chars)).reverse.find? (· ∉ chars) = none := by
      rw [find?_eq_none]
      intro c hc
      simpa using mem_takeWhile_imp (mem_reverse.mp hc)
    conv_rhs => rw [← takeWhile_append_dropWhile (p := (· ∈ chars)) (l := s)]
    rw [drop_edge, if_pos rfl, reverse_append, find?_append, hnone, Option.or_none]

theorem take_edge : s.take (s.length - edge chars side s.reverse) =
      if side then s.rdropWhile (· ∈ chars) else s := by
  have hdrop := congrArg reverse (drop_edge chars side s.reverse)
  rw [drop_reverse, reverse_reverse] at hdrop
  rw [hdrop]
  cases side with
  | false => simp
  | true => rfl

end

/-- `DoTrim` looks at the left end of strings shorter than `2 ^ 31` bytes only, at the right end
also of those of that length. -/
def looksLeft (s : Text) : Bool := s.bytes.length < 2 ^ 31

def looksRight (s : Text) : Bool := s.bytes.length ≤ 2 ^ 31

theorem last_succ {n : Nat} (hpos : 0 < n) (hfits : n < 2 ^ 32) :
    int32 (n - 1) + 1 = if n ≤ 2 ^ 31 then (n : Int) else n - 2 ^ 32 := by
  unfold int32
  rw [Int.bmod_def]
  split_ifs <;> omega

theorem viewed_length {n first behind : Nat} (hpos : 0 < n) (hfits : n < 2 ^ 32)
    (hle : first + behind ≤ n) :
    uint32 (int32 (n - 1) - behind - first + 1) = n - first - behind := by
  rw [show int32 (n - 1) - behind - first + 1 = int32 (n - 1) + 1 - behind - first by omega,
    last_succ hpos hfits, uint32]
  split_ifs <;> omega

section

variable (trimLeft trimRight : Bool) (s chars : Text)

theorem left_loop (bitset : List Nat) :
    trimLoop trimLeft bitset (s.bytes.take (int32 s.bytes.length).toNat) =
      trimLoop (trimLeft && looksLeft s) bitset s.bytes := by
  have hfits := s.fits
  have hint : (int32 s.bytes.length).toNat = if looksLeft s then s.bytes.length else 0 := by
    unfold int32 looksLeft
    rw [Int.bmod_def]
    split_ifs <;> simp_all <;> omega
  rw [hint]
  cases trimLeft <;> cases looksLeft s <;> simp [trimLoop, passOver]

theorem right_loop (hs : s.bytes ≠ []) (bitset : List Nat) (first : Nat) : trimLoop trimRight bitset
        ((s.bytes.take (int32 (s.bytes.length - 1) + 1).toNat).drop first).reverse =
      trimLoop (trimRight && looksRight s) bitset (s.bytes.drop first).reverse := by
  have hfits := s.fits
  have hint : (int32 (s.bytes.length - 1) + 1).toNat =
      if looksRight s then s.bytes.length else 0 := by
    rw [last_succ (length_pos_iff.mpr hs) hfits]
    unfold looksRight
    split_ifs <;> simp_all <;> omega
  rw [hint]
  cases trimRight <;> cases looksRight s <;> simp [trimLoop, passOver]

def LooksUpAscii : Prop :=
  (∀ c ∈ chars.bytes, c < 128) ∧
    (trimLeft && looksLeft s → ∀ c ∈ s.bytes.find? (· ∉ chars.bytes), c < 128) ∧
    (trimRight && looksRight s → ∀ c ∈ s.bytes.reverse.find? (· ∉ chars.bytes), c < 128)

open Classical in
theorem doTrim_eq (hs : s.bytes ≠ []) : doTrim trimLeft trimRight (some s) (some chars) =
    if LooksUpAscii trimLeft trimRight s chars then some (.string (trimmed
      (trimLeft && looksLeft s) (trimRight && looksRight s) s.bytes chars.bytes)) else none := by
  by_cases hascii : ∀ c ∈ chars.bytes, c < 128
  · have hbits (c : UInt8) : c.toNat ∈ (chars.bytes.map UInt8.toNat).reverse ++ [] ↔
        c ∈ chars.bytes := by
      simp [UInt8.toNat_inj]
    simp only [doTrim, if_neg hs, setAll_eq, if_pos hascii, pure, bind_eq_bind, bind_some,
      left_loop, right_loop trimRight s hs, trimLoop_eq hbits hascii]
    generalize hl : (trimLeft && looksLeft s) = l
    generalize hr : (trimRight && looksRight s) = r
    by_cases hleft : l = true → ∀ c ∈ s.bytes.find? (· ∉ chars.bytes), c < 128
    · rw [if_pos hleft, bind_some, find_drop_edge]
      by_cases hright : r = true → ∀ c ∈ s.bytes.reverse.find? (· ∉ chars.bytes), c < 128
      · rw [if_pos hright, bind_some, if_pos ⟨hascii, hl ▸ hleft, hr ▸ hright⟩, trimmed]
        rw [← drop_edge, ← take_edge]
        apply (view_eq_iff s _ _ _).mpr
        have hfirst := edge_le chars.bytes l s.bytes
        have hbehind := edge_le chars.bytes r (s.bytes.drop (edge chars.bytes l s.bytes)).reverse
        rw [length_reverse, length_drop] at hbehind
        rw [viewed_length (length_pos_iff.mpr hs) s.fits (by omega), length_drop]
        omega
      · rw [if_neg hright, if_neg fun h => hright (hr ▸ h.2.2)]
        rfl
    · rw [if_neg hleft, if_neg fun h => hleft (hl ▸ h.2.1)]
      rfl
  · rw [if_neg fun h => hascii h.1]
    simp only [doTrim, if_neg hs, setAll_eq, if_neg hascii]
    rfl

end

/-- When a trim function is right: no byte it looks up is beyond ASCII, and there is nothing to
trim where it does not look. -/
def TrimsWell (trimLeft trimRight : Bool) (s chars : Text) : Prop :=
  s.bytes = [] ∨ LooksUpAscii trimLeft trimRight s chars ∧
    trimmed (trimLeft && looksLeft s) (trimRight && looksRight s) s.bytes chars.bytes =
      trimmed trimLeft trimRight s.bytes chars.bytes

theorem doTrim_iff (trimLeft trimRight : Bool) (s chars : Text) :
    doTrim trimLeft trimRight (some s) (some chars) =
        some (.string (trimmed trimLeft trimRight s.bytes chars.bytes)) ↔
      TrimsWell trimLeft trimRight s chars := by
  by_cases hs : s.bytes = []
  · exact iff_of_true (by cases trimLeft <;> cases trimRight <;> simp [doTrim, hs, trimmed])
      (.inl hs)
  · rw [doTrim_eq _ _ _ _ hs]
    split_ifs with hascii
    · simp [TrimsWell, hs, hascii]
    · simp [TrimsWell, hs, hascii]

/-- When `Trim`, `Left` and `Right` return what their definitions say. -/
theorem trim_left_right_iff (s chars : Text) (n : Int64) :
    (∀ trimLeft trimRight, doTrim trimLeft trimRight (some s) (some chars) =
        some (.string (trimmed trimLeft trimRight s.bytes chars.bytes)) ↔
      TrimsWell trimLeft trimRight s chars) ∧
    (left (some s) (some n) = some (.string (leftmost s.bytes n.toInt)) ↔
      n.toInt < 2 ^ 32 ∨ s.bytes.length ≤ n.toInt % 2 ^ 32) ∧
    (right (some s) (some n) = some (.string (rightmost s.bytes n.toInt)) ↔
      n.toInt ≠ -2 ^ 63 ∧ (n.toInt = 0 → s.bytes = []) ∧
        (n.toInt.natAbs < 2 ^ 32 ∨ s.bytes.length ≤ n.toInt.natAbs % 2 ^ 32)) := by
  refine ⟨fun trimLeft trimRight => doTrim_iff trimLeft trimRight s chars, ?_, right_iff s n⟩
  have hfits := s.fits
  trans
  · exact view_eq_iff s 0 _ _
  · unfold uint32
    split_ifs <;> omega

/-- Trimming a high byte fails an assertion, and the last zero bytes are the whole string. -/
theorem trim_right_wrong :
    doTrim true true (some ⟨[195, 97], by decide⟩) (some ⟨[195], by decide⟩) = none ∧
      right (some ⟨[97], by decide⟩) (some 0) = some (.string [97]) := by
  decide

end Terrier.Sql.StringFunctions
