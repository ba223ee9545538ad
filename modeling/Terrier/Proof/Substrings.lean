import Terrier.Execution.StringFunctions

/-!
What `Substring` returns against its definition: the code cuts the length to that of the string
and not to what is left of it behind the position.
-/

namespace Terrier.Sql.StringFunctions

open List Option

/-- The bytes at the 1-based positions from `pos` on and before `pos + len`. -/
def selected (s : List UInt8) (pos len : Int) : List UInt8 :=
  (s.zipIdx 1).filterMap fun (byte, i) =>
    if pos ≤ i ∧ (i : Int) < pos + len then some byte else none

theorem selected_from (s : List UInt8) (k : Nat) (pos len : Int) :
    ((s.zipIdx k).filterMap fun (byte, i) =>
        if pos ≤ i ∧ (i : Int) < pos + len then some byte else none) =
      (s.drop (pos - k).toNat).take ((pos + len - k).toNat - (pos - k).toNat) := by
  induction s generalizing k with
  | nil => simp
  | cons byte s ih =>
    rw [zipIdx_cons, filterMap_cons, ih]
    dsimp only
    by_cases hbef : pos ≤ k
    · rw [show (pos - k).toNat = 0 by omega, show (pos - (k + 1 : Nat)).toNat = 0 by omega]
      by_cases hend : (k : Int) < pos + len
      · rw [if_pos ⟨hbef, hend⟩, show (pos + len - k).toNat - 0 =
          ((pos + len - (k + 1 : Nat)).toNat - 0) + 1 by omega]
        rfl
      · rw [if_neg fun h => hend h.2, show (pos + len - k).toNat = 0 by omega,
          show (pos + len - (k + 1 : Nat)).toNat = 0 by omega]
        rfl
    · rw [if_neg fun h => hbef h.1, show (pos - k).toNat = (pos - (k + 1 : Nat)).toNat + 1 by
        omega, drop_succ_cons, Nat.sub_add_eq, show (pos + len - (k + 1 : Nat)).toNat =
        (pos + len - k).toNat - 1 by omega, Nat.sub_right_comm]

/-- When `Substring` is right about a string of `n` bytes. -/
def SubstringInside (n : Nat) (pos len : Int) : Prop :=
  if len < 0 then -2 ^ 63 ≤ pos + len
  else n = 0 ∨ len = 0 ∨
    if 1 ≤ pos then pos - 1 + min (n : Int) len ≤ n else len ≤ n ∨ pos + len ≤ 1

theorem substring_iff (s : Text) (pos len : Int64) : substring (some s) (some pos) (some len) =
        some (if len.toInt < 0 then .null else .string (selected s.bytes pos.toInt len.toInt)) ↔
      SubstringInside s.bytes.length pos.toInt len.toInt := by
  have hpos := pos.le_toInt
  have hpos' := pos.toInt_lt
  have hfits := s.fits
  unfold substring selected SubstringInside add64
  rw [selected_from]
  dsimp only
  generalize pos.toInt = p at *
  generalize len.toInt = l at *
  by_cases hneg : l < 0
  · rw [if_pos hneg, if_pos hneg, show min (s.bytes.length : Int) l = l by omega]
    by_cases hrange : -2 ^ 63 ≤ p + l
    · rw [if_pos ⟨hrange, by omega⟩, bind_eq_bind, bind_some, if_pos (by omega)]
      exact iff_of_true rfl hrange
    · rw [if_neg fun h => hrange h.1]
      exact iff_of_false (by simp) hrange
  rw [if_neg hneg, if_neg hneg]
  by_cases hrange : p + min (s.bytes.length : Int) l < 2 ^ 63
  · rw [if_pos (by omega), bind_eq_bind, bind_some, if_neg (by omega)]
    by_cases hstop : p + min (s.bytes.length : Int) l < 1
    · rw [if_pos hstop, some_inj, StringResult.string.injEq, eq_comm, ← length_eq_zero_iff,
        length_take, length_drop, if_neg (by omega), show (p - (1 : Nat)).toNat = 0 by omega]
      omega
    · rw [if_neg hstop, show max p 1 - 1 = ((p - 1).toNat : Int) by omega]
      trans
      · exact view_eq_iff s _ _ _
      · rw [uint32, Int.emod_eq_of_lt (by omega) (by omega)]
        split
        · rw [max_eq_left (by omega)]
          omega
        · rw [max_eq_right (by omega), show (p - (1 : Nat)).toNat = 0 by omega]
          omega
  · rw [if_neg (by omega)]
    simp only [bind_eq_bind, bind_none, reduceCtorEq, false_iff]
    rw [if_pos (by omega)]
    omega

/-- Five bytes from the second of three on: the view reaches behind the string. -/
theorem substring_reaches_out :
    substring (some ⟨[97, 98, 99], by decide⟩) (some 2) (some 5) = none ∧
      selected [97, 98, 99] 2 5 = [98, 99] := by
  decide

end Terrier.Sql.StringFunctions
