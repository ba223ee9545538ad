import Mathlib.Tactic.SplitIfs
import Terrier.Execution.StringFunctions

/-!
The lengths and contents `Lpad`, `Rpad` and `Repeat` produce.
-/

namespace Terrier.Sql.StringFunctions

open List Option

/-- `count` bytes of repetitions of `pad`; none if it is empty. -/
def cyclic (pad : List UInt8) (count : Nat) : List UInt8 :=
  (replicate count pad).flatten.take count

/-- Further copies do not change the first `count` bytes. -/
theorem cyclic_of_le {pad : List UInt8} (hpad : pad ≠ []) {count n : Nat} (h : count ≤ n) :
    (replicate n pad).flatten.take count = cyclic pad count := by
  obtain ⟨k, rfl⟩ := Nat.exists_eq_add_of_le h
  rw [replicate_add, flatten_append, take_append_of_le_length, cyclic]
  rw [length_flatten, map_replicate, sum_replicate_nat]
  exact Nat.le_mul_of_pos_right count (length_pos_iff.mpr hpad)

theorem length_cyclic {pad : List UInt8} (hpad : pad ≠ []) (count : Nat) :
    (cyclic pad count).length = count := by
  rw [cyclic, length_take, length_flatten, map_replicate, sum_replicate_nat]
  exact Nat.min_eq_left (Nat.le_mul_of_pos_right count (length_pos_iff.mpr hpad))

theorem cyclic_eq {pad : List UInt8} (hpad : pad ≠ []) {count : Nat} (h : 0 < count) :
    cyclic pad count =
      pad.take (min pad.length count) ++ cyclic pad (count - min pad.length count) := by
  have hpos := length_pos_iff.mpr hpad
  obtain ⟨n, rfl⟩ := Nat.exists_eq_add_of_lt h
  have htake : pad.take (n + 1) = pad.take (min pad.length (n + 1)) := by
    rw [take_eq_take_iff]
    omega
  rw [cyclic, Nat.zero_add, replicate_succ, flatten_cons, take_append,
    cyclic_of_le hpad (by omega), htake]
  congr 2
  omega

/-- The padding loop ends for a pad that is not empty. -/
theorem padding_eq {pad : List UInt8} (hpad : pad ≠ []) {fuel count : Nat} (h : count < fuel) :
    padding pad fuel count = some (cyclic pad count) := by
  induction fuel generalizing count with
  | zero => omega
  | succ fuel ih =>
    have hpos := length_pos_iff.mpr hpad
    unfold padding
    dsimp only
    split_ifs with hcount
    · rw [hcount]
      rfl
    · rw [ih (by omega), map_some, ← cyclic_eq hpad (by omega)]

/-- It does not for an empty one, unless there is nothing to do. -/
theorem padding_nil {count : Nat} (h : count ≠ 0) (fuel : Nat) : padding [] fuel count = none := by
  induction fuel with
  | zero => rfl
  | succ fuel ih => simp [padding, h, ih]

theorem filled_eq_some {size : Nat} {bytes : List UInt8} {result : StringResult} :
    filled size bytes = some result ↔ bytes.length = size ∧ .string bytes = result := by
  unfold filled
  split_ifs with h <;> simp [h]

/-- The string at length `len`: cut off, or with the padding put where `join` says. -/
def padded (join : List UInt8 → List UInt8 → List UInt8) (s pad : List UInt8) (len : Nat) :
    List UInt8 :=
  if len ≤ s.length then s.take len else join (cyclic pad (len - s.length)) s

def Produces (f : Nat → Option StringResult) (bytes : List UInt8) : Prop :=
  ∃ fuel, f fuel = some .allocationFailed ∨ f fuel = some (.string bytes)

/-- When padding a string of `n` bytes to `len` works. -/
def PadsWell (n : Nat) (pad : List UInt8) (len : Int) : Prop :=
  len ≤ n ∨ 2 ^ 30 < len % 2 ^ 32 ∨ if pad = [] then (len - n) % 2 ^ 32 = 0 else len < 2 ^ 32

section

variable {join : List UInt8 → List UInt8 → List UInt8} (s pad : Text) (len : Int64)
  (hlen : 0 ≤ len.toInt)

include hlen in
theorem padWith_eq (fuel : Nat) : padWith join fuel (some s) (some len) (some pad) =
    if len.toInt ≤ s.bytes.length then some (.string (s.bytes.take len.toInt.toNat))
    else if maxStringLen < uint32 len.toInt then some .allocationFailed
    else (padding pad.bytes fuel (uint32 (len.toInt - s.bytes.length))).bind fun pads =>
      filled (uint32 len.toInt) (join pads s.bytes) := by
  have hfits := s.fits
  unfold padWith
  dsimp only
  generalize len.toInt = l at *
  rw [if_neg (by omega)]
  by_cases heq : l = s.bytes.length
  · rw [if_pos heq, if_pos (by omega), take_of_length_le (by omega)]
  · rw [if_neg heq]
    by_cases hlt : l < s.bytes.length
    · rw [if_pos hlt, if_pos (by omega)]
      apply (view_eq_iff s 0 _ _).mpr
      unfold uint32
      omega
    · rw [if_neg hlt, if_neg (show ¬ l ≤ s.bytes.length by omega)]
      rfl

include hlen in
theorem padWith_iff (hjoin : ∀ a b, (join a b).length = a.length + b.length)
    (hnil : ∀ a, join [] a = a) :
    Produces (fun fuel => padWith join fuel (some s) (some len) (some pad))
        (padded join s.bytes pad.bytes len.toInt.toNat) ↔
      PadsWell s.bytes.length pad.bytes len.toInt := by
  have hfits := s.fits
  have hsize : uint32 len.toInt = len.toInt % 2 ^ 32 := by
    unfold uint32
    omega
  have hrest : uint32 (len.toInt - s.bytes.length) = (len.toInt - s.bytes.length) % 2 ^ 32 := by
    unfold uint32
    omega
  unfold Produces PadsWell padded
  have hmax : maxStringLen = 2 ^ 30 := rfl
  simp only [padWith_eq s pad len hlen]
  by_cases hle : len.toInt ≤ s.bytes.length
  · rw [if_pos (by omega)]
    simp [hle]
  rw [if_neg (by omega)]
  by_cases hbig : maxStringLen < uint32 len.toInt
  · exact iff_of_true ⟨0, .inl (by rw [if_neg hle, if_pos hbig])⟩ (.inr (.inl (by omega)))
  have hbig' : ¬ 2 ^ 30 < len.toInt % 2 ^ 32 := by omega
  simp only [hle, hbig, hbig', if_false, false_or]
  by_cases hpad : pad.bytes = []
  · rw [if_pos hpad, hpad]
    by_cases hzero : (len.toInt - s.bytes.length) % 2 ^ 32 = 0
    · refine iff_of_true ⟨1, .inr ?_⟩ hzero
      rw [show uint32 (len.toInt - s.bytes.length) = 0 by omega]
      simp [padding, filled, hnil, cyclic]
      omega
    · refine iff_of_false ?_ hzero
      rintro ⟨fuel, h⟩
      rw [padding_nil (by omega)] at h
      simp at h
  · rw [if_neg hpad]
    constructor
    · rintro ⟨fuel, h⟩
      cases hpads : padding pad.bytes fuel (uint32 (len.toInt - s.bytes.length)) with
      | none => simp [hpads] at h
      | some pads =>
        simp only [hpads, bind_some, filled_eq_some, reduceCtorEq, and_false, false_or,
          StringResult.string.injEq] at h
        have hlength := h.1
        rw [h.2, hjoin, length_cyclic hpad] at hlength
        omega
    · intro hlt
      have hcount : uint32 (len.toInt - s.bytes.length) = len.toInt.toNat - s.bytes.length := by
        omega
      refine ⟨len.toInt.toNat - s.bytes.length + 1, .inr ?_⟩
      rw [hcount, padding_eq hpad (Nat.lt_succ_self _), bind_some, filled_eq_some, hjoin,
        length_cyclic hpad]
      exact ⟨by omega, rfl⟩

end

theorem copies_eq (src : List UInt8) {n : Nat} (hn : n < 2 ^ 32) (fuel i : Nat)
    (hi : i ≤ n) (hfuel : n - i < fuel) :
    copies src n fuel i = some (replicate (n - i) src).flatten := by
  induction fuel generalizing i with
  | zero => omega
  | succ fuel ih =>
    unfold copies
    split_ifs with hlt
    · rw [Nat.mod_eq_of_lt (by omega), ih (i + 1) (by omega) (by omega),
        show n - i = n - (i + 1) + 1 by omega, replicate_succ, flatten_cons]
      rfl
    · rw [show n - i = 0 by omega]
      rfl

/-- When repeating a string of `n` bytes works. -/
def RepeatsWell (n : Nat) (count : Int) : Prop :=
  n = 0 ∨ count ≤ 0 ∨ n * count ≤ 2 ^ 30 ∨ n * count < 2 ^ 63 ∧ 2 ^ 30 < n * count % 2 ^ 32

theorem repeat_iff (s : Text) (n : Int64) : Produces (fun fuel => repeat' fuel (some s) (some n))
        (replicate n.toInt.toNat s.bytes).flatten ↔
      RepeatsWell s.bytes.length n.toInt := by
  unfold Produces RepeatsWell repeat'
  dsimp only
  generalize n.toInt = k
  by_cases htrivial : s.bytes.length = 0 ∨ k ≤ 0
  · have hempty : (replicate k.toNat s.bytes).flatten = [] := by
      obtain h | h := htrivial
      · simp [length_eq_zero_iff.mp h]
      · simp [Int.toNat_of_nonpos h]
    refine iff_of_true ⟨0, .inr ?_⟩ (or_assoc.mp (.inl htrivial))
    rw [if_pos htrivial, hempty]
  have hlength : ((replicate k.toNat s.bytes).flatten.length : Int) = s.bytes.length * k := by
    rw [length_flatten, map_replicate, sum_replicate_nat, Int.natCast_mul, Int.mul_comm,
      Int.toNat_of_nonneg (by omega)]
  have hcount : k ≤ s.bytes.length * k := by
    have := Int.mul_le_mul_of_nonneg_right (show (1 : Int) ≤ s.bytes.length by omega)
      (show 0 ≤ k by omega)
    omega
  rw [not_or] at htrivial
  simp only [htrivial.1, htrivial.2, false_or, if_false]
  generalize (s.bytes.length : Int) * k = total at *
  have hmax : maxStringLen = 2 ^ 30 := rfl
  have hsize : uint32 total = total % 2 ^ 32 := by
    unfold uint32
    omega
  by_cases hover : 2 ^ 63 ≤ total
  · simp only [if_pos hover]
    exact iff_of_false (by simp) (by omega)
  simp only [if_neg hover]
  by_cases hbig : maxStringLen < uint32 total
  · simp only [if_pos hbig]
    exact iff_of_true ⟨0, .inl trivial⟩ (by omega)
  simp only [if_neg hbig]
  constructor
  · rintro ⟨fuel, h⟩
    cases hcopies : copies s.bytes k fuel 0 with
    | none => simp [hcopies] at h
    | some bytes =>
      simp only [hcopies, bind_eq_bind, bind_some, filled_eq_some, reduceCtorEq, and_false,
        false_or, StringResult.string.injEq] at h
      rw [← h.2, h.1] at hlength
      omega
  · intro h
    obtain ⟨m, rfl⟩ := Int.eq_ofNat_of_zero_le (show 0 ≤ k by omega)
    refine ⟨m + 1, .inr ?_⟩
    rw [copies_eq s.bytes (by omega) _ 0 (by omega) (by omega), bind_eq_bind, bind_some,
      filled_eq_some, Nat.sub_zero]
    rw [Int.toNat_natCast] at hlength ⊢
    exact ⟨by omega, rfl⟩

theorem pads_and_repeats_iff (s pad : Text) (len n : Int64) (hlen : 0 ≤ len.toInt) :
    (Produces (fun fuel => lpad fuel (some s) (some len) (some pad))
        (padded (fun pads str => pads ++ str) s.bytes pad.bytes len.toInt.toNat) ↔
      PadsWell s.bytes.length pad.bytes len.toInt) ∧
    (Produces (fun fuel => rpad fuel (some s) (some len) (some pad))
        (padded (fun pads str => str ++ pads) s.bytes pad.bytes len.toInt.toNat) ↔
      PadsWell s.bytes.length pad.bytes len.toInt) ∧
    (Produces (fun fuel => repeat' fuel (some s) (some n))
        (replicate n.toInt.toNat s.bytes).flatten ↔
      RepeatsWell s.bytes.length n.toInt) := by
  refine ⟨?_, ?_, repeat_iff s n⟩
  · exact padWith_iff s pad len hlen (fun a b => length_append) nil_append
  · exact padWith_iff s pad len hlen (fun a b => by rw [length_append, Nat.add_comm]) append_nil

theorem pads_two_and_repeats_once :
    Produces (fun fuel => lpad fuel (some ⟨[97], by decide⟩) (some 2) (some ⟨[120], by decide⟩))
        [120, 97] ∧
      Produces (fun fuel => repeat' fuel (some ⟨[97], by decide⟩) (some 1)) [97] :=
  have h := pads_and_repeats_iff ⟨[97], by decide⟩ ⟨[120], by decide⟩ 2 1 (by decide)
  ⟨h.1.mpr (by simp [PadsWell]), h.2.2.mpr (by simp [RepeatsWell])⟩

/-- With an empty pad the loop makes no progress. -/
theorem lpad_empty_diverges :
    ¬ Produces (fun fuel => lpad fuel (some ⟨[97], by decide⟩) (some 2) (some ⟨[], by decide⟩))
      [97] := by
  rintro ⟨fuel, h⟩
  dsimp only at h
  rw [show lpad fuel (some ⟨[97], by decide⟩) (some 2) (some ⟨[], by decide⟩) =
    (padding [] fuel 1).bind fun pads => filled 2 (pads ++ [97]) from rfl,
    padding_nil (by decide)] at h
  simp at h

end Terrier.Sql.StringFunctions
