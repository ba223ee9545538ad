import Terrier.Storage.ConcurrentBitmap

/-!
When the first unset bit is found. The number of bits left is counted from the start position, and
reduced by whole words although the first one begins before it. If no byte is read singly, the
search may end before the last bits.
-/

namespace Terrier.RawConcurrentBitmap

open List

variable {bits : Nat → Bool} {numBits startPos : Nat} {search : Search}

def SetUpTo (bits : Nat → Bool) (startPos pos : Nat) : Prop :=
  ∀ i, startPos ≤ i → i < pos → bits i = true

def Answers (bits : Nat → Bool) (numBits startPos : Nat) : Option Nat → Prop
  | some pos => startPos ≤ pos ∧ pos < numBits ∧ bits pos = false ∧ SetUpTo bits startPos pos
  | none => SetUpTo bits startPos numBits

/-- The last bits are passed over: start and end stand at the same bit of a byte with an even
number, every byte between them is full, and a bit in the last byte is unset. -/
def PassesOver (bits : Nat → Bool) (numBits startPos : Nat) : Prop :=
  startPos < numBits ∧ startPos % 8 = numBits % 8 ∧ startPos / 8 % 2 = 0 ∧ numBits / 8 % 2 = 0 ∧
    SetUpTo bits (startPos / 8 * 8) (numBits / 8 * 8) ∧
    ∃ i, numBits / 8 * 8 ≤ i ∧ i < numBits ∧ bits i = false

/-- Every word read lies in the bytes of the bitmap. -/
def ReadsInside (numBits : Nat) (reads : List (Nat × Nat)) : Prop :=
  ∀ read ∈ reads, read.1 + read.2 ≤ sizeInBytes numBits

theorem lt_sizeInBytes_iff {pos : Nat} : pos < sizeInBytes numBits ↔ pos * 8 < numBits := by
  rw [sizeInBytes, LittleEndian.bitmapSize]
  split_ifs <;> omega

variable {pos size : Nat}

theorem isFull_iff : isFull bits pos size = true ↔ SetUpTo bits (pos * 8) (pos * 8 + size * 8) := by
  rw [isFull, List.all_eq_true]
  constructor
  · intro h i hle hlt
    have := h (i - pos * 8) (mem_range.mpr (by omega))
    rwa [show pos * 8 + (i - pos * 8) = i by omega] at this
  · intro h i hi
    have hlt := mem_range.mp hi
    exact h _ (by omega) (by omega)

theorem SetUpTo.append {a b c : Nat} (h : SetUpTo bits a b) (h' : SetUpTo bits b c) :
    SetUpTo bits a c := by
  intro i hle hlt
  by_cases hb : i < b
  · exact h i hle hb
  · exact h' i (Nat.le_of_not_lt hb) hlt

def ByteSearch.Tells (bits : Nat → Bool) (numBits startPos stop : Nat) : ByteSearch → Prop
  | found pos => Answers bits numBits startPos (some pos)
  | padding => Answers bits numBits startPos none
  | nothing => SetUpTo bits startPos stop

theorem searchByte_tells {pos length : Nat} (hset : SetUpTo bits startPos pos) :
    (searchByte bits numBits startPos (List.range' pos length)).Tells bits numBits startPos
      (pos + length) := by
  induction length generalizing pos with
  | zero => exact hset
  | succ length ih =>
    rw [range'_succ, searchByte]
    split_ifs with hend hearly hbit
    · exact fun i hle hlt => hset i hle (by omega)
    · rw [← Nat.add_assoc, Nat.add_right_comm]
      exact ih fun i hle hlt => absurd hle (by omega)
    · rw [← Nat.add_assoc, Nat.add_right_comm]
      refine ih fun i hle hlt => ?_
      rcases Nat.lt_succ_iff_lt_or_eq.mp hlt with hlt | rfl
      · exact hset i hle hlt
      · exact hbit
    · exact ⟨Nat.le_of_not_lt hearly, Nat.lt_of_not_le hend, by simpa using hbit, hset⟩

inductive Stage (bits : Nat → Bool) (numBits startPos : Nat) (search : Search) : Prop
  /-- Only full words have been read. -/
  | early : search.foundUnsetBit = false → startPos / 8 % 2 = 0 → search.bytePos % 2 = 0 →
      search.bitsLeft + startPos % 8 + search.bytePos * 8 = numBits →
      SetUpTo bits (startPos / 8 * 8) (search.bytePos * 8) → Stage bits numBits startPos search
  /-- The first byte is to be read. -/
  | first : search.foundUnsetBit = true ∨ search.bytePos % 2 = 1 → 0 < search.bitsLeft →
      search.bitsLeft + startPos % 8 + search.bytePos * 8 = numBits →
      ¬ PassesOver bits numBits startPos → Stage bits numBits startPos search
  | late : numBits ≤ search.bitsLeft + search.bytePos * 8 → search.bitsLeft < 2 ^ 32 →
      search.foundUnsetBit = true ∨
        search.bytePos % 2 = 0 ∧ search.bitsLeft + search.bytePos * 8 = numBits ∨
        search.bitsLeft < 16 → ¬ PassesOver bits numBits startPos →
      Stage bits numBits startPos search
  | done : numBits ≤ search.bytePos * 8 → ¬ PassesOver bits numBits startPos →
      Stage bits numBits startPos search

structure Searching (bits : Nat → Bool) (numBits startPos : Nat) (search : Search) : Prop where
  set : SetUpTo bits startPos (search.bytePos * 8)
  start : startPos / 8 ≤ search.bytePos
  reads : ReadsInside numBits search.reads
  stage : Stage bits numBits startPos search

theorem ReadsInside.append {reads : List (Nat × Nat)} (h : ReadsInside numBits reads)
    (hfits : pos + size ≤ sizeInBytes numBits) : ReadsInside numBits (reads ++ [(pos, size)]) :=
  forall_mem_append.mpr ⟨h, forall_mem_singleton.mpr hfits⟩

theorem wordSize_eq_some (h : search.wordSize = some size) :
    search.foundUnsetBit = false ∧ (size = 8 ∨ size = 4 ∨ size = 2) ∧
      size * 8 ≤ search.bitsLeft ∧ search.bytePos % size = 0 := by
  rw [Search.wordSize] at h
  split_ifs at h with hfound
  have hfits := find?_some h
  have hmem := mem_of_find?_eq_some h
  rw [isAlignedAndFits, Bool.and_eq_true, decide_eq_true_eq, beq_iff_eq] at hfits
  exact ⟨by simpa using hfound, by simpa using hmem, hfits⟩

theorem wordSize_eq_none (h : search.wordSize = none) :
    search.foundUnsetBit = true ∨ search.bytePos % 2 = 1 ∨ search.bitsLeft < 16 := by
  rw [Search.wordSize] at h
  split_ifs at h with hfound
  · exact .inl hfound
  · have htwo := find?_eq_none.mp h 2 (by simp)
    rw [isAlignedAndFits, Bool.and_eq_true, decide_eq_true_eq, beq_iff_eq] at htwo
    omega

/-- A word that is read lies in the bitmap, and begins at an even byte. -/
theorem Searching.word_fits (h : Searching bits numBits startPos search)
    (hlt : search.bytePos < sizeInBytes numBits) (hsize : search.wordSize = some size) :
    search.bytePos * 8 + size * 8 ≤ numBits ∧ search.bytePos % 2 = 0 ∧ size % 2 = 0 := by
  obtain ⟨hfound, hcases, hfits, haligned⟩ := wordSize_eq_some hsize
  rw [lt_sizeInBytes_iff] at hlt
  have heven : search.bytePos % 2 = 0 ∧ size % 2 = 0 := by
    rcases hcases with rfl | rfl | rfl <;> omega
  cases h.stage with
  | early _ _ _ hleft _ => omega
  | done hdone _ => omega
  | first hbyte _ _ _ => simp [hfound, heven.1] at hbyte
  | late _ _ hbyte _ =>
    simp only [hfound, Bool.false_eq_true, false_or] at hbyte
    omega

theorem Searching.findUnsetBit (h : Searching bits numBits startPos search)
    (hlt : search.bytePos < sizeInBytes numBits) (hsize : search.wordSize = some size) :
    Searching bits numBits startPos (findUnsetBit bits size search) := by
  obtain ⟨hin, heven, hsize2⟩ := h.word_fits hlt hsize
  obtain ⟨hfound, hcases, hfits, -⟩ := wordSize_eq_some hsize
  have hstart := h.start
  have hreads : ReadsInside numBits (search.reads ++ [(search.bytePos, size)]) := by
    apply h.reads.append
    have := @lt_sizeInBytes_iff numBits (search.bytePos + size - 1)
    omega
  simp only [RawConcurrentBitmap.findUnsetBit]
  split_ifs with hfull
  · rw [isFull_iff] at hfull
    refine ⟨?_, by simp only; omega, hreads, ?_⟩
    · simp only [Nat.add_mul]
      exact h.set.append hfull
    · cases h.stage with
      | early _ hfirst _ hleft hset =>
        refine .early hfound hfirst (by simp only; omega) (by simp only; omega) ?_
        simp only [Nat.add_mul]
        exact hset.append hfull
      | first hbyte _ _ _ => simp [hfound, heven] at hbyte
      | late hle hword hbyte hnot =>
        simp only [hfound, Bool.false_eq_true, false_or] at hbyte
        exact .late (by simp only; omega) (by simp only; omega)
          (.inr (.inl (by simp only; omega))) hnot
      | done hdone _ => omega
  · refine ⟨h.set, hstart, hreads, ?_⟩
    rw [isFull_iff] at hfull
    cases h.stage with
    | early _ _ _ hleft hset =>
      -- a word before the last byte is not full
      refine .first (.inl rfl) (by simp only; omega) hleft fun hpasses => hfull fun i hle hlt => ?_
      have := hpasses.2.1
      exact hpasses.2.2.2.2.1 i (by omega) (by omega)
    | first hbyte _ _ _ => simp [hfound, heven] at hbyte
    | late hle hword _ hnot => exact .late hle hword (.inl rfl) hnot
    | done hdone _ => omega

theorem bitsLeft_byte {bitsLeft r : Nat} (hword : bitsLeft < 2 ^ 32) (h : 8 - r ≤ bitsLeft) :
    (bitsLeft + 2 ^ 32 - (8 - r)) % 2 ^ 32 = bitsLeft - (8 - r) := by
  omega

/-- Where a byte is read, the last bits are not passed over. -/
theorem Searching.not_passesOver (h : Searching bits numBits startPos search)
    (hleft : 0 < search.bitsLeft) (hsize : search.wordSize = none) :
    ¬ PassesOver bits numBits startPos := by
  cases h.stage with
  | early hfound _ heven hcount _ =>
    rintro ⟨_, hsame, _, hend, _⟩
    rcases wordSize_eq_none hsize with hfound' | hodd | hsmall
    · exact absurd hfound' (by simp [hfound])
    · omega
    · omega
  | first _ _ _ hnot => exact hnot
  | late _ _ _ hnot => exact hnot
  | done _ hnot => exact hnot

theorem Searching.byteRead (hword : numBits < 2 ^ 32) (h : Searching bits numBits startPos search)
    (hlt : search.bytePos < sizeInBytes numBits) (hleft : 0 < search.bitsLeft)
    (hsize : search.wordSize = none)
    (hset : SetUpTo bits startPos ((search.bytePos + 1) * 8)) :
    Searching bits numBits startPos
      { search with
        bytePos := search.bytePos + 1
        bitsLeft := (search.bitsLeft + 2 ^ 32 - (8 - startPos % 8)) % 2 ^ 32
        reads := search.reads ++ [(search.bytePos, 1)] } := by
  have hstart := h.start
  have hmod := Nat.mod_lt startPos (show 8 > 0 by decide)
  refine ⟨hset, by simp only; omega, h.reads.append hlt, ?_⟩
  rw [lt_sizeInBytes_iff] at hlt
  have hnot := h.not_passesOver hleft hsize
  by_cases hlast : numBits ≤ (search.bytePos + 1) * 8
  · exact .done hlast hnot
  · have hbyte := wordSize_eq_none hsize
    cases h.stage with
    | early hfound _ heven hcount _ =>
      have heq := @bitsLeft_byte search.bitsLeft (startPos % 8) (by omega) (by omega)
      simp only [hfound, heven, Bool.false_eq_true, false_or, Nat.zero_ne_one] at hbyte
      refine .late ?_ ?_ (.inr (.inr ?_)) hnot <;> simp only [heq] <;> omega
    | first hfirst _ hcount _ =>
      have heq := @bitsLeft_byte search.bitsLeft (startPos % 8) (by omega) (by omega)
      refine .late ?_ ?_ (hfirst.imp_right fun hodd => .inl ⟨?_, ?_⟩) hnot <;>
        simp only [heq] <;> omega
    | late hle hword' hlate _ =>
      have heq := @bitsLeft_byte _ (startPos % 8) hword' (by omega)
      refine .late ?_ ?_ ?_ hnot <;> simp only [heq]
      · omega
      · omega
      · rcases hbyte with hfound | hodd | hsmall
        · exact .inl hfound
        · exact hlate.imp_right fun hlate => .inr (by omega)
        · exact .inr (.inr (by omega))
    | done hdone _ => omega

def Result (bits : Nat → Bool) (numBits startPos : Nat)
    (result : Option Nat × List (Nat × Nat)) : Prop :=
  ReadsInside numBits result.2 ∧
    (Answers bits numBits startPos result.1 ∧ ¬ PassesOver bits numBits startPos ∨
      result.1 = none ∧ PassesOver bits numBits startPos)

theorem Searching.ended (h : Searching bits numBits startPos search) (hlt : startPos < numBits)
    (hend : ¬ (search.bytePos < sizeInBytes numBits ∧ 0 < search.bitsLeft)) :
    Result bits numBits startPos (none, search.reads) := by
  refine ⟨h.reads, ?_⟩
  rw [lt_sizeInBytes_iff] at hend
  by_cases hover : PassesOver bits numBits startPos
  · exact .inr ⟨rfl, hover⟩
  · refine .inl ⟨fun i hle hi => ?_, hover⟩
    by_cases hread : i < search.bytePos * 8
    · exact h.set i hle hread
    · cases h.stage with
      | early _ hfirst heven hleft hset =>
        by_contra hbit
        exact hover ⟨hlt, by omega, hfirst, by omega, fun i hle hlt => hset i hle (by omega),
          i, by omega, hi, by simpa using hbit⟩
      | first _ hpos _ _ => omega
      | late hle' _ _ _ => omega
      | done hdone _ => omega

def Search.rounds (search : Search) (numBits : Nat) : Nat :=
  sizeInBytes numBits - search.bytePos + if search.foundUnsetBit then 0 else 1

theorem rounds_findUnsetBit (hlt : search.bytePos < sizeInBytes numBits)
    (hsize : search.wordSize = some size) :
    (findUnsetBit bits size search).rounds numBits < search.rounds numBits := by
  obtain ⟨hfound, hcases, _, _⟩ := wordSize_eq_some hsize
  cases hfull : isFull bits search.bytePos size with
  | true =>
    simp only [Search.rounds, findUnsetBit, hfound, hfull, if_true]
    omega
  | false => simp [Search.rounds, findUnsetBit, hfound, hfull]

theorem Searching.searchLoop (hword : numBits < 2 ^ 32) (hstart : startPos < numBits) {fuel : Nat}
    (hfuel : search.rounds numBits < fuel) (h : Searching bits numBits startPos search) :
    ∃ result, searchLoop bits numBits startPos fuel search = some result ∧
      Result bits numBits startPos result := by
  induction fuel generalizing search with
  | zero => omega
  | succ fuel ih =>
    rw [RawConcurrentBitmap.searchLoop]
    split_ifs with hgoes
    · obtain ⟨hlt, hleft⟩ := hgoes
      cases hsize : search.wordSize with
      | some size =>
        refine ih ?_ (h.findUnsetBit hlt hsize)
        exact (rounds_findUnsetBit hlt hsize).trans_le (Nat.le_of_lt_succ hfuel)
      | none =>
        have hin := h.reads.append (show search.bytePos + 1 ≤ _ from hlt)
        have hnot := h.not_passesOver hleft hsize
        have hnext (hset : SetUpTo bits startPos ((search.bytePos + 1) * 8)) :=
          ih (by simp only [Search.rounds] at hfuel ⊢; omega)
            (h.byteRead hword hlt hleft hsize hset)
        have htells := @searchByte_tells bits numBits startPos _ 8 h.set
        simp only [byteRound]
        split_ifs with hfull
        · exact hnext (Nat.succ_mul _ 8 ▸ h.set.append (isFull_iff.mp hfull))
        · generalize searchByte bits numBits startPos (List.range' (search.bytePos * 8) 8) =
            found at htells ⊢
          cases found with
          | found pos | padding => exact ⟨_, rfl, hin, .inl ⟨htells, hnot⟩⟩
          | nothing => exact hnext (Nat.succ_mul _ 8 ▸ htells)
    · exact ⟨_, rfl, h.ended hstart hgoes⟩

/-- The first unset bit from a position on is found, with reads inside the bitmap, exactly
if the last bits are not passed over. -/
theorem firstUnsetPos_answers_iff (bits : Nat → Bool) (numBits startPos : Nat)
    (hword : numBits < 2 ^ 32) :
    (∃ result, firstUnsetPos bits numBits startPos = some result ∧
      Answers bits numBits startPos result.1 ∧ ReadsInside numBits result.2) ↔
      ¬ PassesOver bits numBits startPos := by
  by_cases hstart : startPos < numBits
  · have hsearching : Searching bits numBits startPos
        ⟨startPos / 8, numBits - startPos, false, []⟩ := by
      refine ⟨fun i hle hlt => absurd hle (by simp only at hlt; omega), le_rfl,
        by simp [ReadsInside],
        ?_⟩
      rcases Nat.mod_two_eq_zero_or_one (startPos / 8) with heven | hodd
      · exact .early rfl heven heven (by simp only; omega) fun i hle hlt => absurd hle (by
          simp only at hlt
          omega)
      · exact .first (.inr hodd) (by simp only; omega) (by simp only; omega)
          fun hpasses => absurd hpasses.2.2.1 (by omega)
    obtain ⟨result, hresult, hinside, hcases⟩ := hsearching.searchLoop hword hstart
      (show Search.rounds _ numBits < sizeInBytes numBits + 2 by simp [Search.rounds])
    rw [firstUnsetPos, if_neg (Nat.not_le_of_lt hstart), hresult]
    rcases hcases with ⟨hanswers, hnot⟩ | ⟨hnone, hpasses⟩
    · exact iff_of_true ⟨result, rfl, hanswers, hinside⟩ hnot
    · apply iff_of_false _ (not_not_intro hpasses)
      rintro ⟨_, heq, hanswers, _⟩
      cases heq
      obtain ⟨_, _, _, _, _, i, hle, hlt, hbit⟩ := hpasses
      rw [hnone] at hanswers
      exact absurd (hanswers i (by omega) hlt) (by simp [hbit])
  · rw [firstUnsetPos, if_pos (Nat.le_of_not_lt hstart)]
    refine iff_of_true ⟨_, rfl, fun i hle hlt => absurd hlt (by omega), by simp [ReadsInside]⟩ ?_
    exact fun hpasses => hstart hpasses.1

theorem secondBit_found : ∃ result, firstUnsetPos (fun i => i != 3) 20 1 = some result ∧
      Answers (fun i => i != 3) 20 1 result.1 ∧ ReadsInside 20 result.2 :=
  (firstUnsetPos_answers_iff _ 20 1 (by decide)).mpr fun hpasses => absurd hpasses.2.1 (by decide)

/-- From bit 5 of 69 bits, one full word is read; bit 64 is not found. -/
theorem bit64_passed_over : firstUnsetPos (fun i => i < 64) 69 5 = some (none, [(0, 8)]) ∧
      ¬ Answers (fun i => i < 64) 69 5 none := by
  refine ⟨by decide, fun hanswers => ?_⟩
  exact absurd (hanswers 64 (by decide) (by decide)) (by decide)

end Terrier.RawConcurrentBitmap
