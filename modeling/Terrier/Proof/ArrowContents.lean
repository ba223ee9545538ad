import Terrier.Lib.Packing
import Terrier.Proof.CompactionPass
import Terrier.Storage.ArrowGather

/-!
What gathering keeps. The values are packed one after another, so each is found
between its offset and the next one, provided that the sizes are added up without
overflow; if they are not, the array is too small and is written behind its end.
-/

namespace Terrier.Compactor

open Packing
open List

/-! ### Order of contents -/

theorem memcmp_self (word : Bytes) : memcmp word word = .eq := by
  induction word with
  | nil => rfl
  | cons byte rest ih => simp [memcmp, ih]

theorem memcmp_cons (a b : UInt8) (as bs : Bytes) :
    memcmp (a :: as) (b :: bs) = (compare a b).then (memcmp as bs) := rfl

variable {lhs rhs : Bytes}

theorem varlenContentDeepEqual_iff : varlenContentDeepEqual lhs rhs = true ↔ lhs = rhs := by
  constructor
  · intro h
    induction lhs generalizing rhs with
    | nil =>
      cases rhs with
      | nil => rfl
      | cons => simp [varlenContentDeepEqual] at h
    | cons a as ih =>
      cases rhs with
      | nil => simp [varlenContentDeepEqual] at h
      | cons b bs =>
        simp [varlenContentDeepEqual, memcmp_cons, Ordering.then_eq_eq] at h
        obtain ⟨hlen, rfl, hrest⟩ := h
        have hsame : varlenContentDeepEqual as bs = true := by
          simp [varlenContentDeepEqual, hlen, hrest]
        rw [ih hsame]
  · rintro rfl
    simp [varlenContentDeepEqual, memcmp_self]

theorem varlenContentCompare_iff : varlenContentCompare lhs rhs = true ↔ lhs < rhs := by
  induction lhs generalizing rhs with
  | nil =>
    cases rhs with
    | nil | cons => simp [varlenContentCompare, memcmp]
  | cons a as ih =>
    cases rhs with
    | nil => simp [varlenContentCompare, memcmp]
    | cons b bs =>
      rw [cons_lt_cons_iff, ← ih]
      rcases Std.lt_trichotomy a b with hlt | rfl | hgt
      · have hcmp : compare a b = .lt := Std.compare_eq_lt.2 hlt
        simp [varlenContentCompare, memcmp_cons, hcmp, hlt]
      · simp [varlenContentCompare, memcmp_cons]
      · have hcmp : compare a b = .gt := Std.compare_eq_gt.2 hgt
        have hne : a ≠ b := by
          rintro rfl
          exact UInt8.lt_irrefl a hgt
        simp [varlenContentCompare, memcmp_cons, hcmp, UInt8.lt_asymm hgt, hne]

theorem sortWords_perm (words : List Bytes) : (sortWords words).Perm words :=
  mergeSort_perm _ _

variable {words : List Bytes}

theorem sortWords_pairwise (h : words.Nodup) : (sortWords words).Pairwise (· < ·) := by
  have hle : ∀ a b : Bytes, (!varlenContentCompare b a) = true ↔ a ≤ b := by
    intro a b
    rw [Bool.not_eq_true', ← Bool.not_eq_true, varlenContentCompare_iff, List.not_lt]
  have hsort : (sortWords words).Pairwise fun a b => (!varlenContentCompare b a) = true := by
    apply pairwise_mergeSort
    · intro a b c hab hbc
      rw [hle] at hab hbc ⊢
      exact List.le_trans hab hbc
    · intro a b
      rw [Bool.or_eq_true, hle, hle]
      exact List.le_total a b
  have hnodup : (sortWords words).Nodup := (sortWords_perm words).nodup_iff.2 h
  apply (hsort.and hnodup).imp
  rintro a b ⟨hab, hne⟩
  exact (List.le_iff_lt_or_eq.1 ((hle a b).1 hab)).resolve_right hne

/-! ### Writing words -/

@[simp] theorem length_allocate (garbage : Nat → UInt8) (length : Nat) :
    (allocate garbage length).length = length := by
  simp [allocate]

variable {acc size : Nat}

theorem addSize_eq (h : acc + size < 2 ^ 32) : addSize acc size = acc + size :=
  Nat.mod_eq_of_lt h

variable {values : Bytes} {offset : Nat}

theorem writeWords_eq (hlen : values.length < 2 ^ 32) (hacc : acc ≤ values.length) :
    writeWords words acc values = if acc + words.flatten.length ≤ values.length then
        some (values.take acc ++ words.flatten ++ values.drop (acc + words.flatten.length),
          starts acc words)
      else none := by
  induction words generalizing acc values with
  | nil => simp [writeWords, starts, hacc]
  | cons word rest ih =>
    rw [flatten_cons, length_append, ← Nat.add_assoc, writeWords]
    rcases Nat.lt_or_ge values.length (acc + word.length) with hlt | hge
    · rw [if_neg (by omega), memcpy, if_neg (by omega)]
      rfl
    · have htake : (values.take acc).length = acc := by
        rw [length_take, Nat.min_eq_left hacc]
      have hsame : (values.take acc ++ word ++ values.drop (acc + word.length)).length =
          values.length := by
        simp only [length_append, length_drop, htake]
        omega
      rw [memcpy, if_pos hge, Option.bind_eq_bind, Option.bind_some, addSize_eq (by omega),
        ih (by rwa [hsame]) (by rwa [hsame]), hsame]
      split_ifs with hroom
      · have hleft : (values.take acc ++ word).length = acc + word.length := by
          rw [length_append, htake]
        have hdrop : (values.take acc ++ word ++ values.drop (acc + word.length)).drop
            (acc + word.length + rest.flatten.length) =
            values.drop (acc + word.length + rest.flatten.length) := by
          rw [drop_append, hleft, Nat.add_sub_cancel_left, drop_drop,
            drop_eq_nil_of_le (by omega), nil_append]
        rw [take_left' hleft, hdrop, starts]
        simp only [append_assoc]
        rfl
      · rfl

/-- Words whose sizes add up to the length of the array are written exactly if the sum has
not overflown. -/
theorem writeWords_allocate (words : List Bytes) (garbage : Nat → UInt8) :
    writeWords words 0 (allocate garbage (words.flatten.length % 2 ^ 32)) =
      if words.flatten.length < 2 ^ 32 then some (words.flatten, starts 0 words) else none := by
  have hlt : words.flatten.length % 2 ^ 32 < 2 ^ 32 := Nat.mod_lt _ (by norm_num)
  rw [writeWords_eq (by rwa [length_allocate]) (Nat.zero_le _), length_allocate, Nat.zero_add]
  rcases Nat.lt_or_ge words.flatten.length (2 ^ 32) with hsmall | hlarge
  · rw [if_pos hsmall, Nat.mod_eq_of_lt hsmall, if_pos le_rfl, take_zero, nil_append,
      drop_eq_nil_of_le (by rw [length_allocate]), append_nil]
  · rw [if_neg (by omega), if_neg (by omega)]

/-! ### Entries -/

def Readable (memory : Memory) (column : VarlenColumn) : Prop :=
  ∀ entry, some entry ∈ column → (entry.content memory).length = entry.size

variable {memory : Memory} {column : VarlenColumn}

theorem Readable.tail {first : Option VarlenEntry} (h : Readable memory (first :: column)) :
    Readable memory column :=
  fun entry hmem => h entry (mem_cons_of_mem _ hmem)

def piece (memory : Memory) (entry : Option VarlenEntry) : Bytes :=
  (entry.map (·.content memory)).getD []

def pieces (memory : Memory) (column : VarlenColumn) : List Bytes :=
  column.map (piece memory)

def owned (column : VarlenColumn) : List Pointer :=
  column.filterMap (·.bind VarlenEntry.reclaimable)

theorem owned_cons (entry : VarlenEntry) (column : VarlenColumn) :
    owned (some entry :: column) = entry.reclaimable.toList ++ owned column := by
  rw [owned, filterMap_cons, Option.bind_some]
  cases entry.reclaimable <;> rfl

def totalSize (column : VarlenColumn) : Nat :=
  (column.map fun entry => (entry.map VarlenEntry.size).getD 0).sum

@[simp] theorem pieces_cons (memory : Memory) (first : Option VarlenEntry) (rest : VarlenColumn) :
    pieces memory (first :: rest) = piece memory first :: pieces memory rest := rfl

theorem totalSize_cons (first : Option VarlenEntry) (rest : VarlenColumn) :
    totalSize (first :: rest) = (first.map VarlenEntry.size).getD 0 + totalSize rest := by
  rfl

theorem length_pieces (h : Readable memory column) :
    (pieces memory column).flatten.length = totalSize column := by
  induction column with
  | nil => rfl
  | cons first rest ih =>
    rw [pieces_cons, flatten_cons, length_append, totalSize_cons, ih h.tail]
    congr 1
    cases first with
    | none => rfl
    | some entry => exact h entry mem_cons_self

theorem foldl_countSize (column : VarlenColumn) (h : size < 2 ^ 32) :
    column.foldl countSize size = (size + totalSize column) % 2 ^ 32 := by
  induction column generalizing size with
  | nil => exact (Nat.mod_eq_of_lt h).symm
  | cons first rest ih =>
    rw [foldl_cons, totalSize_cons, ← Nat.add_assoc]
    cases first with
    | none => exact ih h
    | some entry =>
      rw [countSize, addSize, ih (Nat.mod_lt _ (by norm_num)), Nat.mod_add_mod]
      rfl

theorem varlenSize_eq (column : VarlenColumn) : varlenSize column = totalSize column % 2 ^ 32 := by
  rw [varlenSize, foldl_countSize column (by norm_num), Nat.zero_add]

def moved (fresh : Nat) (column : VarlenColumn) (offsets : List Nat) : VarlenColumn :=
  List.zipWith (fun entry offset => entry.map (·.moveTo ⟨fresh, offset⟩)) column offsets

variable {fresh : Nat}

theorem gatherEntries_eq (h : Readable memory column) (hlen : values.length < 2 ^ 32)
    (hacc : acc ≤ values.length) : gatherEntries memory fresh column acc values =
      (writeWords (pieces memory column) acc values).map fun (values, offsets) =>
        ⟨moved fresh column offsets, 0, values, offsets, [], owned column⟩ := by
  induction column generalizing acc values with
  | nil => rfl
  | cons first rest ih =>
    cases first with
    | none =>
      have hcopy : memcpy values acc (piece memory none) = some values := by
        rw [memcpy, if_pos (by simpa [piece] using hacc)]
        simp [piece]
      have hadd : addSize acc (piece memory none).length = acc := by
        apply addSize_eq
        simp only [piece, Option.map_none, Option.getD_none, length_nil]
        omega
      rw [gatherEntries, ih h.tail hlen hacc, pieces_cons, writeWords, hcopy,
        Option.bind_eq_bind, Option.bind_eq_bind, Option.bind_some, hadd]
      cases writeWords (pieces memory rest) acc values with
      | none => rfl
      | some result => rfl
    | some entry =>
      have hpiece : piece memory (some entry) = entry.content memory := rfl
      have hsize := h entry mem_cons_self
      rw [gatherEntries, pieces_cons, hpiece, writeWords, hsize]
      cases hcopy : memcpy values acc (entry.content memory) with
      | none => rfl
      | some copied =>
        obtain ⟨hroom, heq⟩ := Option.ite_none_right_eq_some.mp hcopy
        cases heq
        have hsame : (values.take acc ++ entry.content memory ++
            values.drop (acc + (entry.content memory).length)).length = values.length := by
          simp only [length_append, length_drop, length_take]
          omega
        have hadd : addSize acc entry.size = acc + entry.size := addSize_eq (by omega)
        simp only [Option.bind_eq_bind, Option.bind_some]
        rw [ih h.tail (by omega) (by omega), owned_cons]
        cases writeWords (pieces memory rest) _ _ with
        | none => rfl
        | some result => rfl

/-! ### Gathered columns -/

variable {record : Nat} {entry : Option VarlenEntry}

theorem pieces_getElem? (h : column[record]? = some entry) :
    (pieces memory column)[record]? = some (piece memory entry) := by
  rw [pieces, getElem?_map, h, Option.map_some]

variable {numRecords : Nat} {loosePtrs : List Pointer} {garbage : Nat → UInt8} {nullCount : Nat}

/-- Gathering gives the packed contents, and has a result only if their size is one of
32 bits. -/
theorem copyToArrowVarlen_eq (h : Readable memory (column.take numRecords)) :
    copyToArrowVarlen memory fresh garbage nullCount numRecords column loosePtrs =
      if totalSize (column.take numRecords) < 2 ^ 32 then
        some ⟨moved fresh (column.take numRecords)
              (starts 0 (pieces memory (column.take numRecords))) ++ column.drop numRecords,
          countNulls nullCount (column.take numRecords),
          (pieces memory (column.take numRecords)).flatten,
          bounds (pieces memory (column.take numRecords)), [],
          loosePtrs ++ owned (column.take numRecords)⟩
      else none := by
  have hlt : varlenSize (column.take numRecords) < 2 ^ 32 := by
    rw [varlenSize_eq]
    exact Nat.mod_lt _ (by norm_num)
  rw [copyToArrowVarlen, gatherEntries_eq h (by rwa [length_allocate]) (Nat.zero_le _),
    varlenSize_eq, ← length_pieces h, writeWords_allocate]
  split_ifs with hsmall
  · rw [Nat.mod_eq_of_lt hsmall]
    rfl
  · rfl

/-- The content of a moved entry is what stands in the new buffer. -/
theorem content_moveTo {entry : VarlenEntry} (hsize : (entry.content memory).length = entry.size)
    (h : (values.drop offset).take (entry.content memory).length = entry.content memory) :
    (entry.moveTo ⟨fresh, offset⟩).content (Function.update memory fresh values) =
      entry.content memory := by
  cases entry with
  | inlined content short => rfl
  | outlined pointer size reclaim long fits =>
    rw [hsize] at h
    rw [VarlenEntry.moveTo, VarlenEntry.content, Function.update_self]
    exact h

theorem reclaimable_moveTo (pointer : Pointer) (entry : VarlenEntry) :
    (entry.moveTo pointer).reclaimable = none := by
  cases entry <;> rfl

structure Preserves (memory : Memory) (fresh : Nat) (slots : List Slot) (column : VarlenColumn)
    (loosePtrs : List Pointer) (gathered : Gathered) (decode : Nat → Option Bytes) : Prop where
  content : ∀ record slot entry, slots[record]? = some slot → slot.allocated = true →
    column[record]? = some (some entry) →
    decode record = some (entry.content memory) ∧
    ∃ left, gathered.entries[record]? = some (some left) ∧ left.reclaimable = none ∧
      left.content (Function.update memory fresh gathered.values) = entry.content memory
  null : ∀ record slot, slots[record]? = some slot → slot.allocated = true →
    column[record]? = some none →
    gathered.entries[record]? = some none ∧ decode record = none
  freed : gathered.loosePtrs = loosePtrs ++ owned (column.take (numTuples slots))

variable {slots : List Slot}

/-- The records of an accepted block are its first slots. -/
theorem numRecords_eq (h : checkForVersionsAndGaps slots = some numRecords) :
    numRecords = numTuples slots := by
  obtain ⟨kept, rest, rfl, hkept, hrest, rfl⟩ := checkForVersionsAndGaps_iff.1 h
  rw [numTuples_append hkept hrest]

theorem getElem?_take_of_accepted (h : checkForVersionsAndGaps slots = some numRecords)
    {slot : Slot} (hslot : slots[record]? = some slot) (halloc : slot.allocated = true)
    (column : VarlenColumn) : (column.take numRecords)[record]? = column[record]? := by
  obtain ⟨kept, rest, rfl, hkept, hrest, rfl⟩ := checkForVersionsAndGaps_iff.1 h
  exact getElem?_take_of_lt (lt_length_of_allocated hrest hslot halloc)

variable {gathered : Gathered}

theorem word_eq (hoffs : gathered.offsets = bounds words)
    (hvals : gathered.values = words.flatten) (code : Nat) :
    gathered.word code = words[code]? := by
  cases hword : words[code]? with
  | none =>
    have hge := List.getElem?_eq_none_iff.1 hword
    have hstop : (bounds words)[code + 1]? = none := by
      apply getElem?_eq_none
      rw [bounds, length_append, length_starts, length_singleton]
      omega
    rw [Gathered.word, hoffs, hstop]
    cases (bounds words)[code]? <;> rfl
  | some word =>
    obtain ⟨start, stop, hstart, hstop, hbetween⟩ := bounds_enclose hword
    rw [Gathered.word, hoffs, hvals, hstart, hstop, Option.bind_eq_bind, Option.bind_some,
      Option.bind_some, hbetween]

variable {records : VarlenColumn}

theorem moved_getElem? (h : records[record]? = some entry) :
    (moved fresh records (starts 0 (pieces memory records)))[record]? = some (entry.map
      (·.moveTo ⟨fresh, ((pieces memory records).take record).flatten.length⟩)) := by
  have hlt : record < (pieces memory records).length :=
    (List.getElem?_eq_some_iff.1 (pieces_getElem? h)).1
  rw [moved, getElem?_zipWith, h, starts_getElem? 0 hlt, Nat.zero_add]

theorem preserves_words {decode : Nat → Option Bytes}
    (hcheck : checkForVersionsAndGaps slots = some numRecords)
    (hread : Readable memory (column.take numRecords))
    (hvals : gathered.values = words.flatten)
    (hfreed : gathered.loosePtrs = loosePtrs ++ owned (column.take numRecords))
    (hword : ∀ record entry, (column.take numRecords)[record]? = some (some entry) → ∃ code,
      words[code]? = some (entry.content memory) ∧ decode record = words[code]? ∧
      gathered.entries[record]? =
        some (some (entry.moveTo ⟨fresh, (words.take code).flatten.length⟩)))
    (hnull : ∀ record, (column.take numRecords)[record]? = some none →
      gathered.entries[record]? = some none ∧ decode record = none) :
    Preserves memory fresh slots column loosePtrs gathered decode := by
  refine ⟨?_, ?_, by rw [hfreed, numRecords_eq hcheck]⟩
  · intro record slot entry hslot halloc hentry
    rw [← getElem?_take_of_accepted hcheck hslot halloc] at hentry
    obtain ⟨code, hcode, hdecode, hleft⟩ := hword record entry hentry
    refine ⟨hdecode.trans hcode, _, hleft, reclaimable_moveTo _ _, ?_⟩
    rw [hvals]
    exact content_moveTo (hread entry (mem_of_getElem? hentry)) (drop_take_flatten hcode)
  · intro record slot hslot halloc hentry
    rw [← getElem?_take_of_accepted hcheck hslot halloc] at hentry
    exact hnull record hentry

theorem preserves_gathered (hcheck : checkForVersionsAndGaps slots = some numRecords)
    (hread : Readable memory (column.take numRecords))
    (hentries : gathered.entries = moved fresh (column.take numRecords)
      (starts 0 (pieces memory (column.take numRecords))) ++ column.drop numRecords)
    (hvals : gathered.values = (pieces memory (column.take numRecords)).flatten)
    (hoffs : gathered.offsets = bounds (pieces memory (column.take numRecords)))
    (hfreed : gathered.loosePtrs = loosePtrs ++ owned (column.take numRecords)) :
    Preserves memory fresh slots column loosePtrs gathered gathered.decodeVarlen := by
  have hleft {record : Nat} {entry : Option VarlenEntry}
      (hentry : (column.take numRecords)[record]? = some entry) :
      gathered.entries[record]? = some (entry.map (·.moveTo
        ⟨fresh, ((pieces memory (column.take numRecords)).take record).flatten.length⟩)) := by
    have hmoved := @moved_getElem? memory fresh _ _ _ hentry
    rw [hentries, getElem?_append_left (List.getElem?_eq_some_iff.1 hmoved).1, hmoved]
  apply preserves_words hcheck hread hvals hfreed
  · intro record entry hentry
    refine ⟨record, pieces_getElem? hentry, ?_, hleft hentry⟩
    rw [Gathered.decodeVarlen, hleft hentry]
    exact word_eq hoffs hvals record
  · intro record hentry
    refine ⟨hleft hentry, ?_⟩
    rw [Gathered.decodeVarlen, hleft hentry]
    rfl

/-! ### Compressed columns -/

def contents (memory : Memory) (column : VarlenColumn) : List Bytes :=
  column.filterMap (·.map (·.content memory))

def distinctSize (memory : Memory) (column : VarlenColumn) : Nat :=
  ((contents memory column).dedup.map List.length).sum

theorem collectWords_spec (h : Readable memory column) (hnodup : words.Nodup)
    (hsize : size = words.flatten.length % 2 ^ 32) :
    (collectWords memory column words size).1.Nodup ∧ (collectWords memory column words size).2 =
        (collectWords memory column words size).1.flatten.length % 2 ^ 32 ∧
      ∀ word, word ∈ (collectWords memory column words size).1 ↔
        word ∈ words ∨ word ∈ contents memory column := by
  induction column generalizing words size with
  | nil => exact ⟨hnodup, hsize, by simp [collectWords, contents]⟩
  | cons first rest ih =>
    cases first with
    | none =>
      exact ih h.tail hnodup hsize
    | some entry =>
      have hcontents : contents memory (some entry :: rest) =
          entry.content memory :: contents memory rest := rfl
      have hany : words.any (varlenContentDeepEqual (entry.content memory)) = true ↔
          entry.content memory ∈ words := by
        simp only [any_eq_true, varlenContentDeepEqual_iff]
        simp
      rw [collectWords, hcontents]
      split_ifs with hfound
      · rw [hany] at hfound
        obtain ⟨hnodup', hsize', hmem⟩ := ih h.tail hnodup hsize
        refine ⟨hnodup', hsize', fun word => ?_⟩
        rw [hmem, mem_cons]
        constructor
        · rintro (hword | hword)
          · exact .inl hword
          · exact .inr (.inr hword)
        · rintro (hword | rfl | hword)
          · exact .inl hword
          · exact .inl hfound
          · exact .inr hword
      · rw [hany] at hfound
        have hadded : (words ++ [entry.content memory]).Nodup := by
          apply nodup_append.2
          refine ⟨hnodup, nodup_singleton _, ?_⟩
          rintro word hword other hother rfl
          rw [mem_singleton.1 hother] at hword
          exact hfound hword
        have hsum : addSize size entry.size =
            (words ++ [entry.content memory]).flatten.length % 2 ^ 32 := by
          rw [addSize, hsize, Nat.mod_add_mod, flatten_append, length_append,
            flatten_singleton, h entry mem_cons_self]
        obtain ⟨hnodup', hsize', hmem⟩ := ih h.tail hadded hsum
        refine ⟨hnodup', hsize', fun word => ?_⟩
        rw [hmem, mem_append, mem_singleton, mem_cons, or_assoc]

def corpus (memory : Memory) (records : VarlenColumn) : List Bytes :=
  sortWords (collectWords memory records [] 0).1

section

variable {memory : Memory} {records : VarlenColumn} (h : Readable memory records)
include h

theorem collectWords_start : (collectWords memory records [] 0).1.Nodup ∧
      (collectWords memory records [] 0).2 =
        (collectWords memory records [] 0).1.flatten.length % 2 ^ 32 ∧
      ∀ word, word ∈ (collectWords memory records [] 0).1 ↔ word ∈ contents memory records := by
  obtain ⟨hnodup, hsize, hmem⟩ := collectWords_spec h nodup_nil (Nat.zero_mod _).symm
  refine ⟨hnodup, hsize, fun word => ?_⟩
  rw [hmem]
  simp

theorem mem_corpus {word : Bytes} :
    word ∈ corpus memory records ↔ word ∈ contents memory records := by
  rw [corpus, (sortWords_perm _).mem_iff, (collectWords_start h).2.2]

theorem corpus_pairwise : (corpus memory records).Pairwise (· < ·) :=
  sortWords_pairwise (collectWords_start h).1

theorem length_corpus : (corpus memory records).flatten.length = distinctSize memory records := by
  have hperm : (corpus memory records).Perm (contents memory records).dedup := by
    apply (perm_ext_iff_of_nodup _ (nodup_dedup _)).2
    · intro word
      rw [mem_corpus h, mem_dedup]
    · exact (sortWords_perm _).nodup_iff.2 (collectWords_start h).1
  rw [length_flatten, distinctSize, (hperm.map _).sum_nat]

theorem collectWords_size :
    (collectWords memory records [] 0).2 = (corpus memory records).flatten.length % 2 ^ 32 := by
  rw [(collectWords_start h).2.1, corpus, length_flatten, length_flatten,
    ((sortWords_perm _).map _).sum_nat]

end

theorem dictionaryCode_spec {word : Bytes} (h : word ∈ words) :
    words[dictionaryCode words word]? = some word := by
  rw [dictionaryCode]
  cases hcode : words.findIdx? (varlenContentDeepEqual word) with
  | none =>
    have := findIdx?_eq_none_iff.1 hcode word h
    rw [varlenContentDeepEqual_iff.2 rfl] at this
    cases this
  | some code =>
    obtain ⟨hlt, hequal, _⟩ := findIdx?_eq_some_iff_getElem.1 hcode
    rw [Option.getD_some, getElem?_eq_getElem hlt, ← varlenContentDeepEqual_iff.1 hequal]

theorem encodeEntries_eq (memory : Memory) (fresh : Nat) (words : List Bytes) (offsets : List Nat)
    (records : VarlenColumn) :
    encodeEntries memory fresh words offsets records =
      (records.map (Option.map fun entry => entry.moveTo
          ⟨fresh, offsets.getD (dictionaryCode words (entry.content memory)) 0⟩),
        records.map (Option.map fun entry => dictionaryCode words (entry.content memory)),
        owned records) := by
  induction records with
  | nil => rfl
  | cons first rest ih =>
    cases first with
    | none =>
      rw [encodeEntries, ih]
      rfl
    | some entry =>
      rw [encodeEntries, ih, owned_cons]
      rfl

theorem buildDictionary_eq (h : Readable memory (column.take numRecords)) :
    buildDictionary memory fresh garbage nullCount numRecords column loosePtrs =
      if distinctSize memory (column.take numRecords) < 2 ^ 32 then
        let words := corpus memory (column.take numRecords)
        some ⟨(column.take numRecords).map (Option.map fun entry => entry.moveTo
            ⟨fresh, (bounds words).getD (dictionaryCode words (entry.content memory)) 0⟩)
            ++ column.drop numRecords,
          countNulls nullCount (column.take numRecords), words.flatten, bounds words,
          (column.take numRecords).map (Option.map fun entry =>
            dictionaryCode words (entry.content memory)),
          loosePtrs ++ owned (column.take numRecords)⟩
      else none := by
  have hcollect : collectWords memory (column.take numRecords) [] 0 =
      ((collectWords memory (column.take numRecords) [] 0).1,
        (corpus memory (column.take numRecords)).flatten.length % 2 ^ 32) := by
    rw [← collectWords_size h]
  have hwrite := writeWords_allocate (corpus memory (column.take numRecords)) garbage
  rw [length_corpus h] at hcollect hwrite
  rw [buildDictionary, hcollect]
  have hcorpus : sortWords (collectWords memory (column.take numRecords) [] 0).1 =
      corpus memory (column.take numRecords) := rfl
  simp only [hcorpus, hwrite]
  split_ifs with hsmall
  · simp only [Option.bind_eq_bind, Option.bind_some, Nat.mod_eq_of_lt hsmall, encodeEntries_eq,
      bounds, length_corpus h]
  · rfl

/-- The words of a dictionary stand in strictly increasing order. -/
def SortedDictionary (gathered : Gathered) : Prop :=
  ∀ code code' word word', code < code' → gathered.word code = some word →
    gathered.word code' = some word' → varlenContentCompare word word' = true

theorem sortedDictionary_of_corpus (h : Readable memory records)
    (hvals : gathered.values = (corpus memory records).flatten)
    (hoffs : gathered.offsets = bounds (corpus memory records)) : SortedDictionary gathered := by
  intro code code' word word' hlt hword hword'
  rw [word_eq hoffs hvals] at hword hword'
  obtain ⟨hcode, rfl⟩ := List.getElem?_eq_some_iff.1 hword
  obtain ⟨hcode', rfl⟩ := List.getElem?_eq_some_iff.1 hword'
  rw [varlenContentCompare_iff]
  exact pairwise_iff_getElem.1 (corpus_pairwise h) _ _ hcode hcode' hlt

theorem preserves_compressed (hcheck : checkForVersionsAndGaps slots = some numRecords)
    (hread : Readable memory (column.take numRecords))
    (hwords : ∀ word ∈ contents memory (column.take numRecords), word ∈ words)
    (hentries : gathered.entries = (column.take numRecords).map (Option.map fun entry =>
      entry.moveTo ⟨fresh, (bounds words).getD (dictionaryCode words (entry.content memory)) 0⟩)
      ++ column.drop numRecords)
    (hvals : gathered.values = words.flatten) (hoffs : gathered.offsets = bounds words)
    (hindices : gathered.indices = (column.take numRecords).map (Option.map fun entry =>
      dictionaryCode words (entry.content memory)))
    (hfreed : gathered.loosePtrs = loosePtrs ++ owned (column.take numRecords)) :
    Preserves memory fresh slots column loosePtrs gathered gathered.decodeDictionary := by
  have hleft {record : Nat} {entry : Option VarlenEntry}
      (hentry : (column.take numRecords)[record]? = some entry) :
      gathered.entries[record]? = some (entry.map fun entry => entry.moveTo
        ⟨fresh, (bounds words).getD (dictionaryCode words (entry.content memory)) 0⟩) := by
    rw [hentries, getElem?_append_left, getElem?_map, hentry, Option.map_some]
    rw [length_map]
    exact (List.getElem?_eq_some_iff.1 hentry).1
  apply preserves_words hcheck hread hvals hfreed
  · intro record entry hentry
    have hcode := dictionaryCode_spec
      (hwords _ (mem_filterMap.2 ⟨some entry, mem_of_getElem? hentry, rfl⟩))
    refine ⟨_, hcode, ?_, ?_⟩
    · rw [Gathered.decodeDictionary, hleft hentry, hindices, getElem?_map, hentry]
      exact word_eq hoffs hvals _
    · have hlt := (List.getElem?_eq_some_iff.1 hcode).1
      rw [hleft hentry, Option.map_some, getD_eq_getElem?_getD, bounds_getElem? hlt.le,
        Option.getD_some]
  · intro record hentry
    refine ⟨hleft hentry, ?_⟩
    rw [Gathered.decodeDictionary, hleft hentry]
    rfl

/-- Gathering a column of an accepted block preserves its contents exactly if the sizes to
be stored add up to one of 32 bits. -/
theorem gathering_preserves_iff (memory : Memory) (fresh : Nat) (garbage : Nat → UInt8)
    (nullCount : Nat) (slots : List Slot) (numRecords : Nat) (column : VarlenColumn)
    (loosePtrs : List Pointer) (hcheck : checkForVersionsAndGaps slots = some numRecords)
    (hreadable : Readable memory (column.take numRecords)) :
    ((∃ gathered, copyToArrowVarlen memory fresh garbage nullCount numRecords column loosePtrs =
        some gathered ∧
        Preserves memory fresh slots column loosePtrs gathered gathered.decodeVarlen) ↔
      totalSize (column.take (numTuples slots)) < 2 ^ 32) ∧
    ((∃ gathered, buildDictionary memory fresh garbage nullCount numRecords column loosePtrs =
        some gathered ∧
        Preserves memory fresh slots column loosePtrs gathered gathered.decodeDictionary ∧
        SortedDictionary gathered) ↔
      distinctSize memory (column.take (numTuples slots)) < 2 ^ 32) := by
  rw [← numRecords_eq hcheck, copyToArrowVarlen_eq hreadable, buildDictionary_eq hreadable]
  constructor
  · constructor
    · rintro ⟨gathered, hgathered, _⟩
      exact (Option.ite_none_right_eq_some.mp hgathered).1
    · intro hsmall
      rw [if_pos hsmall]
      exact ⟨_, rfl, preserves_gathered hcheck hreadable rfl rfl rfl rfl⟩
  · constructor
    · rintro ⟨gathered, hgathered, _⟩
      exact (Option.ite_none_right_eq_some.mp hgathered).1
    · intro hsmall
      rw [if_pos hsmall]
      refine ⟨_, rfl, ?_, sortedDictionary_of_corpus hreadable rfl rfl⟩
      exact preserves_compressed hcheck hreadable (fun word => (mem_corpus hreadable).2)
        rfl rfl rfl rfl rfl

/-- A short value, NULL, and twice the same long value in buffers of their own. -/
def fourRecords : VarlenColumn :=
  [some (.inlined [104, 105] (by decide)), none,
    some (.outlined ⟨0, 0⟩ 13 true (by decide) (by decide)),
    some (.outlined ⟨1, 2⟩ 13 true (by decide) (by decide))]

theorem fourRecords_gathered :
    let memory : Memory := fun buffer => List.replicate (13 + 2 * buffer) 65
    let slots : List Slot := List.replicate 4 ⟨true, false, true, true⟩
    (∃ gathered, copyToArrowVarlen memory 2 (fun _ => 0) 0 4 fourRecords [] = some gathered ∧
        Preserves memory 2 slots fourRecords [] gathered gathered.decodeVarlen) ∧
      ∃ gathered, buildDictionary memory 2 (fun _ => 0) 0 4 fourRecords [] = some gathered ∧
        Preserves memory 2 slots fourRecords [] gathered gathered.decodeDictionary ∧
        SortedDictionary gathered := by
  have hreadable : Readable (fun buffer => List.replicate (13 + 2 * buffer) 65)
      (fourRecords.take 4) := by
    intro entry hentry
    simp only [fourRecords, List.take, mem_cons, Option.some_inj, not_mem_nil, or_false,
      reduceCtorEq, false_or] at hentry
    rcases hentry with rfl | rfl | rfl <;> rfl
  have hgathered := gathering_preserves_iff (fun buffer => List.replicate (13 + 2 * buffer) 65) 2
    (fun _ => 0) 0 (List.replicate 4 ⟨true, false, true, true⟩) 4 fourRecords [] (by decide)
    hreadable
  exact ⟨hgathered.1.2 (by decide), hgathered.2.2 (by decide +kernel)⟩

/-- Three values of almost 2 GiB: their sizes add up to less than their number of bytes. -/
theorem largeValues_overflow :
    checkForVersionsAndGaps [⟨true, false, true, true⟩, ⟨true, false, true, true⟩,
      ⟨true, false, true, true⟩] = some 3 ∧
    copyToArrowVarlen (fun _ => List.replicate (2 ^ 31 - 1) 0) 3 (fun _ => 0) 0 3
      [some (.outlined ⟨0, 0⟩ (2 ^ 31 - 1) true (by decide) (by decide)),
        some (.outlined ⟨1, 0⟩ (2 ^ 31 - 1) true (by decide) (by decide)),
        some (.outlined ⟨2, 0⟩ (2 ^ 31 - 1) true (by decide) (by decide))] [] = none := by
  refine ⟨by decide, ?_⟩
  rw [copyToArrowVarlen_eq, if_neg]
  · simp [totalSize, VarlenEntry.size]
  · intro entry hmem
    simp only [List.take, mem_cons, Option.some_inj, not_mem_nil, or_false] at hmem
    rcases hmem with rfl | rfl | rfl
    all_goals
      rw [VarlenEntry.content, VarlenEntry.size, drop_zero, length_take,
        length_replicate, Nat.min_self]

end Terrier.Compactor
