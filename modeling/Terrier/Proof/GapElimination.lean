import Terrier.Lib.Crossing
import Terrier.Storage.BlockCompactor

/-!
When the elimination of gaps compacts a group. Empty slots in rising order are paired with
filled slots in falling order, and the moves should stop where the two orders cross. The code
misses the crossing when the crossing block has no tuple left in front of it.
-/

namespace Terrier.Compactor

open List Option

variable {numSlots : Nat} {blocks : List Bitmap}

/-! ### The slots of a block -/

def filledSlots (bitmap : Bitmap) : List Nat :=
  (List.range bitmap.length).filter fun offset => bitmap[offset]? == some true

variable {bitmap : Bitmap} {offset : Nat} {bit : Bool} {list : Bitmap → List Nat}
  {block giver : Nat} {a b empty : GroupSlot} {next : Sweep}

theorem mem_slots :
    offset ∈ (List.range bitmap.length).filter (fun offset => bitmap[offset]? == some bit) ↔
      bitmap[offset]? = some bit := by
  rw [mem_filter, mem_range, beq_iff_eq, and_iff_right_iff_imp]
  intro h
  exact (List.getElem?_eq_some_iff.1 h).1

@[simp] theorem mem_emptySlots : offset ∈ emptySlots bitmap ↔ bitmap[offset]? = some false :=
  mem_slots

@[simp] theorem mem_filledSlots : offset ∈ filledSlots bitmap ↔ bitmap[offset]? = some true :=
  mem_slots

theorem emptySlots_pairwise (bitmap : Bitmap) : (emptySlots bitmap).Pairwise (· < ·) :=
  pairwise_lt_range.filter _

theorem filledSlots_pairwise (bitmap : Bitmap) : (filledSlots bitmap).Pairwise (· < ·) :=
  pairwise_lt_range.filter _

theorem filledSlots_eq (bitmap : Bitmap) : filledSlots bitmap = (List.range bitmap.length).filter
      fun offset => !(bitmap[offset]? == some false) := by
  apply filter_congr
  intro offset hoff
  have hlt := mem_range.1 hoff
  rw [getElem?_eq_getElem hlt]
  cases bitmap[offset] <;> rfl

theorem length_slots (bitmap : Bitmap) :
    (emptySlots bitmap).length + (filledSlots bitmap).length = bitmap.length := by
  rw [filledSlots_eq, emptySlots, ← length_eq_length_filter_add, length_range]

theorem skipEmpty_filter {offsets : List Nat} (hnodup : offsets.Nodup) (p : Nat → Bool) :
    skipEmpty offsets (offsets.filter p) = offsets.filter fun offset => !p offset := by
  induction offsets with
  | nil => rfl
  | cons offset rest ih =>
    rw [nodup_cons] at hnodup
    have hrest := ih hnodup.2
    cases hp : p offset with
    | true =>
      rw [filter_cons_of_pos hp, filter_cons_of_neg (by simp [hp]), skipEmpty,
        if_neg (by simp), hrest]
    | false =>
      rw [filter_cons_of_neg (by simp [hp]), filter_cons_of_pos (by simp [hp])]
      cases hempty : rest.filter p with
      | nil => rw [skipEmpty, ← hempty, hrest]
      | cons empty empties =>
        have hmem : empty ∈ rest := by
          have : empty ∈ rest.filter p := by rw [hempty]; exact mem_cons_self
          exact mem_of_mem_filter this
        have hne : empty ≠ offset := by
          rintro rfl
          exact hnodup.1 hmem
        rw [skipEmpty, if_pos hne, ← hempty, hrest]

theorem computeFilled_eq (bitmap : Bitmap) : computeFilled bitmap = filledSlots bitmap := by
  rw [computeFilled, emptySlots, skipEmpty_filter nodup_range, filledSlots_eq]

/-! ### The slots of a group -/

def position (numSlots : Nat) (slot : GroupSlot) : Nat :=
  slot.block * numSlots + slot.offset

def slotsFrom (list : Bitmap → List Nat) : Nat → List Bitmap → List GroupSlot
  | _, [] => []
  | block, bitmap :: rest => (list bitmap).map (⟨block, ·⟩) ++ slotsFrom list (block + 1) rest

theorem slotsFrom_append (list : Bitmap → List Nat) (block : Nat) (xs ys : List Bitmap) :
    slotsFrom list block (xs ++ ys) =
      slotsFrom list block xs ++ slotsFrom list (block + xs.length) ys := by
  induction xs generalizing block with
  | nil => rfl
  | cons bitmap rest ih =>
    rw [cons_append, slotsFrom, slotsFrom, ih, append_assoc, length_cons,
      Nat.add_right_comm, Nat.add_assoc]

variable {slot : GroupSlot}

theorem mem_slotsFrom {bitmaps : List Bitmap} :
    slot ∈ slotsFrom list block bitmaps ↔ block ≤ slot.block ∧
      ∃ bitmap, bitmaps[slot.block - block]? = some bitmap ∧ slot.offset ∈ list bitmap := by
  induction bitmaps generalizing block with
  | nil => simp [slotsFrom]
  | cons bitmap rest ih =>
    rw [slotsFrom, mem_append, ih, List.mem_map]
    constructor
    · rintro (⟨offset, hoff, rfl⟩ | ⟨hle, found, hfound, hoff⟩)
      · exact ⟨le_rfl, bitmap, by simp, hoff⟩
      · refine ⟨by omega, found, ?_, hoff⟩
        rw [show slot.block - block = slot.block - (block + 1) + 1 by omega]
        exact hfound
    · rintro ⟨hle, found, hfound, hoff⟩
      rcases hle.eq_or_lt with heq | hlt
      · rw [← heq, Nat.sub_self, getElem?_cons_zero] at hfound
        cases hfound
        exact .inl ⟨slot.offset, hoff, by cases slot; cases heq; rfl⟩
      · rw [show slot.block - block = slot.block - (block + 1) + 1 by omega,
          getElem?_cons_succ] at hfound
        exact .inr ⟨hlt, found, hfound, hoff⟩

def gaps (blocks : List Bitmap) : List GroupSlot :=
  slotsFrom emptySlots 0 blocks

def tuples (blocks : List Bitmap) : List GroupSlot :=
  slotsFrom filledSlots 0 blocks

theorem mem_gaps : slot ∈ gaps blocks ↔ ∃ bitmap, blocks[slot.block]? = some bitmap ∧
      bitmap[slot.offset]? = some false := by
  simp [gaps, mem_slotsFrom]

theorem mem_tuples : slot ∈ tuples blocks ↔ ∃ bitmap, blocks[slot.block]? = some bitmap ∧
      bitmap[slot.offset]? = some true := by
  simp [tuples, mem_slotsFrom]

def SameLayout (numSlots : Nat) (blocks : List Bitmap) : Prop :=
  ∀ bitmap ∈ blocks, bitmap.length = numSlots

theorem offset_lt (hlayout : SameLayout numSlots blocks) (hblock : blocks[block]? = some bitmap)
    (hbit : bitmap[offset]? = some bit) : offset < numSlots := by
  rw [← hlayout bitmap (mem_of_getElem? hblock)]
  exact (List.getElem?_eq_some_iff.1 hbit).1

/-- A slot in an earlier block comes first. -/
theorem position_lt_of_block_lt {a b : GroupSlot} (ha : a.offset < numSlots)
    (hblock : a.block < b.block) : position numSlots a < position numSlots b := by
  have hle : (a.block + 1) * numSlots ≤ b.block * numSlots := Nat.mul_le_mul_right _ hblock
  rw [Nat.add_mul, Nat.one_mul] at hle
  simp only [position]
  omega

theorem position_lt_of_offset_lt (hblock : a.block = b.block) (hoff : a.offset < b.offset) :
    position numSlots a < position numSlots b := by
  simp only [position, hblock]
  omega

section

variable (hlayout : SameLayout numSlots blocks)
include hlayout

theorem slotsFrom_pairwise (hsort : ∀ bitmap, (list bitmap).Pairwise (· < ·))
    (hlist : ∀ bitmap, list bitmap ⊆ List.range bitmap.length) (block : Nat) :
    (slotsFrom list block blocks).Pairwise
      fun a b => position numSlots a < position numSlots b := by
  induction blocks generalizing block with
  | nil => exact List.Pairwise.nil
  | cons bitmap rest ih =>
    rw [slotsFrom, pairwise_append]
    refine ⟨?_, ih (fun b hb => hlayout b (mem_cons_of_mem _ hb)) _, ?_⟩
    · rw [pairwise_map]
      apply (hsort bitmap).imp
      intro a b hab
      exact position_lt_of_offset_lt rfl hab
    · intro a ha b hb
      obtain ⟨offset, hoff, rfl⟩ := List.mem_map.1 ha
      have hlt := mem_range.1 (hlist bitmap hoff)
      rw [hlayout bitmap mem_cons_self] at hlt
      exact position_lt_of_block_lt hlt (Nat.lt_of_succ_le (mem_slotsFrom.1 hb).1)

theorem gaps_pairwise :
    (gaps blocks).Pairwise fun a b => position numSlots a < position numSlots b :=
  slotsFrom_pairwise hlayout emptySlots_pairwise (fun _ => filter_subset_self _) 0

theorem tuples_pairwise :
    (tuples blocks).Pairwise fun a b => position numSlots a < position numSlots b :=
  slotsFrom_pairwise hlayout filledSlots_pairwise (fun _ => filter_subset_self _) 0

end

/-! ### The sweep -/

/-- The filled slots that the sweep has not come to, in the order it will come to them. -/
def Sweep.remaining (blocks : List Bitmap) (sweep : Sweep) : List GroupSlot :=
  (sweep.filled.map (⟨sweep.giver, ·⟩)).reverse ++ (tuples (blocks.take sweep.giver)).reverse

structure Walked (numSlots : Nat) (blocks : List Bitmap) (sweep : Sweep)
    (rest : List GroupSlot) : Prop where
  targets : gaps blocks = sweep.moves.map (·.target) ++ rest
  sources : (tuples blocks).reverse = sweep.moves.map (·.source) ++ sweep.remaining blocks
  down : ∀ move ∈ sweep.moves, position numSlots move.target < position numSlots move.source
  giver_le : sweep.giver ≤ blocks.length

def AtLastSource (blocks : List Bitmap) (sweep : Sweep) : Prop :=
  sweep.moves = [] ∧ sweep.giver = blocks.length ∨
    ∃ move, sweep.moves.getLast? = some move ∧ move.source.block = sweep.giver

variable {sweep : Sweep}

theorem refill_eq (h : sweep.refill blocks = some next) :
    next = sweep ∨ sweep.filled = [] ∧ ∃ giver, sweep.giver = giver + 1 ∧
      next = { sweep with giver := giver, filled := computeFilled (blocks.getD giver []) } := by
  unfold Sweep.refill at h
  split_ifs at h with hfilled
  · split at h
    · cases h
    · rename_i giver hgiver
      cases h
      exact .inr ⟨hfilled, giver, hgiver, rfl⟩
  · cases h
    exact .inl rfl

theorem remaining_refill (hle : sweep.giver ≤ blocks.length) (h : sweep.refill blocks = some next) :
    next.remaining blocks = sweep.remaining blocks ∧ next.moves = sweep.moves ∧
      next.giver ≤ blocks.length := by
  rcases refill_eq h with rfl | ⟨hfilled, giver, hgiver, rfl⟩
  · exact ⟨rfl, rfl, hle⟩
  · have htake : blocks.take (giver + 1) = blocks.take giver ++ [blocks[giver]] := by simp
    have hlen : (blocks.take giver).length = giver := by simp; omega
    refine ⟨?_, rfl, by simp; omega⟩
    simp only [Sweep.remaining, hfilled, hgiver, htake, tuples, slotsFrom_append, hlen,
      computeFilled_eq, slotsFrom, reverse_append, Nat.zero_add, append_nil,
      map_nil, reverse_nil, nil_append, getD_eq_getElem?_getD,
      getElem?_eq_getElem (show giver < blocks.length by omega), getD_some]

variable {taker : Nat} {empties : List Nat}

theorem moves_of_fillGaps (h : fillGaps blocks taker empties sweep = some next) :
    sweep.moves ⊆ next.moves := by
  induction empties generalizing sweep with
  | nil =>
    cases h
    exact List.Subset.refl _
  | cons empty rest ih =>
    obtain ⟨refilled, hrefill, h⟩ := bind_eq_some_iff.1 h
    obtain ⟨offset, _, h⟩ := bind_eq_some_iff.1 h
    have hmoves : refilled.moves = sweep.moves := by
      rcases refill_eq hrefill with rfl | ⟨_, _, _, rfl⟩ <;> rfl
    rw [← hmoves]
    simp only at h
    split_ifs at h
    · cases h
      exact List.Subset.refl _
    · exact List.Subset.trans (subset_append_left _ _) (ih h)

theorem moves_of_sweepBlocks {rest : List Bitmap}
    (h : sweepBlocks blocks rest taker sweep = some next) : sweep.moves ⊆ next.moves := by
  induction rest generalizing taker sweep with
  | nil =>
    cases h
    exact List.Subset.refl _
  | cons bitmap rest ih =>
    rw [sweepBlocks] at h
    split_ifs at h
    · obtain ⟨filled, hfill, h⟩ := bind_eq_some_iff.1 h
      exact List.Subset.trans (moves_of_fillGaps hfill) (ih h)
    · cases h
      exact List.Subset.refl _

/-- Every block with a gap also has a tuple. -/
def NoEmptyBlock (blocks : List Bitmap) : Prop :=
  ∀ bitmap ∈ blocks, false ∈ bitmap → true ∈ bitmap

structure Stray (numSlots : Nat) (blocks : List Bitmap) (sweep : Sweep) (empty : GroupSlot)
    (rest : List GroupSlot) : Prop where
  walked : Walked numSlots blocks sweep (empty :: rest)
  last : AtLastSource blocks sweep
  filled : sweep.filled = []
  giver : sweep.giver = empty.block

def Upward (numSlots : Nat) (blocks : List Bitmap) (result : Option Sweep) : Prop :=
  ∀ sweep, result = some sweep → ∃ move ∈ sweep.moves, move.source ∈ tuples blocks ∧
    move.target ∈ gaps blocks ∧ position numSlots move.source < position numSlots move.target

inductive InnerEnd (numSlots : Nat) (blocks : List Bitmap) (taker : Nat)
    (later : List GroupSlot) : Option Sweep → Prop
  /-- All gaps of the block are filled. -/
  | filled {next : Sweep} : Walked numSlots blocks next later → AtLastSource blocks next →
      taker ≤ next.giver → InnerEnd numSlots blocks taker later (some next)
  /-- The next tuple stands before the next gap, in the same block. -/
  | met {sweep next : Sweep} {empty tuple : GroupSlot} {rest : List GroupSlot} :
      Walked numSlots blocks sweep (empty :: rest) →
      (sweep.remaining blocks).head? = some tuple → tuple.block = empty.block →
      tuple.offset < empty.offset → next.moves = sweep.moves → next.giver = taker →
      InnerEnd numSlots blocks taker later (some next)
  | strayed {sweep : Sweep} {empty : GroupSlot} {rest : List GroupSlot} {result : Option Sweep} :
      Stray numSlots blocks sweep empty rest → Upward numSlots blocks result →
      InnerEnd numSlots blocks taker later result

theorem mem_tuples_of_filledSlots (h : offset ∈ filledSlots (blocks.getD block [])) :
    ⟨block, offset⟩ ∈ tuples blocks := by
  rw [getD_eq_getElem?_getD] at h
  cases hblock : blocks[block]? with
  | none => simp [hblock, filledSlots] at h
  | some bitmap =>
    rw [hblock, getD_some, mem_filledSlots] at h
    exact mem_tuples.2 ⟨bitmap, hblock, h⟩

section

variable (hlayout : SameLayout numSlots blocks)
include hlayout

theorem bounds_of_bit
    (h : ∃ bitmap, blocks[slot.block]? = some bitmap ∧ bitmap[slot.offset]? = some bit) :
    slot.block < blocks.length ∧ slot.offset < numSlots := by
  obtain ⟨bitmap, hblock, hbit⟩ := h
  exact ⟨(List.getElem?_eq_some_iff.1 hblock).1, offset_lt hlayout hblock hbit⟩

theorem tuple_bounds (h : slot ∈ tuples blocks) :
    slot.block < blocks.length ∧ slot.offset < numSlots :=
  bounds_of_bit hlayout (mem_tuples.1 h)

theorem gap_bounds (h : slot ∈ gaps blocks) : slot.block < blocks.length ∧ slot.offset < numSlots :=
  bounds_of_bit hlayout (mem_gaps.1 h)

end

variable {rest : List GroupSlot}

section

variable (h : Walked numSlots blocks sweep rest)
include h

theorem Walked.mem_gaps (hslot : slot ∈ rest) : slot ∈ gaps blocks := by
  rw [h.targets]
  exact mem_append_right _ hslot

theorem Walked.mem_tuples (hslot : slot ∈ sweep.remaining blocks) : slot ∈ tuples blocks := by
  rw [← mem_reverse, h.sources]
  exact mem_append_right _ hslot

theorem Walked.legal :
    ∀ move ∈ sweep.moves, move.source ∈ tuples blocks ∧ move.target ∈ gaps blocks := by
  intro move hmove
  constructor
  · rw [← mem_reverse, h.sources]
    exact mem_append_left _ (List.mem_map_of_mem hmove)
  · rw [h.targets]
    exact mem_append_left _ (List.mem_map_of_mem hmove)

end

theorem walked_move (h : Walked numSlots blocks sweep (empty :: rest))
    (hlast : sweep.filled.getLast? = some offset)
    (hdown : position numSlots empty < position numSlots ⟨sweep.giver, offset⟩) :
    Walked numSlots blocks
        (Sweep.move { sweep with filled := sweep.filled.dropLast } ⟨sweep.giver, offset⟩ empty)
        rest ∧
      AtLastSource blocks
        (Sweep.move { sweep with filled := sweep.filled.dropLast } ⟨sweep.giver, offset⟩
          empty) := by
  have hsplit : sweep.filled = sweep.filled.dropLast ++ [offset] :=
    (dropLast_append_getLast? offset hlast).symm
  refine ⟨⟨?_, ?_, ?_, h.giver_le⟩, .inr ⟨⟨⟨sweep.giver, offset⟩, empty⟩, by simp [Sweep.move],
    rfl⟩⟩
  · rw [h.targets]
    simp [Sweep.move]
  · rw [h.sources, Sweep.remaining, hsplit]
    simp [Sweep.move, Sweep.remaining]
  · exact forall_mem_append.2 ⟨h.down, forall_mem_singleton.2 hdown⟩

theorem upward_of_stray (hlayout : SameLayout numSlots blocks) {empty : Nat}
    (hgap : ⟨taker, empty⟩ ∈ gaps blocks) (hfilled : sweep.filled = [])
    (hgiver : sweep.giver = taker) :
    Upward numSlots blocks (fillGaps blocks taker (empty :: empties) sweep) := by
  intro next hnext
  obtain ⟨refilled, hrefill, hnext⟩ := bind_eq_some_iff.1 hnext
  obtain ⟨offset, hoff, hnext⟩ := bind_eq_some_iff.1 hnext
  rcases refill_eq hrefill with rfl | ⟨_, giver, hbef, rfl⟩
  · rw [hfilled] at hoff
    cases hoff
  · have hne : taker ≠ giver := by omega
    rw [if_neg (by simp [hne])] at hnext
    have hmem := mem_of_getLast? hoff
    rw [computeFilled_eq] at hmem
    have htuple := mem_tuples_of_filledSlots hmem
    refine ⟨⟨⟨giver, offset⟩, ⟨taker, empty⟩⟩, moves_of_fillGaps hnext (by simp [Sweep.move]),
      htuple, hgap, ?_⟩
    exact position_lt_of_block_lt (tuple_bounds hlayout htuple).2 (show giver < taker by omega)

/-- The inner loop over the gaps of a block that has not been passed by the giver. -/
theorem fillGaps_end (hlayout : SameLayout numSlots blocks) (hnone : NoEmptyBlock blocks)
    (htaker : blocks[taker]? = some bitmap) {later : List GroupSlot}
    (hempties : ∀ e ∈ empties, e ∈ emptySlots bitmap)
    (h : Walked numSlots blocks sweep (empties.map (⟨taker, ·⟩) ++ later))
    (hlast : AtLastSource blocks sweep) (hle : taker ≤ sweep.giver) :
    InnerEnd numSlots blocks taker later (fillGaps blocks taker empties sweep) := by
  induction empties generalizing sweep with
  | nil => exact .filled h hlast hle
  | cons empty rest ih =>
    have hempty := mem_emptySlots.1 (hempties empty mem_cons_self)
    by_cases hstray : sweep.filled = [] ∧ sweep.giver = taker
    · exact .strayed ⟨h, hlast, hstray.1, hstray.2⟩
        (upward_of_stray hlayout (mem_gaps.2 ⟨bitmap, htaker, hempty⟩) hstray.1 hstray.2)
    -- the giver's block is not before the taker's, and has a tuple to give
    obtain ⟨refilled, hrefill, hle', hmem⟩ : ∃ refilled, sweep.refill blocks = some refilled ∧
        taker ≤ refilled.giver ∧ ∃ offset, refilled.filled.getLast? = some offset := by
      unfold Sweep.refill
      split_ifs with hfilled
      · have hlt : taker < sweep.giver := by
          rcases hle.lt_or_eq with hlt | heq
          · exact hlt
          · exact absurd ⟨hfilled, heq.symm⟩ hstray
        obtain ⟨giver, hgiver⟩ : ∃ giver, sweep.giver = giver + 1 :=
          ⟨sweep.giver - 1, by omega⟩
        have hblock : giver < blocks.length := by
          have := h.giver_le
          omega
        have htuple : true ∈ blocks[giver] := by
          by_cases hgap : false ∈ blocks[giver]
          · exact hnone _ (getElem_mem hblock) hgap
          · have hlen : blocks[giver].length = bitmap.length := by
              rw [hlayout _ (getElem_mem hblock), hlayout _ (mem_of_getElem? htaker)]
            have hpos : 0 < blocks[giver].length := by
              have := (List.getElem?_eq_some_iff.1 hempty).1
              omega
            have hhead := getElem_mem hpos
            cases hbit : blocks[giver][0] with
            | true => exact hbit ▸ hhead
            | false => exact absurd (hbit ▸ hhead) hgap
        obtain ⟨offset, hoff⟩ := mem_iff_getElem?.1 htuple
        have hne : computeFilled (blocks.getD giver []) ≠ [] := by
          rw [computeFilled_eq, getD_eq_getElem?_getD, getElem?_eq_getElem hblock]
          exact ne_nil_of_mem (mem_filledSlots.2 hoff)
        rw [hgiver]
        exact ⟨_, rfl, by simp only; omega, _, getLast?_eq_some_getLast hne⟩
      · exact ⟨sweep, rfl, hle, _, getLast?_eq_some_getLast hfilled⟩
    obtain ⟨offset, hoff⟩ := hmem
    obtain ⟨hrem, hmoves, hgiver⟩ := remaining_refill h.giver_le hrefill
    have hwalk : Walked numSlots blocks refilled
        (⟨taker, empty⟩ :: (rest.map (⟨taker, ·⟩) ++ later)) := by
      refine ⟨?_, ?_, ?_, hgiver⟩
      · rw [hmoves]
        exact h.targets
      · rw [hmoves, hrem]
        exact h.sources
      · rw [hmoves]
        exact h.down
    have hhead : (refilled.remaining blocks).head? = some ⟨refilled.giver, offset⟩ := by
      rw [Sweep.remaining, head?_append, head?_reverse, getLast?_map, hoff]
      rfl
    rw [fillGaps, hrefill, bind_eq_bind, bind_some, hoff, bind_eq_bind, bind_some]
    simp only
    split_ifs with hmet
    · exact .met hwalk hhead hmet.1.symm hmet.2 rfl hmet.1.symm
    · have hdown : position numSlots ⟨taker, empty⟩ <
          position numSlots ⟨refilled.giver, offset⟩ := by
        rcases hle'.lt_or_eq with hlt | heq
        · exact position_lt_of_block_lt (offset_lt hlayout htaker hempty) hlt
        · apply position_lt_of_offset_lt heq
          obtain ⟨bitmap', hbits', hbit⟩ :=
            mem_tuples.1 (hwalk.mem_tuples (mem_of_head? hhead))
          rw [show blocks[refilled.giver]? = some bitmap from heq ▸ htaker] at hbits'
          cases hbits'
          have hne : offset ≠ empty := by
            rintro rfl
            rw [hempty] at hbit
            cases hbit
          have hnot : ¬ offset < empty := fun hlt => hmet ⟨heq, hlt⟩
          simp only
          omega
      obtain ⟨hnext, hnextLast⟩ := walked_move hwalk hoff hdown
      exact ih (fun e he => hempties e (mem_cons_of_mem _ he)) hnext hnextLast hle'

inductive OuterEnd (numSlots : Nat) (blocks : List Bitmap) : Option Sweep → Prop
  /-- The giver's block is before every gap that is left. -/
  | ended {next : Sweep} {rest : List GroupSlot} : Walked numSlots blocks next rest →
      AtLastSource blocks next → (∀ slot ∈ rest, next.giver < slot.block) →
      OuterEnd numSlots blocks (some next)
  | met {sweep next : Sweep} {empty tuple : GroupSlot} {rest : List GroupSlot} :
      Walked numSlots blocks sweep (empty :: rest) →
      (sweep.remaining blocks).head? = some tuple → tuple.block = empty.block →
      tuple.offset < empty.offset → next.moves = sweep.moves →
      OuterEnd numSlots blocks (some next)
  | strayed {sweep : Sweep} {empty : GroupSlot} {rest : List GroupSlot} {result : Option Sweep} :
      Stray numSlots blocks sweep empty rest → Upward numSlots blocks result →
      OuterEnd numSlots blocks result

theorem sweepBlocks_of_passed {rest : List Bitmap} (h : sweep.giver < taker) :
    sweepBlocks blocks rest taker sweep = some sweep := by
  cases rest with
  | nil => rfl
  | cons bitmap rest => rw [sweepBlocks, if_neg (by omega)]

theorem upward_bind {result : Option Sweep} (h : Upward numSlots blocks result) (rest : List Bitmap)
    (taker : Nat) : Upward numSlots blocks (result.bind (sweepBlocks blocks rest taker)) := by
  intro final hfinal
  obtain ⟨next, hnext, hfinal⟩ := bind_eq_some_iff.1 hfinal
  obtain ⟨move, hmove, hbad⟩ := h next hnext
  exact ⟨move, moves_of_sweepBlocks hfinal hmove, hbad⟩

theorem sweepBlocks_end (hlayout : SameLayout numSlots blocks) (hnone : NoEmptyBlock blocks)
    {rest : List Bitmap} (hrest : blocks.drop taker = rest)
    (h : Walked numSlots blocks sweep (slotsFrom emptySlots taker rest))
    (hlast : AtLastSource blocks sweep) :
    OuterEnd numSlots blocks (sweepBlocks blocks rest taker sweep) := by
  induction rest generalizing taker sweep with
  | nil => exact .ended h hlast (by simp [slotsFrom])
  | cons bitmap rest ih =>
    have htaker : blocks[taker]? = some bitmap := by
      rw [← head?_drop, hrest]
      rfl
    have hrest' : blocks.drop (taker + 1) = rest := by
      rw [← tail_drop, hrest]
      rfl
    by_cases hle : taker ≤ sweep.giver
    · rw [sweepBlocks, if_pos hle]
      have hend := fillGaps_end hlayout hnone htaker (fun _ he => he) h hlast hle
      generalize fillGaps blocks taker (emptySlots bitmap) sweep = result at hend ⊢
      cases hend with
      | filled hnext hnextLast _ => exact ih hrest' hnext hnextLast
      | met hwalk hhead hblock hoff hmoves hgiver =>
        rw [bind_eq_bind, bind_some, sweepBlocks_of_passed (by omega)]
        exact .met hwalk hhead hblock hoff hmoves
      | strayed hstray hupward => exact .strayed hstray (upward_bind hupward _ _)
    · rw [sweepBlocks_of_passed (Nat.lt_of_not_le hle)]
      apply OuterEnd.ended h hlast
      intro slot hslot
      have := (mem_slotsFrom.1 hslot).1
      omega

theorem eliminateGaps_end (hlayout : SameLayout numSlots blocks) (hnone : NoEmptyBlock blocks) :
    ∃ result, OuterEnd numSlots blocks result ∧ eliminateGaps blocks = result.map (·.moves) := by
  refine ⟨_, sweepBlocks_end hlayout hnone drop_zero ?_ (.inl ⟨rfl, rfl⟩), rfl⟩
  refine ⟨rfl, ?_, by simp, le_rfl⟩
  simp [Sweep.remaining]

/-! ### Missed crossings -/

def tupleCount (blocks : List Bitmap) : Nat :=
  (blocks.map (List.count true)).sum

theorem length_filledSlots (bitmap : Bitmap) : (filledSlots bitmap).length = bitmap.count true := by
  induction bitmap with
  | nil => rfl
  | cons bit rest ih =>
    rw [filledSlots, length_cons, range_succ_eq_map, filter_cons, List.filter_map, count_cons, ← ih]
    cases bit <;> simp [filledSlots, Function.comp_def]

theorem length_tuples (blocks : List Bitmap) : (tuples blocks).length = tupleCount blocks := by
  suffices h : ∀ block, (slotsFrom filledSlots block blocks).length = tupleCount blocks from h 0
  induction blocks with
  | nil => exact fun _ => rfl
  | cons bitmap rest ih =>
    intro block
    rw [slotsFrom, length_append, length_map, length_filledSlots, ih]
    simp [tupleCount]

/-- The block in which the tuples are to end has no tuple in front of that end, and a gap
behind it. -/
def MissesCrossing (numSlots : Nat) (blocks : List Bitmap) : Prop :=
  ∃ bitmap, blocks[tupleCount blocks / numSlots]? = some bitmap ∧
    (∀ offset, bitmap[offset]? = some true → tupleCount blocks % numSlots ≤ offset) ∧
    ∃ offset, bitmap[offset]? = some false ∧ tupleCount blocks % numSlots ≤ offset

def InGroup (numSlots : Nat) (blocks : List Bitmap) (slot : GroupSlot) : Prop :=
  slot.block < blocks.length ∧ slot.offset < numSlots

theorem position_inj (ha : a.offset < numSlots) (hb : b.offset < numSlots)
    (h : position numSlots a = position numSlots b) : a = b := by
  have hblock : a.block = b.block := by
    rcases Nat.lt_trichotomy a.block b.block with hlt | heq | hgt
    · have := position_lt_of_block_lt ha hlt
      omega
    · exact heq
    · have := position_lt_of_block_lt hb hgt
      omega
  have hoff : a.offset = b.offset := by
    simp only [position, hblock] at h
    omega
  cases a
  simp_all

theorem not_mem_gaps_of_mem_tuples (h : slot ∈ tuples blocks) : slot ∉ gaps blocks := by
  obtain ⟨bitmap, hbits, hbit⟩ := mem_tuples.1 h
  simp [mem_gaps, hbits, hbit]

theorem mem_tuples_or_gaps (hlayout : SameLayout numSlots blocks)
    (h : InGroup numSlots blocks slot) : slot ∈ tuples blocks ∨ slot ∈ gaps blocks := by
  obtain ⟨hblock, hoff⟩ := h
  have hlen : blocks[slot.block].length = numSlots := hlayout _ (getElem_mem hblock)
  rw [← hlen] at hoff
  have hbits := getElem?_eq_getElem hblock
  have hbit := getElem?_eq_getElem hoff
  cases hvalue : blocks[slot.block][slot.offset] with
  | true => exact .inl (mem_tuples.2 ⟨_, hbits, by rw [hbit, hvalue]⟩)
  | false => exact .inr (mem_gaps.2 ⟨_, hbits, by rw [hbit, hvalue]⟩)

theorem exists_slot_of_lt (h : InGroup numSlots blocks slot) {place : Nat}
    (hlt : place < position numSlots slot) :
    ∃ other, InGroup numSlots blocks other ∧ position numSlots other = place := by
  obtain ⟨hblock, hoff⟩ := h
  have hpos : 0 < numSlots := by omega
  refine ⟨⟨place / numSlots, place % numSlots⟩, ⟨?_, Nat.mod_lt _ hpos⟩, ?_⟩
  · have hbound : position numSlots slot < blocks.length * numSlots :=
      @position_lt_of_block_lt numSlots slot ⟨blocks.length, 0⟩ hoff hblock
    exact (Nat.div_lt_iff_lt_mul hpos).2 (hlt.trans hbound)
  · rw [position, Nat.mul_comm]
    exact Nat.div_add_mod place numSlots

/-- Slots of the group are told apart by their places. -/
theorem position_mem_map_iff {slots : List GroupSlot}
    (hslots : ∀ slot ∈ slots, InGroup numSlots blocks slot) (hslot : InGroup numSlots blocks slot) :
    position numSlots slot ∈ slots.map (position numSlots) ↔ slot ∈ slots := by
  constructor
  · intro hmem
    obtain ⟨other, hother, heq⟩ := List.mem_map.1 hmem
    rwa [← position_inj (hslots other hother).2 hslot.2 heq]
  · exact List.mem_map_of_mem

theorem mem_remaining : slot ∈ sweep.remaining blocks ↔
    slot.block = sweep.giver ∧ slot.offset ∈ sweep.filled ∨
      slot ∈ tuples blocks ∧ slot.block < sweep.giver := by
  have htake : slot ∈ tuples (blocks.take sweep.giver) ↔
      slot ∈ tuples blocks ∧ slot.block < sweep.giver := by
    rw [mem_tuples, mem_tuples, getElem?_take]
    split_ifs with hlt <;> simp [hlt]
  rw [Sweep.remaining, mem_append, mem_reverse, mem_reverse, htake, List.mem_map]
  apply or_congr_left
  constructor
  · rintro ⟨offset, hoff, rfl⟩
    exact ⟨rfl, hoff⟩
  · rintro ⟨hblock, hoff⟩
    exact ⟨slot.offset, hoff, by rw [← hblock]⟩

structure Crossed (numSlots : Nat) (blocks : List Bitmap) (sweep : Sweep)
    (rest : List GroupSlot) : Prop extends Walked numSlots blocks sweep rest where
  crossed : ∀ gap ∈ rest.head?, ∀ tuple ∈ (sweep.remaining blocks).head?,
    position numSlots tuple < position numSlots gap

section

variable (hlayout : SameLayout numSlots blocks)
include hlayout

theorem Crossed.places (h : Crossed numSlots blocks sweep rest) :
    Crossing.Crossed ((sweep.moves.map (·.target)).map (position numSlots))
      ((sweep.moves.map (·.source)).map (position numSlots)) (rest.map (position numSlots))
      ((sweep.remaining blocks).map (position numSlots)) where
  rising := by
    rw [← map_append, ← h.targets, pairwise_map]
    exact gaps_pairwise hlayout
  falling := by
    rw [← map_append, ← h.sources, pairwise_map, pairwise_reverse]
    exact tuples_pairwise hlayout
  pairs := by
    simp only [List.map_map, forall₂_map_left_iff, forall₂_map_right_iff, forall₂_same]
    exact h.down
  crossed := by
    simp only [head?_map, mem_def, map_eq_some_iff]
    rintro _ ⟨gap, hgap, rfl⟩ _ ⟨tuple, htuple, rfl⟩
    exact h.crossed gap hgap tuple htuple

/-- The slots filled at the end are the targets and the tuples not moved; they come before
the sources and the gaps left. -/
theorem Crossed.kept (h : Crossed numSlots blocks sweep rest)
    (hslot : InGroup numSlots blocks slot) :
    (slot ∈ sweep.moves.map (·.target) ++ sweep.remaining blocks ↔
      position numSlots slot < tupleCount blocks) ∧
    (slot ∈ sweep.moves.map (·.source) ++ rest → tupleCount blocks ≤ position numSlots slot) := by
  have hgaps : ∀ slot ∈ gaps blocks, InGroup numSlots blocks slot :=
    fun slot hmem => gap_bounds hlayout hmem
  have htup : ∀ slot ∈ (tuples blocks).reverse, InGroup numSlots blocks slot :=
    fun slot hmem => tuple_bounds hlayout (mem_reverse.1 hmem)
  have hkept : ∀ slot ∈ sweep.moves.map (·.target) ++ sweep.remaining blocks,
      InGroup numSlots blocks slot := by
    intro slot hmem
    rcases mem_append.1 hmem with hmem | hmem
    · exact hgaps slot (h.targets ▸ mem_append_left _ hmem)
    · exact tuple_bounds hlayout (h.mem_tuples hmem)
  have hends := (h.places hlayout).mem_iff_lt
  simp only [← map_append, ← h.targets, ← h.sources, length_map, length_reverse,
    length_tuples] at hends
  have hiff := hends ?_ ?_
  · rw [← position_mem_map_iff hkept hslot, ← (hiff _).1]
    refine ⟨Iff.rfl, fun hmem => (hiff _).2 ?_⟩
    exact List.mem_map_of_mem hmem
  · intro place hplace hmem
    obtain ⟨slot, hgap, rfl⟩ := List.mem_map.1 hplace
    rw [position_mem_map_iff htup (hgaps slot hgap), mem_reverse] at hmem
    exact not_mem_gaps_of_mem_tuples hmem hgap
  · intro place hplace other hlt
    obtain ⟨slot, hmem, rfl⟩ := List.mem_map.1 hplace
    obtain ⟨slot', hslot', rfl⟩ := exists_slot_of_lt (hkept slot hmem) hlt
    rw [position_mem_map_iff hgaps hslot', position_mem_map_iff htup hslot', mem_reverse]
    exact (mem_tuples_or_gaps hlayout hslot').symm

/-- The giver behind every gap left, the lists have crossed. -/
theorem crossed_of_passed (h : Walked numSlots blocks sweep rest)
    (hpassed : ∀ gap ∈ rest.head?, ∀ tuple ∈ sweep.remaining blocks, tuple.block < gap.block) :
    Crossed numSlots blocks sweep rest := by
  refine ⟨h, fun gap hgap tuple htuple => ?_⟩
  have hmem := mem_of_head? htuple
  exact position_lt_of_block_lt (tuple_bounds hlayout (h.mem_tuples hmem)).2
    (hpassed gap hgap tuple hmem)

theorem missesCrossing_of_stray {empty : GroupSlot} (h : Stray numSlots blocks sweep empty rest) :
    MissesCrossing numSlots blocks := by
  have hgap : empty ∈ gaps blocks := h.walked.mem_gaps mem_cons_self
  obtain ⟨bitmap, hblock, hbit⟩ := mem_gaps.1 hgap
  have hin : InGroup numSlots blocks empty := gap_bounds hlayout hgap
  have hrem {slot : GroupSlot} : slot ∈ sweep.remaining blocks ↔
      slot ∈ tuples blocks ∧ slot.block < empty.block := by
    simp [mem_remaining, h.filled, h.giver]
  have hcrossed : Crossed numSlots blocks sweep (empty :: rest) := by
    apply crossed_of_passed hlayout h.walked
    rintro gap ⟨⟩ tuple htuple
    exact (hrem.1 htuple).2
  have hupper := (hcrossed.kept hlayout hin).2 (by simp)
  -- every slot of the blocks before is filled in the end
  have hlower : empty.block * numSlots ≤ tupleCount blocks := by
    by_contra hlt
    obtain ⟨slot, hslot, hplace⟩ := exists_slot_of_lt hin
      (show tupleCount blocks < position numSlots empty by simp only [position]; omega)
    have hearlier : slot.block < empty.block := by
      apply Nat.lt_of_mul_lt_mul_right (a := numSlots)
      simp only [position] at hplace
      omega
    have hkept : slot ∈ sweep.moves.map (·.target) ++ sweep.remaining blocks := by
      rcases mem_tuples_or_gaps hlayout hslot with htuple | hgap'
      · exact mem_append_right _ (hrem.2 ⟨htuple, hearlier⟩)
      · have hsort := gaps_pairwise hlayout
        rw [h.walked.targets] at hsort hgap'
        have hlater := pairwise_cons.1 (pairwise_append.1 hsort).2.1
        have hbef := position_lt_of_block_lt hslot.2 hearlier
        rcases mem_append.1 hgap' with hmem | hmem
        · exact mem_append_left _ hmem
        · rcases mem_cons.1 hmem with rfl | hmem
          · exact absurd hbef (lt_irrefl _)
          · exact absurd hbef (hlater.1 slot hmem).asymm
    have := (hcrossed.kept hlayout hslot).1.1 hkept
    omega
  have hdiv : tupleCount blocks / numSlots = empty.block := by
    apply Nat.div_eq_of_lt_le hlower
    have hlt := hin.2
    rw [position] at hupper
    rw [Nat.add_mul, Nat.one_mul]
    omega
  have hmod := Nat.div_add_mod (tupleCount blocks) numSlots
  rw [hdiv, Nat.mul_comm] at hmod
  rw [position] at hupper
  refine ⟨bitmap, hdiv ▸ hblock, fun offset htuple => ?_, empty.offset, hbit, by omega⟩
  have hmem : (⟨empty.block, offset⟩ : GroupSlot) ∈ tuples blocks :=
    mem_tuples.2 ⟨bitmap, hblock, htuple⟩
  have hmoved := mem_reverse.2 hmem
  rw [h.walked.sources, mem_append] at hmoved
  have hbehind := (hcrossed.kept hlayout (tuple_bounds hlayout hmem)).2 (mem_append_left _
    (hmoved.resolve_right fun hleft => lt_irrefl _ (hrem.1 hleft).2))
  simp only [position] at hbehind
  omega

/-- Where the crossing is missed, a gap is left in the block in which the tuples are to end,
and no tuple. -/
theorem left_of_missesCrossing (hmisses : MissesCrossing numSlots blocks)
    (h : Crossed numSlots blocks sweep rest) :
    ∃ block, (∃ gap ∈ rest, gap.block = block) ∧
      (∀ slot ∈ sweep.moves.map (·.source) ++ rest, block ≤ slot.block) ∧
      ∀ tuple ∈ sweep.remaining blocks, tuple.block < block := by
  obtain ⟨bitmap, hblock, htup, offset, hgap, hoff⟩ := hmisses
  have hdivmod := Nat.div_add_mod (tupleCount blocks) numSlots
  generalize tupleCount blocks / numSlots = block at hblock hdivmod
  generalize tupleCount blocks % numSlots = place at htup hoff hdivmod
  rw [Nat.mul_comm] at hdivmod
  have hlt := offset_lt hlayout hblock hgap
  refine ⟨block, ⟨⟨block, offset⟩, ?_, rfl⟩, ?_, ?_⟩
  · have hmem : (⟨block, offset⟩ : GroupSlot) ∈ gaps blocks :=
      mem_gaps.2 ⟨bitmap, hblock, hgap⟩
    have hkept := (h.kept hlayout (gap_bounds hlayout hmem)).1
    rw [h.targets, mem_append] at hmem
    apply hmem.resolve_left
    intro htarget
    have := hkept.1 (mem_append_left _ htarget)
    simp only [position] at this
    omega
  · intro slot hmem
    have hslot : InGroup numSlots blocks slot := by
      rcases mem_append.1 hmem with hsrc | hrest
      · obtain ⟨move, hmove, rfl⟩ := List.mem_map.1 hsrc
        exact tuple_bounds hlayout (h.legal move hmove).1
      · exact gap_bounds hlayout (h.mem_gaps hrest)
    have hbehind := (h.kept hlayout hslot).2 hmem
    by_contra hearlier
    have := @position_lt_of_block_lt numSlots slot ⟨block, place⟩ hslot.2
      (Nat.lt_of_not_le hearlier)
    simp only [position] at this hbehind
    omega
  · intro tuple hrem
    have hmem := h.mem_tuples hrem
    have hlow := (h.kept hlayout (tuple_bounds hlayout hmem)).1.1 (mem_append_right _ hrem)
    obtain ⟨bitmap', hbits', hbit⟩ := mem_tuples.1 hmem
    by_contra hge
    rcases (Nat.le_of_not_lt hge).eq_or_lt with rfl | hafter
    · rw [hblock] at hbits'
      cases hbits'
      have := htup _ hbit
      simp only [position] at hlow
      omega
    · have := @position_lt_of_block_lt numSlots ⟨block, offset⟩ tuple hlt hafter
      simp only [position] at this hlow
      omega

end

/-! ### The group after the moves -/

def bitmaps (group : List (List Slot)) : List Bitmap :=
  group.map allocationBitmap

def slotAt (group : List (List Slot)) (slot : GroupSlot) : Option Slot :=
  group[slot.block]?.bind (·[slot.offset]?)

/-- The slots that tuples were moved away from stay allocated until the collector comes to them,
but their tuples cannot be read. All other allocated slots come first in the group. -/
structure Compacts (numSlots : Nat) (group : List (List Slot)) (moves : List Move) : Prop where
  legal : ∀ move ∈ moves, move.source ∈ tuples (bitmaps group) ∧ move.target ∈ gaps (bitmaps group)
  once : (moves.map (·.source)).Nodup
  settled : ∀ move ∈ moves, ∀ move' ∈ moves, move.target ≠ move'.source
  deleted : ∀ move ∈ moves, ∃ left, slotAt (commitGroup group moves) move.source = some left ∧
    left.allocated = true ∧ left.readable = false
  contiguous : ∀ slot left, slotAt (commitGroup group moves) slot = some left →
    (left.allocated = true ∧ slot ∉ moves.map (·.source) ↔
      position numSlots slot < tupleCount (bitmaps group))

variable {group : List (List Slot)} {found : Slot}

theorem slotAt_commitGroup (group : List (List Slot)) (moves : List Move) (slot : GroupSlot) :
    slotAt (commitGroup group moves) slot = (slotAt group slot).map fun found =>
      if slot ∈ moves.map (·.target) then ⟨true, true, true, true⟩
      else if slot ∈ moves.map (·.source) then { found with versioned := true, readable := false }
      else found := by
  rw [slotAt, slotAt, commitGroup, getElem?_mapIdx]
  cases group[slot.block]? with
  | none => rfl
  | some slots =>
    have hany (f : Move → GroupSlot) :
        moves.any (f · == ⟨slot.block, slot.offset⟩) = true ↔ slot ∈ moves.map f := by
      simp [List.mem_map]
    simp [commitMoves, getElem?_mapIdx, ← hany]

theorem slotAt_bit (h : slotAt group slot = some found) :
    ∃ bitmap, (bitmaps group)[slot.block]? = some bitmap ∧
      bitmap[slot.offset]? = some found.allocated := by
  obtain ⟨slots, hslots, hfound⟩ := bind_eq_some_iff.1 h
  exact ⟨allocationBitmap slots, by simp [bitmaps, hslots], by simp [allocationBitmap, hfound]⟩

theorem slotAt_of_bit (h : ∃ bitmap, (bitmaps group)[slot.block]? = some bitmap ∧
      bitmap[slot.offset]? = some bit) : ∃ found, slotAt group slot = some found ∧
        found.allocated = bit := by
  obtain ⟨bitmap, hbitmap, hbit⟩ := h
  rw [bitmaps, getElem?_map, map_eq_some_iff] at hbitmap
  obtain ⟨slots, hslots, rfl⟩ := hbitmap
  rw [allocationBitmap, getElem?_map, map_eq_some_iff] at hbit
  obtain ⟨found, hfound, hbit⟩ := hbit
  exact ⟨found, bind_eq_some_iff.2 ⟨slots, hslots, hfound⟩, hbit⟩

theorem mem_tuples_of_slotAt (h : slotAt group slot = some found) :
    slot ∈ tuples (bitmaps group) ↔ found.allocated = true := by
  obtain ⟨bitmap, hblock, hbit⟩ := slotAt_bit h
  simp [mem_tuples, hblock, hbit]

theorem Crossed.compacts (hlayout : SameLayout numSlots (bitmaps group))
    (h : Crossed numSlots (bitmaps group) sweep rest) : Compacts numSlots group sweep.moves := by
  have hsources : (sweep.moves.map (·.source) ++ sweep.remaining (bitmaps group)).Nodup := by
    rw [← h.sources]
    exact nodup_reverse.2 ((tuples_pairwise hlayout).imp fun hlt heq => by
      rw [heq] at hlt
      exact lt_irrefl _ hlt)
  obtain ⟨hnodup, -, hdisj⟩ := nodup_append.1 hsources
  have hsettled : ∀ move ∈ sweep.moves, ∀ move' ∈ sweep.moves, move.target ≠ move'.source := by
    intro move hmove move' hmove' heq
    exact not_mem_gaps_of_mem_tuples (h.legal move' hmove').1 (heq ▸ (h.legal move hmove).2)
  have hapart : ∀ slot ∈ sweep.moves.map (·.target), slot ∉ sweep.moves.map (·.source) := by
    intro slot htarget hsource
    obtain ⟨move, hmove, rfl⟩ := List.mem_map.1 htarget
    obtain ⟨move', hmove', heq⟩ := List.mem_map.1 hsource
    exact hsettled move hmove move' hmove' heq.symm
  refine ⟨h.legal, hnodup, hsettled, ?_, ?_⟩
  · intro move hmove
    obtain ⟨found, hfound, halloc⟩ := slotAt_of_bit (mem_tuples.1 (h.legal move hmove).1)
    have hsource : move.source ∈ sweep.moves.map (·.source) := List.mem_map_of_mem hmove
    have htarget : move.source ∉ sweep.moves.map (·.target) := fun hmem => hapart _ hmem hsource
    rw [slotAt_commitGroup, hfound, map_some, if_neg htarget, if_pos hsource]
    exact ⟨_, rfl, halloc, rfl⟩
  · intro slot left hleft
    rw [slotAt_commitGroup, map_eq_some_iff] at hleft
    obtain ⟨found, hfound, rfl⟩ := hleft
    have htuple : found.allocated = true ↔ slot ∈ sweep.moves.map (·.source) ∨
        slot ∈ sweep.remaining (bitmaps group) := by
      rw [← mem_tuples_of_slotAt hfound, ← mem_reverse, h.sources, mem_append]
    rw [← (h.kept hlayout (bounds_of_bit hlayout (slotAt_bit hfound))).1, mem_append]
    have hremaining := fun hsource hmem => hdisj slot hsource slot hmem rfl
    have hslot := hapart slot
    split_ifs <;> grind

/-! ### Groups with an empty block -/

theorem fillGaps_none {empty : Nat} (hempty : computeFilled (blocks.getD giver []) = []) :
    fillGaps blocks taker (empty :: empties) ⟨giver + 1, [], []⟩ = none := by
  have hrefill : Sweep.refill blocks ⟨giver + 1, [], []⟩ = some ⟨giver, [], []⟩ := by
    rw [Sweep.refill, if_pos rfl]
    simp only [hempty]
  rw [fillGaps, hrefill]
  rfl

/-- With an empty block at the end the first gap has nothing to be filled with. -/
theorem sweepBlocks_none (hempty : computeFilled (blocks.getD giver []) = []) {rest : List Bitmap}
    (hle : taker + rest.length ≤ giver + 1) (hgap : ∃ bitmap ∈ rest, false ∈ bitmap) :
    sweepBlocks blocks rest taker ⟨giver + 1, [], []⟩ = none := by
  induction rest generalizing taker with
  | nil => simp at hgap
  | cons bitmap rest ih =>
    rw [length_cons] at hle
    rw [sweepBlocks, if_pos (by simp only; omega)]
    cases hgaps : emptySlots bitmap with
    | cons empty empties => rw [fillGaps_none hempty]; rfl
    | nil =>
      have hnone : false ∉ bitmap := by
        intro hmem
        obtain ⟨offset, hoff⟩ := mem_iff_getElem?.1 hmem
        have := mem_emptySlots.2 hoff
        rw [hgaps] at this
        cases this
      obtain ⟨bitmap', hbits', hgap⟩ := hgap
      rcases mem_cons.1 hbits' with rfl | hrest
      · exact absurd hgap hnone
      · exact ih (by omega) ⟨bitmap', hrest, hgap⟩

def SortedByGaps (blocks : List Bitmap) : Prop :=
  blocks.Pairwise fun a b => (emptySlots a).length ≤ (emptySlots b).length

theorem filledSlots_eq_nil_iff :
    filledSlots bitmap = [] ↔ (emptySlots bitmap).length = bitmap.length := by
  have := length_slots bitmap
  rw [← length_eq_zero_iff]
  omega

theorem noEmptyBlock_of_some (hlayout : SameLayout numSlots blocks) (hsort : SortedByGaps blocks)
    (h : (eliminateGaps blocks).isSome) : NoEmptyBlock blocks := by
  intro bitmap hbits hgap
  by_contra htuple
  have hempty : filledSlots bitmap = [] := by
    apply eq_nil_iff_forall_not_mem.2
    intro offset hoff
    exact htuple (mem_of_getElem? (mem_filledSlots.1 hoff))
  -- the last block has no fewer empty slots
  have hne : blocks ≠ [] := ne_nil_of_mem hbits
  have hlast : filledSlots (blocks.getLast hne) = [] := by
    rw [filledSlots_eq_nil_iff] at hempty ⊢
    have hbound := length_slots (blocks.getLast hne)
    have hlen := hlayout _ (getLast_mem hne)
    have hlen' := hlayout _ hbits
    have hle : (emptySlots bitmap).length ≤ (emptySlots (blocks.getLast hne)).length := by
      rw [← dropLast_append_getLast hne] at hbits hsort
      rcases mem_append.1 hbits with hmem | hmem
      · exact (pairwise_append.1 hsort).2.2 _ hmem _ (mem_singleton_self _)
      · rw [mem_singleton.1 hmem]
    omega
  have hpos := length_pos_iff.2 hne
  have hnone : eliminateGaps blocks = none := by
    have hgiver : blocks.length - 1 + 1 = blocks.length := by omega
    have hfilled : computeFilled (blocks.getD (blocks.length - 1) []) = [] := by
      rw [computeFilled_eq, getD_eq_getElem?_getD, ← getLast?_eq_getElem?,
        getLast?_eq_some_getLast hne]
      exact hlast
    have := sweepBlocks_none hfilled (show 0 + blocks.length ≤ _ by omega) ⟨bitmap, hbits, hgap⟩
    rw [hgiver] at this
    rw [eliminateGaps, this]
    rfl
  rw [hnone] at h
  cases h

/-! ### When gaps are eliminated -/

theorem not_compacts_of_upward (h : Upward numSlots (bitmaps group) (some sweep)) :
    ¬ Compacts numSlots group sweep.moves := by
  intro hcompacts
  obtain ⟨move, hmove, hsrc, htarget, hlt⟩ := h sweep rfl
  obtain ⟨found, hfound, -⟩ := slotAt_of_bit (mem_gaps.1 htarget)
  have hfilled : slotAt (commitGroup group sweep.moves) move.target =
      some ⟨true, true, true, true⟩ := by
    rw [slotAt_commitGroup, hfound, map_some, if_pos (List.mem_map_of_mem hmove)]
  have hbelow := (hcompacts.contiguous _ _ hfilled).1 ⟨rfl, fun hmem => by
    obtain ⟨move', hmove', heq⟩ := List.mem_map.1 hmem
    exact hcompacts.settled move hmove move' hmove' heq.symm⟩
  obtain ⟨left, hleft, -⟩ := hcompacts.deleted move hmove
  exact ((hcompacts.contiguous _ _ hleft).2 (hlt.trans hbelow)).2 (List.mem_map_of_mem hmove)

theorem crossed_of_met {tuple : GroupSlot} (h : Walked numSlots blocks sweep (empty :: rest))
    (hhead : (sweep.remaining blocks).head? = some tuple) (hblock : tuple.block = empty.block)
    (hoff : tuple.offset < empty.offset) : Crossed numSlots blocks sweep (empty :: rest) := by
  refine ⟨h, ?_⟩
  rintro gap ⟨⟩ other hother
  rw [hhead] at hother
  cases hother
  exact position_lt_of_offset_lt hblock hoff

theorem crossed_of_ended (hlayout : SameLayout numSlots blocks)
    (h : Walked numSlots blocks sweep rest) (hpassed : ∀ slot ∈ rest, sweep.giver < slot.block) :
    Crossed numSlots blocks sweep rest := by
  apply crossed_of_passed hlayout h
  intro gap hgap tuple htuple
  have hlt := hpassed gap (mem_of_head? hgap)
  rcases mem_remaining.1 htuple with ⟨hblock, _⟩ | ⟨_, hblock⟩
  · omega
  · omega

/-- Gaps are eliminated exactly if no block of the group is empty and the crossing is not
missed. -/
theorem eliminateGaps_compacts_iff (numSlots : Nat) (group : List (List Slot))
    (hlayout : SameLayout numSlots (bitmaps group)) (hsorted : SortedByGaps (bitmaps group)) :
    (∃ moves, eliminateGaps (bitmaps group) = some moves ∧ Compacts numSlots group moves) ↔
      NoEmptyBlock (bitmaps group) ∧ ¬ MissesCrossing numSlots (bitmaps group) := by
  constructor
  · rintro ⟨moves, hmoves, hcompacts⟩
    have hnone := noEmptyBlock_of_some hlayout hsorted (by rw [hmoves]; rfl)
    refine ⟨hnone, fun hmisses => ?_⟩
    obtain ⟨result, hend, hresult⟩ := eliminateGaps_end hlayout hnone
    rw [hmoves] at hresult
    cases hend with
    | ended hwalked hlast hpassed =>
      obtain ⟨_, ⟨gap, hgap, rfl⟩, hafter, _⟩ := left_of_missesCrossing hlayout hmisses
        (crossed_of_ended hlayout hwalked hpassed)
      have hlt := hpassed gap hgap
      rcases hlast with ⟨_, hgiver⟩ | ⟨move, hmove, hgiver⟩
      · have := (gap_bounds hlayout (hwalked.mem_gaps hgap)).1
        omega
      · have := hafter move.source (mem_append_left _ (List.mem_map_of_mem (mem_of_getLast? hmove)))
        omega
    | met hwalked hhead hblock hoffset _ =>
      obtain ⟨block, _, hafter, hbefore⟩ := left_of_missesCrossing hlayout hmisses
        (crossed_of_met hwalked hhead hblock hoffset)
      have hlt := hbefore _ (mem_of_head? hhead)
      have hge := hafter _ (mem_append_right _ mem_cons_self)
      omega
    | strayed hstray hupward =>
      obtain ⟨sweep, rfl, rfl⟩ := map_eq_some_iff.1 hresult.symm
      exact not_compacts_of_upward hupward hcompacts
  · rintro ⟨hnone, hmisses⟩
    obtain ⟨result, hend, hresult⟩ := eliminateGaps_end hlayout hnone
    cases hend with
    | ended hwalked _ hpassed =>
      exact ⟨_, hresult, (crossed_of_ended hlayout hwalked hpassed).compacts hlayout⟩
    | met hwalked hhead hblock hoffset hmoves =>
      rw [map_some, hmoves] at hresult
      exact ⟨_, hresult, (crossed_of_met hwalked hhead hblock hoffset).compacts hlayout⟩
    | strayed hstray _ => exact absurd (missesCrossing_of_stray hlayout hstray) hmisses

/-- Blocks whose tuples can all be moved. -/
def groupOf (blocks : List Bitmap) : List (List Slot) :=
  blocks.map (List.map fun bit => ⟨bit, false, bit, bit⟩)

theorem twoBlocks_compact :
    ∃ moves, eliminateGaps [[true, true, false], [true, false, true]] = some moves ∧
      Compacts 3 (groupOf [[true, true, false], [true, false, true]]) moves := by
  apply (eliminateGaps_compacts_iff 3 (groupOf [[true, true, false], [true, false, true]])
    (by simp [SameLayout, bitmaps, groupOf, allocationBitmap])
    (by unfold SortedByGaps; decide)).2
  refine ⟨by simp [NoEmptyBlock, bitmaps, groupOf, allocationBitmap], ?_⟩
  rintro ⟨bitmap, hblock, hbehind, _⟩
  cases hblock
  exact absurd (hbehind 0 rfl) (by decide)

/-- In the one block the sweep goes on to the last gap, for which no tuple is left; of the
two blocks, the first gives its own tuple to the second. -/
theorem tuples_not_compacted :
    (SameLayout 3 [[false, true, false]] ∧ SortedByGaps [[false, true, false]] ∧
      eliminateGaps [[false, true, false]] = none) ∧
    SameLayout 2 [[true, false], [true, false]] ∧ SortedByGaps [[true, false], [true, false]] ∧
      eliminateGaps [[true, false], [true, false]] = some [⟨⟨1, 0⟩, ⟨0, 1⟩⟩, ⟨⟨0, 0⟩, ⟨1, 1⟩⟩] ∧
      (commitGroup (groupOf [[true, false], [true, false]])
        [⟨⟨1, 0⟩, ⟨0, 1⟩⟩, ⟨⟨0, 0⟩, ⟨1, 1⟩⟩]).map (·.map (·.readable)) =
          [[false, true], [false, true]] := by
  refine ⟨⟨by simp [SameLayout], by simp [SortedByGaps], by decide⟩, by simp [SameLayout], ?_,
    by decide, by decide⟩
  unfold SortedByGaps
  decide

end Terrier.Compactor
