import Terrier.Proof.GapElimination
import Terrier.Storage.CompactionQueue

/-!
When a pass of the compactor ends. A block taken from the queue is popped unless it is cooling
and is refused, in which case the loop takes the same block for ever; a hot block can also lead
the elimination of gaps out of bounds.
-/

namespace Terrier.Compactor

open List Option

/-- How the inner loop ends for the only block. The tuples in `falls` were to be moved, the
tuples in `restFalls` stay, and the gaps in `restRises` are not to be filled. -/
inductive Ending (canMove : GroupSlot → Bool) (falls restRises restFalls : List Nat)
    (moves : List Move) : Option (Sweep × Option Move) → Prop
  | conflict {sweep : Sweep} {failed : Move} : (∃ offset ∈ falls, canMove ⟨0, offset⟩ = false) →
      Ending canMove falls restRises restFalls moves (some (sweep, some failed))
  | overrun : (∀ offset ∈ falls, canMove ⟨0, offset⟩ = true) → restFalls = [] → restRises ≠ [] →
      Ending canMove falls restRises restFalls moves none
  | through {sweep : Sweep} :
      (∀ offset ∈ falls, canMove ⟨0, offset⟩ = true) → restRises = [] ∨ restFalls ≠ [] →
      sweep.moves.map (·.source) = moves.map (·.source) ++ falls.map (GroupSlot.mk 0) →
      Ending canMove falls restRises restFalls moves (some (sweep, none))

theorem tryFillGaps_ending (canMove : GroupSlot → Bool) (blocks : List Bitmap)
    {gaps falling : List Nat} (hdisj : ∀ gap ∈ gaps, gap ∉ falling) (moves : List Move) :
    ∃ rises restRises falls restFalls, gaps = rises ++ restRises ∧
      falling = falls ++ restFalls ∧ List.Forall₂ (· < ·) rises falls ∧
      (∀ a ∈ restRises.head?, ∀ b ∈ restFalls.head?, b < a) ∧
      Ending canMove falls restRises restFalls moves
        (tryFillGaps canMove blocks 0 gaps ⟨0, falling.reverse, moves⟩) := by
  induction gaps generalizing falling moves with
  | nil =>
    exact ⟨[], [], [], falling, rfl, rfl, .nil, by simp, .through (by simp) (.inl rfl) (by simp)⟩
  | cons gap rest ih =>
    cases falling with
    | nil =>
      exact ⟨[], gap :: rest, [], [], rfl, rfl, .nil, by simp, .overrun (by simp) rfl (by simp)⟩
    | cons tuple others =>
      have hfill : tryFillGaps canMove blocks 0 (gap :: rest)
          ⟨0, (tuple :: others).reverse, moves⟩ =
          if tuple < gap then some (⟨0, others.reverse, moves⟩, none)
          else if canMove ⟨0, tuple⟩ then
            tryFillGaps canMove blocks 0 rest ⟨0, others.reverse, moves ++ [⟨⟨0, tuple⟩, ⟨0, gap⟩⟩]⟩
          else some (⟨0, others.reverse, moves⟩, some ⟨⟨0, tuple⟩, ⟨0, gap⟩⟩) := by
        simp [tryFillGaps, Sweep.refill, Sweep.move]
      rw [hfill]
      rcases Nat.lt_or_ge tuple gap with hlt | hge
      · rw [if_pos hlt]
        refine ⟨[], gap :: rest, [], tuple :: others, rfl, rfl, .nil, ?_,
          .through (by simp) (.inr (by simp)) (by simp)⟩
        rintro a ⟨⟩ b ⟨⟩
        exact hlt
      · have hne : gap ≠ tuple := by
          rintro rfl
          exact hdisj gap mem_cons_self mem_cons_self
        obtain ⟨rises, restRises, falls, restFalls, hgaps, hfalling, hpairs, hcross, hend⟩ :=
          ih (fun other hother hmem => hdisj other (mem_cons_of_mem _ hother)
            (mem_cons_of_mem _ hmem)) (moves ++ [⟨⟨0, tuple⟩, ⟨0, gap⟩⟩])
        refine ⟨gap :: rises, restRises, tuple :: falls, restFalls, by rw [hgaps]; rfl,
          by rw [hfalling]; rfl, .cons (by omega) hpairs, hcross, ?_⟩
        rw [if_neg (by omega)]
        cases hcan : canMove ⟨0, tuple⟩ with
        | false => exact .conflict ⟨tuple, mem_cons_self, hcan⟩
        | true =>
          generalize tryFillGaps canMove blocks 0 rest _ = result at hend ⊢
          cases hend with
          | conflict hfound =>
            obtain ⟨offset, hoff, hfalse⟩ := hfound
            exact .conflict ⟨offset, mem_cons_of_mem _ hoff, hfalse⟩
          | overrun hall hfalls hrises =>
            exact .overrun (forall_mem_cons.2 ⟨hcan, hall⟩) hfalls hrises
          | through hall hcases hsources =>
            refine .through (forall_mem_cons.2 ⟨hcan, hall⟩) hcases ?_
            rw [hsources]
            simp

/-- The giver starts behind the only block; the first gap sets it to the block. -/
theorem tryFillGaps_start (canMove : GroupSlot → Bool) (bitmap : Bitmap) (gap : Nat)
    (rest : List Nat) :
    tryFillGaps canMove [bitmap] 0 (gap :: rest) ⟨1, [], []⟩ =
      tryFillGaps canMove [bitmap] 0 (gap :: rest) ⟨0, filledSlots bitmap, []⟩ := by
  cases hfilled : filledSlots bitmap with
  | nil | cons tuple others => simp [tryFillGaps, Sweep.refill, computeFilled_eq, hfilled]

def numTuples (slots : List Slot) : Nat :=
  slots.countP (·.allocated)

def Misplaced (slots : List Slot) (offset : Nat) (slot : Slot) : Prop :=
  slots[offset]? = some slot ∧ slot.allocated = true ∧ numTuples slots ≤ offset

def Blocked (slots : List Slot) : Prop :=
  ∃ offset slot, Misplaced slots offset slot ∧ (slot.readable && slot.deletable) = false

def Overrun (slots : List Slot) : Prop :=
  (∀ offset slot, slots[offset]? = some slot → slot.allocated = true → numTuples slots ≤ offset) ∧
    ∃ offset slot, slots[offset]? = some slot ∧ slot.allocated = false ∧ numTuples slots ≤ offset

inductive HotEnd (slots : List Slot) : Option (Sweep × Option Move) → Prop
  | conflict {sweep : Sweep} {failed : Move} :
      Blocked slots → HotEnd slots (some (sweep, some failed))
  | overrun : ¬ Blocked slots → Overrun slots → HotEnd slots none
  | through {sweep : Sweep} : ¬ Blocked slots → ¬ Overrun slots →
      (∀ source, source ∈ sweep.moves.map (·.source) ↔
        source.block = 0 ∧ ∃ slot, Misplaced slots source.offset slot) →
      HotEnd slots (some (sweep, none))

variable {slots : List Slot}

theorem getElem?_allocationBitmap {offset : Nat} {bit : Bool} :
    (allocationBitmap slots)[offset]? = some bit ↔
      ∃ slot, slots[offset]? = some slot ∧ slot.allocated = bit := by
  rw [allocationBitmap, getElem?_map, map_eq_some_iff]

theorem length_filledSlots_allocationBitmap (slots : List Slot) :
    (filledSlots (allocationBitmap slots)).length = numTuples slots := by
  rw [length_filledSlots, numTuples, List.count, allocationBitmap, countP_map]
  congr 1
  funext slot
  cases h : slot.allocated <;> simp [h]

theorem tryEliminateGaps_eq (slots : List Slot) :
    tryEliminateGaps slots = tryFillGaps (canMove slots) [allocationBitmap slots] 0
      (emptySlots (allocationBitmap slots)) ⟨1, [], []⟩ := by
  rw [tryEliminateGaps, trySweepBlocks, if_pos (Nat.zero_le _), length_singleton]
  generalize tryFillGaps _ _ _ _ _ = result
  rcases result with _ | ⟨sweep, _ | failed⟩ <;> rfl

theorem emptySlots_disjoint (bitmap : Bitmap) :
    ∀ gap ∈ emptySlots bitmap, gap ∉ (filledSlots bitmap).reverse := by
  intro gap hgap hmem
  rw [mem_reverse, mem_filledSlots] at hmem
  rw [mem_emptySlots, hmem] at hgap
  cases hgap

/-- The gaps and tuples of a block, cut where the sweeps from both ends meet. -/
structure Parted (slots : List Slot) (rises restRises falls restFalls : List Nat) : Prop where
  gaps : emptySlots (allocationBitmap slots) = rises ++ restRises
  tuples : (filledSlots (allocationBitmap slots)).reverse = falls ++ restFalls
  crossed : Crossing.Crossed rises falls restRises restFalls

namespace Parted

variable {rises restRises falls restFalls : List Nat}
  (h : Parted slots rises restRises falls restFalls) {offset : Nat}
include h

theorem mem_gaps : offset ∈ rises ++ restRises ↔
    ∃ slot, slots[offset]? = some slot ∧ slot.allocated = false := by
  rw [← h.gaps, mem_emptySlots, getElem?_allocationBitmap]

theorem mem_tuples : offset ∈ falls ++ restFalls ↔
    ∃ slot, slots[offset]? = some slot ∧ slot.allocated = true := by
  rw [← h.tuples, mem_reverse, mem_filledSlots, getElem?_allocationBitmap]

theorem mem_iff_lt : offset ∈ rises ++ restRises ∨ offset ∈ falls ++ restFalls ↔
    offset < slots.length := by
  rw [h.mem_gaps, h.mem_tuples, ← not_le, ← getElem?_eq_none_iff]
  cases slots[offset]? with
  | none => simp
  | some slot => cases hslot : slot.allocated <;> simp [hslot]

theorem bounds : (offset ∈ rises ++ restFalls → offset < numTuples slots) ∧
    (offset ∈ falls ++ restRises → numTuples slots ≤ offset) := by
  have hcover : ∀ a ∈ rises ++ restFalls, ∀ b < a,
      b ∈ rises ++ restRises ∨ b ∈ falls ++ restFalls := by
    intro a ha b hlt
    have hslot : a ∈ rises ++ restRises ∨ a ∈ falls ++ restFalls := by
      simp only [mem_append] at ha ⊢
      exact ha.imp .inl .inr
    exact h.mem_iff_lt.2 (hlt.trans (h.mem_iff_lt.1 hslot))
  have hparts := h.crossed.mem_iff_lt (h.gaps ▸ h.tuples ▸ emptySlots_disjoint _) hcover offset
  rw [← h.tuples, length_reverse, length_filledSlots_allocationBitmap] at hparts
  exact ⟨hparts.1.1, hparts.2⟩

theorem mem_falls : offset ∈ falls ↔ ∃ slot, Misplaced slots offset slot := by
  constructor
  · intro hmem
    obtain ⟨slot, hslot, halloc⟩ := h.mem_tuples.1 (mem_append_left _ hmem)
    exact ⟨slot, hslot, halloc, h.bounds.2 (mem_append_left _ hmem)⟩
  · rintro ⟨slot, hslot, halloc, hge⟩
    apply (mem_append.1 (h.mem_tuples.2 ⟨slot, hslot, halloc⟩)).resolve_right
    intro hmem
    exact absurd (h.bounds.1 (mem_append_right _ hmem)) (Nat.not_lt.2 hge)

theorem blocked_iff :
    Blocked slots ↔ ∃ offset ∈ falls, canMove slots ⟨0, offset⟩ = false := by
  constructor
  · rintro ⟨offset, slot, hmisplaced, hcan⟩
    refine ⟨offset, h.mem_falls.2 ⟨slot, hmisplaced⟩, ?_⟩
    rw [canMove, hmisplaced.1]
    exact hcan
  · rintro ⟨offset, hmem, hcan⟩
    obtain ⟨slot, hmisplaced⟩ := h.mem_falls.1 hmem
    rw [canMove, hmisplaced.1] at hcan
    exact ⟨offset, slot, hmisplaced, hcan⟩

theorem overrun_iff : Overrun slots ↔ restFalls = [] ∧ restRises ≠ [] := by
  constructor
  · rintro ⟨hall, gap, slot, hslot, hfree, hge⟩
    constructor
    · apply eq_nil_iff_forall_not_mem.2
      intro offset hmem
      obtain ⟨slot, hslot, halloc⟩ := h.mem_tuples.1 (mem_append_right _ hmem)
      exact absurd (h.bounds.1 (mem_append_right _ hmem))
        (Nat.not_lt.2 (hall offset slot hslot halloc))
    · rcases mem_append.1 (h.mem_gaps.2 ⟨slot, hslot, hfree⟩) with hmem | hmem
      · exact absurd (h.bounds.1 (mem_append_left _ hmem)) (Nat.not_lt.2 hge)
      · exact ne_nil_of_mem hmem
  · rintro ⟨rfl, hrest⟩
    obtain ⟨gap, hmem⟩ := exists_mem_of_ne_nil _ hrest
    obtain ⟨slot, hslot, hfree⟩ := h.mem_gaps.1 (mem_append_right _ hmem)
    refine ⟨fun offset slot hslot halloc => ?_, gap, slot, hslot, hfree,
      h.bounds.2 (mem_append_right _ hmem)⟩
    have hmoved := h.mem_tuples.2 ⟨slot, hslot, halloc⟩
    rw [append_nil] at hmoved
    exact h.bounds.2 (mem_append_left _ hmoved)

theorem hotEnd {result : Option (Sweep × Option Move)}
    (hend : Ending (canMove slots) falls restRises restFalls [] result) :
    HotEnd slots result := by
  have hfree (hall : ∀ offset ∈ falls, canMove slots ⟨0, offset⟩ = true) : ¬ Blocked slots := by
    rw [h.blocked_iff]
    rintro ⟨offset, hmem, hcan⟩
    rw [hall offset hmem] at hcan
    cases hcan
  cases hend with
  | conflict hfound => exact .conflict (h.blocked_iff.2 hfound)
  | overrun hall hnil hrest => exact .overrun (hfree hall) (h.overrun_iff.2 ⟨hnil, hrest⟩)
  | through hall hcases hsources =>
    refine .through (hfree hall) (fun hoverrun => ?_) fun source => ?_
    · obtain ⟨hnil, hrest⟩ := h.overrun_iff.1 hoverrun
      exact hcases.elim hrest fun hne => hne hnil
    · rw [← h.mem_falls, hsources]
      obtain ⟨block, offset⟩ := source
      simp [and_comm, eq_comm]

end Parted

theorem tryEliminateGaps_end (slots : List Slot) : HotEnd slots (tryEliminateGaps slots) := by
  let bitmap := allocationBitmap slots
  obtain ⟨rises, restRises, falls, restFalls, hgaps, hfalling, hpairs, hcross, hend⟩ :=
    tryFillGaps_ending (canMove slots) [bitmap] (emptySlots_disjoint bitmap) []
  have hparted : Parted slots rises restRises falls restFalls := by
    refine ⟨hgaps, hfalling, hgaps ▸ emptySlots_pairwise bitmap, ?_, hpairs, hcross⟩
    rw [← hfalling]
    exact pairwise_reverse.2 (filledSlots_pairwise bitmap)
  rw [tryEliminateGaps_eq]
  rw [reverse_reverse] at hend
  cases hempty : emptySlots (allocationBitmap slots) with
  | nil =>
    rw [hempty] at hend
    cases hend with
    | through hall hcases hsources => exact hparted.hotEnd (.through hall hcases hsources)
  | cons gap rest =>
    rw [tryFillGaps_start, ← hempty]
    exact hparted.hotEnd hend

def Settled (slots : List Slot) : Prop :=
  ∃ kept rest, slots = kept ++ rest ∧
    (∀ slot ∈ kept, slot.allocated = true ∧ slot.versioned = false) ∧
    ∀ slot ∈ rest, slot.allocated = false

theorem checkSlots_started_iff {offset numRecords n : Nat} :
    checkSlots slots offset numRecords true = some n ↔
      n = numRecords ∧ ∀ slot ∈ slots, slot.allocated = false := by
  induction slots generalizing offset with
  | nil =>
    rw [checkSlots, some_inj, eq_comm]
    simp
  | cons slot rest ih =>
    cases halloc : slot.allocated with
    | false => simp [checkSlots, halloc, ih]
    | true => simp [checkSlots, halloc]

theorem checkSlots_iff {offset numRecords n : Nat} :
    checkSlots slots offset numRecords false = some n ↔ ∃ kept rest, slots = kept ++ rest ∧
        (∀ slot ∈ kept, slot.allocated = true ∧ slot.versioned = false) ∧
        (∀ slot ∈ rest, slot.allocated = false) ∧
        n = if rest = [] then numRecords else offset + kept.length := by
  induction slots generalizing offset with
  | nil =>
    rw [checkSlots, some_inj, eq_comm]
    simp
  | cons slot rest ih =>
    cases halloc : slot.allocated with
    | false =>
      have hcheck : checkSlots (slot :: rest) offset numRecords false =
          checkSlots rest (offset + 1) offset true := by simp [checkSlots, halloc]
      rw [hcheck, checkSlots_started_iff]
      constructor
      · rintro ⟨rfl, hall⟩
        exact ⟨[], slot :: rest, rfl, by simp, forall_mem_cons.2 ⟨halloc, hall⟩, by simp⟩
      · rintro ⟨kept, others, hslots, hkept, hoth, hn⟩
        cases kept with
        | nil =>
          subst hslots
          exact ⟨by simpa using hn, fun other hmem => hoth other (.tail _ hmem)⟩
        | cons first kept =>
          cases hslots
          rw [(hkept slot mem_cons_self).1] at halloc
          cases halloc
    | true =>
      have hcheck : checkSlots (slot :: rest) offset numRecords false =
          if slot.versioned then none else checkSlots rest (offset + 1) numRecords false := by
        simp [checkSlots, halloc]
      rw [hcheck]
      constructor
      · intro h
        obtain ⟨hversioned, h⟩ := ite_none_left_eq_some.mp h
        obtain ⟨kept, others, rfl, hkept, hoth, hn⟩ := ih.1 h
        refine ⟨slot :: kept, others, rfl, ?_, hoth, ?_⟩
        · exact forall_mem_cons.2 ⟨⟨halloc, by simpa using hversioned⟩, hkept⟩
        · rw [hn, length_cons, Nat.add_right_comm, Nat.add_assoc]
      · rintro ⟨kept, others, hslots, hkept, hoth, hn⟩
        cases kept with
        | nil =>
          subst hslots
          rw [hoth slot mem_cons_self] at halloc
          cases halloc
        | cons first kept =>
          cases hslots
          rw [(hkept slot mem_cons_self).2, if_neg (by simp), ih]
          refine ⟨kept, others, rfl, fun other hmem => hkept other (.tail _ hmem), hoth, ?_⟩
          rw [hn, length_cons, Nat.add_right_comm, Nat.add_assoc]

/-- The check succeeds with the number of tuples exactly if the block is settled. -/
theorem checkForVersionsAndGaps_iff {n : Nat} : checkForVersionsAndGaps slots = some n ↔
      ∃ kept rest, slots = kept ++ rest ∧
        (∀ slot ∈ kept, slot.allocated = true ∧ slot.versioned = false) ∧
        (∀ slot ∈ rest, slot.allocated = false) ∧ n = kept.length := by
  rw [checkForVersionsAndGaps, checkSlots_iff]
  constructor
  · rintro ⟨kept, rest, rfl, hkept, hrest, hn⟩
    refine ⟨kept, rest, rfl, hkept, hrest, ?_⟩
    cases rest with
    | nil | cons => simpa using hn
  · rintro ⟨kept, rest, rfl, hkept, hrest, rfl⟩
    refine ⟨kept, rest, rfl, hkept, hrest, ?_⟩
    cases rest with
    | nil => simp
    | cons => simp

theorem numTuples_append {kept rest : List Slot}
    (hkept : ∀ slot ∈ kept, slot.allocated = true ∧ slot.versioned = false)
    (hrest : ∀ slot ∈ rest, slot.allocated = false) : numTuples (kept ++ rest) = kept.length := by
  rw [numTuples, countP_append, countP_eq_length.2 fun slot hmem => (hkept slot hmem).1,
    countP_eq_zero.2 fun slot hmem => by simp [hrest slot hmem], Nat.add_zero]

theorem lt_length_of_allocated {kept rest : List Slot}
    (hrest : ∀ slot ∈ rest, slot.allocated = false) {offset : Nat} {slot : Slot}
    (hslot : (kept ++ rest)[offset]? = some slot) (halloc : slot.allocated = true) :
    offset < kept.length := by
  by_contra hge
  rw [getElem?_append_right (Nat.le_of_not_lt hge)] at hslot
  rw [hrest slot (mem_of_getElem? hslot)] at halloc
  cases halloc

theorem not_misplaced_of_settled (h : Settled slots) {offset : Nat} {slot : Slot} :
    ¬ Misplaced slots offset slot := by
  obtain ⟨kept, rest, rfl, hkept, hrest⟩ := h
  rintro ⟨hslot, halloc, hge⟩
  rw [numTuples_append hkept hrest] at hge
  have := lt_length_of_allocated hrest hslot halloc
  omega

theorem commitMoves_nil (slots : List Slot) : commitMoves 0 slots [] = slots := by
  apply ext_getElem?
  simp [commitMoves, getElem?_mapIdx]

/-- A moved tuple leaves a version behind. -/
theorem not_settled_commitMoves {moves : List Move} {move : Move} {slot : Slot}
    (hmove : move ∈ moves) (hblock : move.source.block = 0)
    (hslot : slots[move.source.offset]? = some slot) (halloc : slot.allocated = true) :
    ¬ Settled (commitMoves 0 slots moves) := by
  rintro ⟨kept, rest, hsplit, hkept, hrest⟩
  obtain ⟨left, hleft, hset⟩ : ∃ left,
      (commitMoves 0 slots moves)[move.source.offset]? = some left ∧
        left.allocated = true ∧ left.versioned = true := by
    rw [commitMoves, getElem?_mapIdx, hslot, map_some]
    refine ⟨_, rfl, ?_⟩
    split_ifs with htarget hsrc
    · exact ⟨rfl, rfl⟩
    · exact ⟨halloc, rfl⟩
    · exact absurd (List.any_eq_true.2 ⟨move, hmove, by simp [← hblock]⟩) hsrc
  have hmem := mem_of_getElem? hleft
  rw [hsplit] at hmem
  rcases mem_append.1 hmem with hmem | hmem
  · have := (hkept left hmem).2
    rw [hset.2] at this
    cases this
  · have := hrest left hmem
    rw [hset.1] at this
    cases this

/-- The slots of a block taken back to what they were, versions apart. -/
theorem getElem?_abortMoves {moves : List Move} {failed : Move} {offset : Nat} {slot : Slot}
    (h : slots[offset]? = some slot) :
    ∃ versioned, (abortMoves slots moves failed)[offset]? = some { slot with versioned } := by
  rw [abortMoves, getElem?_mapIdx, h, map_some]
  split_ifs
  · exact ⟨true, rfl⟩
  · exact ⟨slot.versioned, rfl⟩

theorem numTuples_abortMoves (slots : List Slot) (moves : List Move) (failed : Move) :
    numTuples (abortMoves slots moves failed) = numTuples slots := by
  have hmap : (abortMoves slots moves failed).map (·.allocated) = slots.map (·.allocated) := by
    apply ext_getElem?
    intro offset
    rw [getElem?_map, getElem?_map]
    cases h : slots[offset]? with
    | none => simp [abortMoves, getElem?_mapIdx, h]
    | some slot =>
      obtain ⟨versioned, hslot⟩ := @getElem?_abortMoves slots moves failed offset slot h
      rw [hslot]
      rfl
  have hcount : ∀ slots : List Slot, numTuples slots = (slots.map (·.allocated)).countP id := by
    intro slots
    rw [countP_map]
    rfl
  rw [hcount, hcount, hmap]

theorem blocked_abortMoves (h : Blocked slots) (moves : List Move) (failed : Move) :
    Blocked (abortMoves slots moves failed) := by
  obtain ⟨offset, slot, ⟨hslot, halloc, hge⟩, hcan⟩ := h
  obtain ⟨versioned, hslot'⟩ := @getElem?_abortMoves slots moves failed offset slot hslot
  refine ⟨offset, _, ⟨hslot', halloc, ?_⟩, hcan⟩
  rw [numTuples_abortMoves]
  exact hge

/-- What a block must be like for all of its turns in a pass to end. -/
def Served (block : Block) (times : Nat) : Prop :=
  match block.state with
  | .hot => Blocked block.slots ∨ ¬ Overrun block.slots ∧
      (1 < times → Settled block.slots ∧ gathers block.varlens = true)
  | .cooling => Settled block.slots ∧ gathers block.varlens = true
  | .freezing => False
  | .frozen => True

theorem settled_commitMoves_iff {sweep : Sweep}
    (hsources : ∀ source, source ∈ sweep.moves.map (·.source) ↔
      source.block = 0 ∧ ∃ slot, Misplaced slots source.offset slot) :
    Settled (commitMoves 0 slots sweep.moves) ↔ Settled slots := by
  cases hmoves : sweep.moves with
  | nil => rw [commitMoves_nil]
  | cons move moves =>
    obtain ⟨hblock, slot, hmisplaced⟩ := (hsources move.source).1 (by simp [hmoves])
    constructor
    · intro hsettle
      exact absurd hsettle (not_settled_commitMoves mem_cons_self hblock hmisplaced.1
        hmisplaced.2.1)
    · intro hsettle
      exact absurd hmisplaced (not_misplaced_of_settled hsettle)

theorem turn_cooling {block : Block} (hstate : block.state = .cooling) {next : Block} :
    turn block = .popped next ↔ (Settled block.slots ∧ gathers block.varlens = true) ∧
        next = { block with state := .frozen } := by
  have hcheck : (∃ n, checkForVersionsAndGaps block.slots = some n) ↔ Settled block.slots := by
    simp only [checkForVersionsAndGaps_iff]
    constructor
    · rintro ⟨n, kept, rest, hslots, hkept, hrest, _⟩
      exact ⟨kept, rest, hslots, hkept, hrest⟩
    · rintro ⟨kept, rest, hslots, hkept, hrest⟩
      exact ⟨kept.length, kept, rest, hslots, hkept, hrest, rfl⟩
  rw [turn, hstate, ← hcheck]
  cases checkForVersionsAndGaps block.slots with
  | none => simp
  | some n =>
    cases gathers block.varlens with
    | false => simp
    | true => simp [eq_comm]

theorem served_succ_iff (block : Block) (times : Nat) : Served block (times + 1) ↔
      ∃ next, turn block = .popped next ∧ (0 < times → Served next times) := by
  cases hstate : block.state with
  | hot =>
    have hserve : Served block (times + 1) ↔ Blocked block.slots ∨ ¬ Overrun block.slots ∧
        (0 < times → Settled block.slots ∧ gathers block.varlens = true) := by
      rw [Served, hstate, Nat.lt_add_left_iff_pos]
    rw [hserve, turn, hstate]
    have hend := tryEliminateGaps_end block.slots
    generalize tryEliminateGaps block.slots = result at hend ⊢
    cases hend with
    | conflict hblock =>
      refine iff_of_true (.inl hblock) ⟨_, rfl, fun _ => ?_⟩
      exact .inl (blocked_abortMoves hblock _ _)
    | overrun hfree hoverrun =>
      apply iff_of_false
      · rintro (hblock | ⟨hnot, _⟩)
        · exact hfree hblock
        · exact hnot hoverrun
      · rintro ⟨next, hnext, _⟩
        cases hnext
    | through hfree hnot hsources =>
      have hsettle := settled_commitMoves_iff hsources
      constructor
      · rintro (hblock | ⟨_, hlater⟩)
        · exact absurd hblock hfree
        · refine ⟨_, rfl, fun hpos => ?_⟩
          exact ⟨hsettle.2 (hlater hpos).1, (hlater hpos).2⟩
      · rintro ⟨next, hnext, hlater⟩
        cases hnext
        refine .inr ⟨hnot, fun hpos => ?_⟩
        obtain ⟨hleft, hgathers⟩ := hlater hpos
        exact ⟨hsettle.1 hleft, hgathers⟩
  | cooling =>
    simp only [turn_cooling hstate]
    rw [Served, hstate]
    constructor
    · intro h
      exact ⟨_, ⟨h, rfl⟩, fun _ => trivial⟩
    · rintro ⟨_, ⟨h, _⟩, _⟩
      exact h
  | freezing =>
    rw [Served, turn, hstate]
    simp
  | frozen =>
    rw [Served, turn, hstate]
    refine iff_of_true trivial ⟨block, rfl, fun _ => ?_⟩
    rw [Served, hstate]
    trivial

theorem processCompactionQueue_again {blocks : Nat → Block} {id : Nat}
    (h : turn (blocks id) = .again) (rest handled : List Nat) (fuel : Nat) :
    processCompactionQueue fuel ⟨id :: rest, blocks, handled⟩ = none := by
  induction fuel with
  | zero => rfl
  | succ fuel ih => rw [processCompactionQueue, h, ih]

def Finishes (blocks : Nat → Block) (queue handled : List Nat) : Prop :=
  ∃ fuel pass, processCompactionQueue fuel ⟨queue, blocks, handled⟩ = some pass ∧
    pass.handled = handled ++ queue

theorem finishes_cons_iff {blocks : Nat → Block} {id : Nat} {rest handled : List Nat} :
    Finishes blocks (id :: rest) handled ↔ ∃ next, turn (blocks id) = .popped next ∧
        Finishes (Function.update blocks id next) rest (handled ++ [id]) := by
  constructor
  · rintro ⟨fuel, pass, hpass, hhandled⟩
    cases fuel with
    | zero => cases hpass
    | succ fuel =>
      cases hturn : turn (blocks id) with
      | popped next =>
        rw [processCompactionQueue, hturn] at hpass
        refine ⟨next, rfl, fuel, pass, hpass, ?_⟩
        rw [hhandled, append_assoc, singleton_append]
      | again =>
        rw [processCompactionQueue_again hturn] at hpass
        cases hpass
      | undefined =>
        rw [processCompactionQueue, hturn] at hpass
        cases hpass
  · rintro ⟨next, hturn, fuel, pass, hpass, hhandled⟩
    refine ⟨fuel + 1, pass, ?_, ?_⟩
    · rw [processCompactionQueue, hturn]
      exact hpass
    · rw [hhandled, append_assoc, singleton_append]

theorem finishes_iff (blocks : Nat → Block) (queue handled : List Nat) :
    Finishes blocks queue handled ↔ ∀ id ∈ queue, Served (blocks id) (queue.count id) := by
  induction queue generalizing blocks handled with
  | nil =>
    refine iff_of_true ⟨0, _, rfl, ?_⟩ (by simp)
    rw [append_nil]
  | cons id rest ih =>
    simp only [finishes_cons_iff, ih]
    constructor
    · rintro ⟨next, hturn, hrest⟩
      have hfirst : Served (blocks id) ((id :: rest).count id) := by
        rw [count_cons_self, served_succ_iff]
        refine ⟨next, hturn, fun hpos => ?_⟩
        have := hrest id (count_pos_iff.1 hpos)
        rwa [Function.update_self] at this
      refine forall_mem_cons.2 ⟨hfirst, fun other hother => ?_⟩
      rcases eq_or_ne other id with rfl | hne
      · exact hfirst
      · have := hrest other hother
        rw [Function.update_of_ne hne] at this
        rwa [count_cons_of_ne hne.symm]
    · intro hserve
      obtain ⟨hfirst, hrest⟩ := forall_mem_cons.1 hserve
      rw [count_cons_self, served_succ_iff] at hfirst
      obtain ⟨next, hturn, hlater⟩ := hfirst
      refine ⟨next, hturn, fun other hother => ?_⟩
      rcases eq_or_ne other id with rfl | hne
      · rw [Function.update_self]
        exact hlater (count_pos_iff.2 hother)
      · have := hrest other hother
        rw [count_cons_of_ne hne.symm] at this
        rwa [Function.update_of_ne hne]

end Terrier.Compactor
