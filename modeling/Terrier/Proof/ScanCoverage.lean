import Terrier.Storage.SlotIterator

/-!
What a sequential scan visits. The slots that were visited are always the first ones, in the
numbering block by block. Once the iterator has left the last block it stays with the null
block, so that a block that is appended then is not found any more.
-/

namespace Terrier

open List Option

namespace TableScan

variable {numSlots : Nat} {s s' : TableScan}

def slotAt (numSlots n : Nat) : ScanSlot := (some (n / numSlots), n % numSlots)

/-- The order of slots in the table. The null block has no place in it. -/
def Precedes : ScanSlot → ScanSlot → Prop
  | (some p, o), (some p', o') => p < p' ∨ p = p' ∧ o < o'
  | _, _ => False

theorem slotAt_precedes {m n : Nat} (h : m < n) :
    Precedes (slotAt numSlots m) (slotAt numSlots n) := by
  rcases (Nat.div_le_div_right h.le : m / numSlots ≤ n / numSlots).lt_or_eq with hlt | heq
  · exact .inl hlt
  · refine .inr ⟨heq, ?_⟩
    have hm := Nat.div_add_mod m numSlots
    have hn := Nat.div_add_mod n numSlots
    rw [heq] at hm
    omega

variable {position : Nat}

theorem slotAt_eq {offset : Nat} (hoffset : offset < numSlots) :
    slotAt numSlots (position * numSlots + offset) = (some position, offset) := by
  have hslots : 0 < numSlots := by omega
  rw [slotAt, Nat.mul_comm, Nat.mul_add_div hslots, Nat.mul_add_mod, Nat.div_eq_of_lt hoffset,
    Nat.mod_eq_of_lt hoffset, Nat.add_zero]

/-- No block is appended while the iterator is past the last block. -/
def appendsInTime (s : TableScan) : ScanAction → Bool
  | .append _ => s.currentSlot.1 != none
  | _ => true

/-- Where the iterator is, with the slots visited so far. In the last block it is
not past the slots that were handed out. -/
inductive Located (numSlots : Nat) (s : TableScan) : Prop
  | inBlock (position offset : Nat) (hblock : s.block = some position)
      (hslot : s.currentSlot = (some position, offset))
      (hposition : position < s.insertHeads.length) (hoffset : offset < numSlots)
      (hvisited : s.visited = (List.range (position * numSlots + offset +
        s.visiting.toNat)).map (slotAt numSlots))
      (hbehind : ∀ insertHead, position + 1 = s.insertHeads.length →
        s.insertHeads[position]? = some insertHead → offset + s.visiting.toNat ≤ insertHead)
  | pastEnd (hblock : s.block = none) (hslot : s.currentSlot = (none, 0))
      (hvisiting : s.visiting = false)
      (hvisited : s.visited = (List.range (s.insertHeads.length * numSlots)).map (slotAt numSlots))
      (hfull : endSlot numSlots s.insertHeads = (none, 0))

variable {insertHeads : List Nat}

theorem endSlot_eq_null (hlast : ∀ insertHead,
    insertHeads[insertHeads.length - 1]? = some insertHead → insertHead = numSlots) :
    endSlot numSlots insertHeads = (none, 0) := by
  unfold endSlot
  rw [getLast?_eq_getElem?]
  split
  case h_1 => rfl
  case h_2 insertHead hhead => rw [if_pos (hlast insertHead hhead)]

variable {insertHead : Nat}

theorem last_full (hnull : endSlot numSlots insertHeads = (none, 0))
    (hlast : insertHeads[insertHeads.length - 1]? = some insertHead) : insertHead = numSlots := by
  unfold endSlot at hnull
  rw [getLast?_eq_getElem?, hlast] at hnull
  by_contra hne
  simp [hne] at hnull

theorem endSlot_of_not_full (hlast : insertHeads[insertHeads.length - 1]? = some insertHead)
    (hne : insertHead ≠ numSlots) :
    endSlot numSlots insertHeads = (some (insertHeads.length - 1), insertHead) := by
  unfold endSlot
  rw [getLast?_eq_getElem?, hlast]
  simp only [hne, if_false]

structure Scans (numSlots : Nat) (insertHeads : List Nat) (s : TableScan) : Prop where
  located : Located numSlots s
  bounded : ∀ insertHead ∈ s.insertHeads, insertHead ≤ numSlots
  grown : ∀ position insertHead : Nat, insertHeads[position]? = some insertHead →
    ∃ now, s.insertHeads[position]? = some now ∧ insertHead ≤ now

variable {insertHeads : List Nat}

theorem Scans.start (hslots : 0 < numSlots)
    (hheads : ∀ insertHead ∈ insertHeads, insertHead ≤ numSlots) :
    Scans numSlots insertHeads (start insertHeads) := by
  refine ⟨?_, hheads, fun position insertHead hhead => ⟨insertHead, hhead, le_rfl⟩⟩
  by_cases hempty : insertHeads = []
  · subst hempty
    exact .pastEnd rfl rfl rfl (by simp [TableScan.start]) rfl
  · refine .inBlock 0 0 (if_neg hempty) ?_ (length_pos_iff.mpr hempty) hslots
      (by simp [TableScan.start]) fun insertHead _ _ => Nat.zero_le _
    rw [TableScan.start]
    simp only [hempty, if_false]

theorem Located.insert (h : Located numSlots s) (hhead : s.insertHeads[position]? = some insertHead)
    (hroom : insertHead < numSlots) :
    Located numSlots { s with insertHeads := s.insertHeads.set position (insertHead + 1) } := by
  cases h with
  | inBlock here offset hblock hslot hpos hoffset hvis hbehind =>
    refine .inBlock here offset hblock hslot (by simpa using hpos) hoffset hvis ?_
    intro now hlast hnow
    rw [length_set] at hlast
    rw [getElem?_set] at hnow
    split at hnow
    case isTrue heq =>
      subst heq
      rw [if_pos hpos] at hnow
      have hle := hbehind insertHead hlast hhead
      rw [← Option.some.inj hnow]
      exact hle.trans (Nat.le_succ _)
    case isFalse => exact hbehind now hlast hnow
  | pastEnd hblock hslot hvisiting hvis hfull =>
    refine .pastEnd hblock hslot hvisiting (by simpa using hvis) (endSlot_eq_null ?_)
    intro now hnow
    rw [length_set, getElem?_set] at hnow
    split at hnow
    case isTrue heq =>
      rw [heq] at hhead
      have := last_full hfull hhead
      omega
    case isFalse => exact last_full hfull hnow

theorem Located.append (h : Located numSlots s) (hslot : s.currentSlot.1 ≠ none)
    (insertHead : Nat) :
    Located numSlots { s with insertHeads := s.insertHeads ++ [insertHead] } := by
  cases h with
  | inBlock here offset hblock hcur hpos hoffset hvis hbehind =>
    refine .inBlock here offset hblock hcur ?_ hoffset hvis fun now hlast _ => ?_
    · rw [length_append]
      exact Nat.lt_add_right _ hpos
    · rw [length_append, length_singleton] at hlast
      omega
  | pastEnd hblock hcur hvisiting hvis hfull => exact absurd (by rw [hcur]) hslot

theorem Located.visit (h : Located numSlots s) (hvisiting : s.visiting = false)
    (hne : s.currentSlot ≠ endSlot numSlots s.insertHeads) :
    Located numSlots { s with visiting := true, visited := s.visited ++ [s.currentSlot] } := by
  cases h with
  | inBlock here offset hblock hcur hpos hoffset hvis hbehind =>
    rw [hvisiting] at hvis hbehind
    refine .inBlock here offset hblock hcur hpos hoffset ?_ ?_
    · simp only [hvis, hcur, Bool.toNat_false, Bool.toNat_true, Nat.add_zero,
        range_succ, map_append, map_singleton, slotAt_eq hoffset]
    · intro now hlast hnow
      have hle : offset ≤ now := hbehind now hlast hnow
      refine Nat.lt_of_le_of_ne hle fun heq => hne ?_
      -- at the insert head of the last block the iterator is at the end
      have hlength : s.insertHeads.length - 1 = here := Nat.sub_eq_of_eq_add hlast.symm
      rw [endSlot_of_not_full (hlength ▸ hnow) (by omega), hcur, hlength, heq]
  | pastEnd hblock hcur hvisiting hvis hfull => exact absurd (hcur.trans hfull.symm) hne

theorem Located.increment (h : Located numSlots s)
    (hbnd : ∀ insertHead ∈ s.insertHeads, insertHead ≤ numSlots)
    (hstep : s.step numSlots .increment = some s') : Located numSlots s' := by
  rw [TableScan.step] at hstep
  split at hstep
  case h_2 => cases hstep
  case h_1 position hvisiting hblock =>
    cases h with
    | pastEnd hnone => rw [hnone] at hblock; cases hblock
    | inBlock here offset hhere hcur hpos hoffset hvis hbehind =>
      obtain rfl : here = position := Option.some.inj (hhere.symm.trans hblock)
      rw [hvisiting] at hvis hbehind
      rw [hcur] at hstep
      split at hstep
      case isFalse hmore =>
        cases hstep
        refine .inBlock here (offset + 1) hhere rfl hpos (by omega) ?_ ?_
        · simpa [Nat.add_assoc] using hvis
        · simpa using hbehind
      case isTrue hend =>
        cases hstep
        have hcount : here * numSlots + offset + 1 = (here + 1) * numSlots := by
          rw [Nat.add_mul]
          omega
        rw [Bool.toNat_true, hcount] at hvis
        by_cases hnext : here + 1 < s.insertHeads.length
        · have hblock' : s.nextBlock here = some (here + 1) := if_pos hnext
          refine .inBlock (here + 1) 0 hblock' (by rw [hblock']) hnext (by omega) ?_
            fun _ _ _ => Nat.zero_le _
          simpa using hvis
        · have hblock' : s.nextBlock here = none := if_neg hnext
          have hlast : here + 1 = s.insertHeads.length := by omega
          refine .pastEnd hblock' (by rw [hblock']) rfl (by rw [hvis, hlast])
            (endSlot_eq_null fun now hnow => ?_)
          have hhere' : s.insertHeads[here]? = some now := by
            rw [← hnow]
            congr 1
            simp only
            omega
          have hge := hbehind now hlast hhere'
          have hle := hbnd now (mem_of_getElem? hhere')
          rw [Bool.toNat_true] at hge
          omega

theorem Scans.step (hslots : 0 < numSlots) (h : Scans numSlots insertHeads s) {action : ScanAction}
    (hallow : s.appendsInTime action = true) (hstep : s.step numSlots action = some s') :
    Scans numSlots insertHeads s' := by
  cases action with
  | insert position =>
    rw [TableScan.step] at hstep
    split at hstep
    case h_2 => cases hstep
    case h_1 insertHead hhead =>
      obtain ⟨hroom, rfl⟩ := Runs.of_guard hstep
      refine ⟨h.located.insert hhead hroom, fun now hnow => ?_, fun here old hold => ?_⟩
      · rcases mem_or_eq_of_mem_set hnow with hmem | rfl
        · exact h.bounded now hmem
        · exact hroom
      · obtain ⟨now, hnow, hle⟩ := h.grown here old hold
        simp only [getElem?_set]
        split
        case isFalse => exact ⟨now, hnow, hle⟩
        case isTrue heq =>
          subst heq
          rw [hhead] at hnow
          cases hnow
          rw [if_pos (List.getElem?_eq_some_iff.mp hhead).1]
          exact ⟨_, rfl, hle.trans (Nat.le_succ _)⟩
  | append slotTaken =>
    cases hstep
    refine ⟨h.located.append (by simpa [appendsInTime] using hallow) _, ?_,
      fun here old hold => ?_⟩
    · refine forall_mem_append.mpr ⟨h.bounded, forall_mem_singleton.mpr ?_⟩
      split <;> omega
    · obtain ⟨now, hnow, hle⟩ := h.grown here old hold
      refine ⟨now, ?_, hle⟩
      rw [← hnow]
      exact getElem?_append_left (List.getElem?_eq_some_iff.mp hnow).1
  | compare =>
    obtain ⟨hvisiting, hstep⟩ := ite_none_right_eq_some.mp hstep
    split at hstep
    case isTrue =>
      cases hstep
      exact h
    case isFalse hne =>
      cases hstep
      exact ⟨h.located.visit hvisiting hne, h.bounded, h.grown⟩
  | increment =>
    have hlocated := h.located.increment h.bounded hstep
    have hheads : s'.insertHeads = s.insertHeads := by
      rw [TableScan.step] at hstep
      split at hstep
      case h_2 => cases hstep
      case h_1 => split at hstep <;> cases hstep <;> rfl
    exact ⟨hlocated, by rw [hheads]; exact h.bounded, by rw [hheads]; exact h.grown⟩

section

variable (h : Located numSlots s)
include h

theorem Located.null_is_end (hnull : s.currentSlot.1 = none) :
    s.currentSlot = endSlot numSlots s.insertHeads := by
  cases h with
  | inBlock here offset hblock hslot => rw [hslot] at hnull; cases hnull
  | pastEnd hblock hslot hvisiting hvis hfull => rw [hslot, hfull]

theorem Located.visited_range : ∃ n, s.visited = (List.range n).map (slotAt numSlots) := by
  cases h with
  | inBlock here offset hblock hslot hpos hoffset hvis
  | pastEnd hblock hslot hvisiting hvis => exact ⟨_, hvis⟩

theorem Located.visited_sorted : s.visited.Pairwise Precedes := by
  obtain ⟨n, hvis⟩ := h.visited_range
  rw [hvis, pairwise_map]
  exact pairwise_lt_range.imp fun hlt => slotAt_precedes hlt

theorem Located.visited_ne_null {slot : ScanSlot} (hslot : slot ∈ s.visited) : slot.1 ≠ none := by
  obtain ⟨n, hvis⟩ := h.visited_range
  rw [hvis] at hslot
  obtain ⟨m, -, rfl⟩ := List.mem_map.mp hslot
  simp [slotAt]

end

/-- A slot whose number is below that of the iterator was visited. -/
theorem mem_visited {n offset : Nat} (hvis : s.visited = (List.range n).map (slotAt numSlots))
    (hoffset : offset < numSlots) (hlt : position * numSlots + offset < n) :
    (some position, offset) ∈ s.visited := by
  rw [hvis, ← slotAt_eq hoffset]
  exact List.mem_map_of_mem (mem_range.mpr hlt)

theorem Scans.covers (h : Scans numSlots insertHeads s)
    (hend : s.currentSlot = endSlot numSlots s.insertHeads) {offset : Nat}
    (hhead : insertHeads[position]? = some insertHead) (hoffset : offset < insertHead) :
    (some position, offset) ∈ s.visited := by
  obtain ⟨now, hnow, hle⟩ := h.grown position insertHead hhead
  have hlt : position < s.insertHeads.length := (List.getElem?_eq_some_iff.mp hnow).1
  have hfits : offset < numSlots :=
    (hoffset.trans_le hle).trans_le (h.bounded now (mem_of_getElem? hnow))
  have hblock : position * numSlots + offset < (position + 1) * numSlots := by
    rw [Nat.add_mul]
    omega
  cases h.located with
  | pastEnd _ hslot hvisiting hvis hfull =>
    exact mem_visited hvis hfits (hblock.trans_le (Nat.mul_le_mul_right _ (Nat.succ_le_of_lt hlt)))
  | inBlock here off _ hslot hpos hoff hvis hbehind =>
    refine mem_visited hvis hfits ?_
    have hhere : s.insertHeads.length - 1 = here ∧
        ∀ last, s.insertHeads[here]? = some last → off = last := by
      have hlen : s.insertHeads.length - 1 < s.insertHeads.length := by omega
      have hlast := getElem?_eq_getElem hlen
      by_cases hfull : s.insertHeads[s.insertHeads.length - 1] = numSlots
      · rw [hslot, endSlot_eq_null fun last hl => by
          rw [hlast] at hl; exact (Option.some.inj hl).symm.trans hfull] at hend
        cases hend
      · rw [hslot, endSlot_of_not_full hlast hfull] at hend
        obtain ⟨hhere, hoff'⟩ := Prod.mk.inj hend
        cases hhere
        refine ⟨rfl, fun last hl => ?_⟩
        rw [hlast] at hl
        exact hoff'.trans (Option.some.inj hl)
    obtain ⟨hlength, hall⟩ := hhere
    rcases (show position < here ∨ position = here by omega) with hbef | rfl
    · have hstep : (position + 1) * numSlots ≤ here * numSlots := Nat.mul_le_mul_right _ hbef
      omega
    · have := hall now hnow
      omega

/-- If no block is appended while the iterator is past the last block: the iterator denotes the
null block only at the end, the visited slots are real ones in strictly increasing order, and at
the end all slots of the start have been visited. -/
theorem scan_covers (numSlots : Nat) (hslots : 0 < numSlots) (insertHeads : List Nat)
    (hheads : ∀ insertHead ∈ insertHeads, insertHead ≤ numSlots) (actions : List ScanAction)
    (s : TableScan) (hrun : Runs.run (step numSlots) (start insertHeads) actions = some s)
    (happends : Runs.Along (step numSlots) appendsInTime (start insertHeads) actions = true) :
    (s.currentSlot.1 = none → s.currentSlot = endSlot numSlots s.insertHeads) ∧
    s.visited.Pairwise Precedes ∧ (∀ slot ∈ s.visited, slot.1 ≠ none) ∧
    (s.currentSlot = endSlot numSlots s.insertHeads → ∀ position offset insertHead : Nat,
      insertHeads[position]? = some insertHead → offset < insertHead →
        (some position, offset) ∈ s.visited) := by
  have h : Scans numSlots insertHeads s := Runs.run_keeps_along
    (fun hallowed hstep h => h.step hslots hallowed hstep) hrun happends (.start hslots hheads)
  exact ⟨h.located.null_is_end, h.located.visited_sorted, fun slot => h.located.visited_ne_null,
    fun hend position offset insertHead hhead hoffset => h.covers hend hhead hoffset⟩

/-- Two blocks, the first of them full, and an insert during the scan. -/
def scanWithInsert : List ScanAction :=
  [.compare, .increment, .compare, .insert 1, .increment, .compare, .increment, .compare,
    .increment, .compare]

theorem scan_covers_scanWithInsert : ∃ s, Runs.run (step 2) (start [2, 1]) scanWithInsert = some s ∧
      s.currentSlot = endSlot 2 s.insertHeads ∧ (some 1, 0) ∈ s.visited := by
  obtain ⟨s, hrun, hend⟩ := map_eq_some_iff.mp
    (show (Runs.run (step 2) (start [2, 1]) scanWithInsert).map
      (fun s => (s.currentSlot, endSlot 2 s.insertHeads)) = some ((none, 0), (none, 0)) by decide)
  obtain ⟨hslot, hlast⟩ := Prod.mk.inj hend
  have hequal : s.currentSlot = endSlot 2 s.insertHeads := hslot.trans hlast.symm
  exact ⟨s, hrun, hequal, (scan_covers 2 (by decide) [2, 1] (by decide) _ s hrun
    (by decide)).2.2.2 hequal 1 0 1 rfl (by decide)⟩

/-- The scan leaves the only block, which is full, and then a block is appended. -/
def appendAfterEnd : List ScanAction :=
  [.compare, .increment, .compare, .increment, .append true]

theorem null_slot_before_end :
    ∃ s, Runs.run (step 2) (start [2]) appendAfterEnd = some s ∧ s.currentSlot = (none, 0) ∧
      endSlot 2 s.insertHeads = (some 1, 1) := by
  obtain ⟨s, hrun, hend⟩ := map_eq_some_iff.mp
    (show (Runs.run (step 2) (start [2]) appendAfterEnd).map
      (fun s => (s.currentSlot, endSlot 2 s.insertHeads)) = some ((none, 0), (some 1, 1)) by decide)
  obtain ⟨hslot, hlast⟩ := Prod.mk.inj hend
  exact ⟨s, hrun, hslot, hlast⟩

end TableScan

end Terrier
