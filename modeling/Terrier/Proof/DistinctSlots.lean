import Terrier.Storage.ConcurrentInsert

/-!
Inserters that do not take each other's marks get distinct slots. A ledger says for each block how
many slots were handed out, who has marked it and who made it. Only these hand out its slots. An
inserter that published its block without a mark clears the first bit all the same.
-/

namespace Terrier

open List Option Function SharedBlock

/-- A value of `insert_head_`. -/
def headWord (busy : Bool) (n : Nat) : UInt32 := UInt32.ofNat (n + if busy then 2 ^ 31 else 0)

section HeadWord

variable {n n' : Nat}

theorem headWord_toNat (busy : Bool) (hn : n < 2 ^ 31) :
    (headWord busy n).toNat = n + if busy then 2 ^ 31 else 0 := by
  rw [headWord, UInt32.toNat_ofNat']
  apply Nat.mod_eq_of_lt
  split <;> omega

theorem clearBit_headWord (busy : Bool) (hn : n < 2 ^ 31) :
    clearBit (headWord busy n) = headWord false n := by
  rw [← UInt32.toNat_inj, headWord_toNat false hn, clearBit, UInt32.toNat_and,
    headWord_toNat busy hn, show (0x7FFFFFFF : UInt32).toNat = 2 ^ 31 - 1 from rfl,
    Nat.and_two_pow_sub_one_eq_mod]
  split <;> simp <;> omega

theorem setBit_headWord (hn : n < 2 ^ 31) : setBit (headWord false n) = headWord true n := by
  have hor := Nat.two_pow_add_eq_or_of_lt hn 1
  rw [Nat.mul_one] at hor
  rw [← UInt32.toNat_inj, headWord_toNat true hn, setBit, UInt32.toNat_or, headWord_toNat false hn,
    show (0x80000000 : UInt32).toNat = 2 ^ 31 from rfl, Nat.or_comm]
  simp only [Bool.false_eq_true, if_false, if_true, Nat.add_zero]
  omega

theorem headWord_succ (busy : Bool) (n : Nat) : headWord busy n + 1 = headWord busy (n + 1) := by
  rw [headWord, headWord, Nat.add_right_comm n 1, UInt32.ofNat_add _ 1]
  rfl

theorem headWord_inj {busy busy' : Bool} (hn : n < 2 ^ 31) (hn' : n' < 2 ^ 31)
    (h : headWord busy n = headWord busy' n') : busy = busy' ∧ n = n' := by
  have heq := congrArg UInt32.toNat h
  rw [headWord_toNat busy hn, headWord_toNat busy' hn'] at heq
  cases busy <;> cases busy' <;> simp at heq ⊢ <;> omega

theorem getInsertHead_eq (block : SharedBlock) : block.getInsertHead = clearBit block.insertHead :=
  UInt32.and_comm _ _

end HeadWord

def Target.IsExclusive (target : Target) : Prop := target.marked = true ∨ target.position = none

structure Ledger where
  count : Nat → Nat
  owner : Nat → Option Nat
  creator : Nat → Option Nat

namespace InsertPhase

def slot? : InsertPhase → Option (Nat × Nat)
  | pushBack target start => some (target.block, start.toNat)
  | loadHead _ (.allocated slot) => some slot
  | clearBusy _ (.allocated slot) _ => some slot
  | returned slot => some slot
  | _ => none

/-- The inserter is between its `SetBlockBusyStatus` on a block, which succeeded,
and its `ClearBlockBusyStatus`. -/
def Marks (b : Nat) : InsertPhase → Prop
  | readHead target => target.block = b ∧ target.marked = true
  | flip target _ => target.block = b ∧ target.marked = true
  | increment target _ => target.block = b ∧ target.marked = true
  | pushBack target _ => target.block = b ∧ target.marked = true
  | loadHead target _ => target.block = b ∧ target.marked = true
  | clearBusy target _ _ => target.block = b ∧ target.marked = true
  | _ => False

end InsertPhase

namespace InsertState

variable {numSlots : Nat} {ledger ledger' : Ledger} {s s' : InsertState} {i j : Nat}

structure Holds (ledger : Ledger) (s : InsertState) (i : Nat) (target : Target) : Prop where
  lt : target.block < s.numBlocks
  owns : target.marked = true → ledger.owner target.block = some i
  listed : target.position = none ↔ target.block ∉ s.blocks
  made : target.position = none → ledger.creator target.block = some i

variable {t : Target}

/-- Two inserters that may hand out a slot of one block are the same. -/
theorem Holds.unique {t' : Target} (h : Holds ledger s i t) (h' : Holds ledger s j t')
    (ht : t.IsExclusive) (ht' : t'.IsExclusive) (hblock : t.block = t'.block) : i = j := by
  have hposition : t.position = none ↔ t'.position = none := by
    rw [h.listed, h'.listed, hblock]
  by_cases hhidden : t.position = none
  · have hmade := h.made hhidden
    rw [hblock, h'.made (hposition.mp hhidden)] at hmade
    exact (Option.some.inj hmade).symm
  · have hmine := h.owns (ht.resolve_right hhidden)
    rw [hblock, h'.owns (ht'.resolve_right fun hnone => hhidden (hposition.mpr hnone))] at hmine
    exact (Option.some.inj hmine).symm

def OutcomeOk (ledger : Ledger) : Outcome → Prop
  | .full _ => True
  | .allocated slot => slot.2 < ledger.count slot.1

def PhaseOk (numSlots : Nat) (ledger : Ledger) (s : InsertState) (i : Nat) : InsertPhase → Prop
  | .started => True
  | .atBlock _ => True
  | .setBusy b _ oldVal => b ∈ s.blocks ∧ clearBit oldVal = oldVal
  | .readHead t => Holds ledger s i t ∧ t.IsExclusive
  | .flip t start => (Holds ledger s i t ∧ t.IsExclusive) ∧
      start.toNat = ledger.count t.block ∧ ledger.count t.block < numSlots
  | .increment t start => (Holds ledger s i t ∧ t.IsExclusive) ∧
      start.toNat = ledger.count t.block ∧ ledger.count t.block < numSlots
  | .pushBack t start => Holds ledger s i t ∧ t.position = none ∧ start.toNat < ledger.count t.block
  | .loadHead t outcome => Holds ledger s i t ∧ OutcomeOk ledger outcome
  | .clearBusy t outcome val => Holds ledger s i t ∧ OutcomeOk ledger outcome ∧
      (t.marked = true → (s.block t.block).insertHead = val)
  | .moveHead _ => True
  | .advance _ => True
  | .returned slot => slot.2 < ledger.count slot.1

structure Accounts (numSlots : Nat) (ledger : Ledger) (s : InsertState) : Prop where
  head : ∀ b < s.numBlocks,
    (s.block b).insertHead = headWord (ledger.owner b).isSome (ledger.count b)
  count_le : ∀ b, ledger.count b ≤ numSlots
  fresh : ∀ b, s.numBlocks ≤ b → ledger.count b = 0 ∧ ledger.owner b = none
  listed_lt : ∀ b ∈ s.blocks, b < s.numBlocks
  bits : ∀ b pos, (s.block b).allocated pos = true → pos < ledger.count b ∨
    pos = ledger.count b ∧ ∃ i t start, s.phase i = .increment t start ∧ t.block = b
  phases : ∀ i, PhaseOk numSlots ledger s i (s.phase i)
  distinct : ∀ i j slot, (s.phase i).slot? = some slot → (s.phase j).slot? = some slot → i = j
  flips : ∀ flipRes ∈ s.flips, flipRes = true

theorem Accounts.init (numSlots : Nat) :
    Accounts numSlots ⟨fun _ => 0, fun _ => none, fun _ => none⟩ init where
  head := fun b hb => rfl
  count_le := fun b => Nat.zero_le _
  fresh := fun b hb => ⟨rfl, rfl⟩
  listed_lt := by
    intro b hb
    rw [mem_singleton.mp hb]
    exact Nat.one_pos
  bits := by
    intro b pos hbit
    cases hbit
  phases := fun i => trivial
  distinct := by
    intro i j slot hslot
    cases hslot
  flips := by simp [InsertState.init]

def Leaves (ledger ledger' : Ledger) (s s' : InsertState) (j : Nat) : Prop :=
  ∀ t, Holds ledger s j t → Holds ledger' s' j t ∧
    (t.marked = true → (s'.block t.block).insertHead = (s.block t.block).insertHead) ∧
    (t.IsExclusive → ledger'.count t.block = ledger.count t.block)

variable {outcome : Outcome}

theorem OutcomeOk.mono (h : OutcomeOk ledger outcome)
    (hcount : ∀ b, ledger.count b ≤ ledger'.count b) : OutcomeOk ledger' outcome := by
  cases outcome with
  | full position => trivial
  | allocated slot => exact lt_of_lt_of_le h (hcount slot.1)

variable {phase : InsertPhase}

theorem PhaseOk.leaves (h : PhaseOk numSlots ledger s j phase)
    (hcount : ∀ b, ledger.count b ≤ ledger'.count b) (hlisted : ∀ b ∈ s.blocks, b ∈ s'.blocks)
    (hleaves : Leaves ledger ledger' s s' j) : PhaseOk numSlots ledger' s' j phase := by
  cases phase with
  | started | atBlock position | moveHead position | advance position => trivial
  | setBusy b position oldVal => exact ⟨hlisted b h.1, h.2⟩
  | readHead t => exact ⟨(hleaves t h.1).1, h.2⟩
  | flip t start | increment t start =>
    obtain ⟨⟨hholds, hexcl⟩, hstart, hlt⟩ := h
    obtain ⟨hholds', -, hsame⟩ := hleaves t hholds
    refine ⟨⟨hholds', hexcl⟩, ?_⟩
    rw [hsame hexcl]
    exact ⟨hstart, hlt⟩
  | pushBack t start =>
    exact ⟨(hleaves t h.1).1, h.2.1, lt_of_lt_of_le h.2.2 (hcount t.block)⟩
  | loadHead t outcome => exact ⟨(hleaves t h.1).1, h.2.mono hcount⟩
  | clearBusy t outcome val =>
    obtain ⟨hholds', hhead, -⟩ := hleaves t h.1
    exact ⟨hholds', h.2.1.mono hcount, fun hmark => (hhead hmark).trans (h.2.2 hmark)⟩
  | returned slot => exact lt_of_lt_of_le h (hcount slot.1)

theorem PhaseOk.slot_lt {slot : Nat × Nat} (h : PhaseOk numSlots ledger s i phase)
    (hslot : phase.slot? = some slot) : slot.2 < ledger.count slot.1 := by
  cases phase with
  | pushBack t start =>
    cases hslot
    exact h.2.2
  | loadHead t outcome =>
    cases outcome with
    | full position => cases hslot
    | allocated found =>
      cases hslot
      exact h.2
  | clearBusy t outcome val =>
    cases outcome with
    | full position => cases hslot
    | allocated found =>
      cases hslot
      exact h.2.1
  | returned found =>
    cases hslot
    exact h
  | _ => cases hslot

/-- Writing the head of a block leaves the bits. -/
theorem allocated_setInsertHead (s : InsertState) (b : Nat) (val : UInt32) (b' : Nat) :
    (Function.update s.block b ((s.block b).setInsertHead val) b').allocated =
      (s.block b').allocated := by
  by_cases heq : b' = b
  · subst heq
    rw [update_self]
    rfl
  · rw [update_of_ne heq]

section Steps

variable (h : Accounts numSlots ledger s)
include h

theorem Accounts.of_step (hphases : s'.phase = Function.update s.phase i phase)
    (hcount : ∀ b, ledger.count b ≤ ledger'.count b)
    (hlisted : ∀ b ∈ s.blocks, b ∈ s'.blocks)
    (hleaves : ∀ j ≠ i, Leaves ledger ledger' s s' j)
    (hhead : ∀ b < s'.numBlocks,
      (s'.block b).insertHead = headWord (ledger'.owner b).isSome (ledger'.count b))
    (hle : ∀ b, ledger'.count b ≤ numSlots)
    (hfresh : ∀ b, s'.numBlocks ≤ b → ledger'.count b = 0 ∧ ledger'.owner b = none)
    (hlt : ∀ b ∈ s'.blocks, b < s'.numBlocks)
    (hbits : ∀ b pos, (s'.block b).allocated pos = true → pos < ledger'.count b ∨
      pos = ledger'.count b ∧ ∃ i t start, s'.phase i = .increment t start ∧ t.block = b)
    (hphase : PhaseOk numSlots ledger' s' i phase)
    (hslot : ∀ slot, phase.slot? = some slot → ∀ j ≠ i, (s.phase j).slot? ≠ some slot)
    (hflips : ∀ flipRes ∈ s'.flips, flipRes = true) : Accounts numSlots ledger' s' where
  head := hhead
  count_le := hle
  fresh := hfresh
  listed_lt := hlt
  bits := hbits
  phases := by
    intro j
    rw [hphases]
    by_cases hj : j = i
    · rw [hj, update_self]
      exact hphase
    · rw [update_of_ne hj]
      exact (h.phases j).leaves hcount hlisted (hleaves j hj)
  distinct := by
    intro j k slot hj hk
    rw [hphases] at hj hk
    by_cases hji : j = i
    · by_cases hki : k = i
      · rw [hji, hki]
      · rw [hji, update_self] at hj
        rw [update_of_ne hki] at hk
        exact absurd hk (hslot slot hj k hki)
    · rw [update_of_ne hji] at hj
      by_cases hki : k = i
      · rw [hki, update_self] at hk
        exact absurd hj (hslot slot hk j hji)
      · rw [update_of_ne hki] at hk
        exact h.distinct j k slot hj hk
  flips := hflips

theorem Accounts.ready (hi : s.phase i = phase) : PhaseOk numSlots ledger s i phase :=
  hi ▸ h.phases i

variable {b position : Nat} {val start : UInt32}

/-- Bits that were set before a step, unless the inserter increments the block. -/
theorem Accounts.bits_of_step (hphases : s'.phase = Function.update s.phase i phase) {pos : Nat}
    (hnot : ∀ t start, s.phase i = .increment t start → t.block ≠ b)
    (hbit : (s.block b).allocated pos = true) : pos < ledger.count b ∨
      pos = ledger.count b ∧ ∃ i t start, s'.phase i = .increment t start ∧ t.block = b := by
  refine (h.bits b pos hbit).imp_right fun ⟨hpos, j, t, start, hj, hblock⟩ =>
    ⟨hpos, j, t, start, ?_, hblock⟩
  have hji : j ≠ i := by
    rintro rfl
    exact hnot t start hj hblock
  rw [hphases, update_of_ne hji, hj]

theorem Accounts.setPhase (hnot : ∀ t start, s.phase i ≠ .increment t start)
    (hphase : PhaseOk numSlots ledger s i phase)
    (hslot : phase.slot? = none ∨ phase.slot? = (s.phase i).slot?) :
    Accounts numSlots ledger (s.setPhase i phase) := by
  have hleaves (j : Nat) : Leaves ledger ledger s (s.setPhase i phase) j := fun t ht =>
    ⟨⟨ht.lt, ht.owns, ht.listed, ht.made⟩, fun _ => rfl, fun _ => rfl⟩
  refine h.of_step rfl (fun b => le_rfl) (fun b hb => hb) (fun j _ => hleaves j) h.head h.count_le
    h.fresh h.listed_lt
    (fun b pos hbit => h.bits_of_step rfl (fun t start hi => absurd hi (hnot t start)) hbit)
    (hphase.leaves (fun b => le_rfl) (fun b hb => hb) (hleaves i)) ?_ h.flips
  intro slot hnew j hj hold
  rcases hslot with hnone | hsame
  · rw [hnone] at hnew
    cases hnew
  · rw [hsame] at hnew
    exact hj (h.distinct j i slot hold hnew)

theorem Accounts.addBlock {owner creator : Option Nat} {block : SharedBlock} {blocks : List Nat}
    {insertionHead : Nat}
    (hledger : ledger' = { ledger with
      owner := Function.update ledger.owner s.numBlocks owner
      creator := Function.update ledger.creator s.numBlocks creator })
    (hs' : s' = { s.newBlock block with
      blocks, insertionHead, phase := Function.update s.phase i phase })
    (hnot : ∀ t start, s.phase i ≠ .increment t start)
    (hhead : block.insertHead = headWord owner.isSome 0)
    (hunset : ∀ pos, block.allocated pos = false) (hkept : ∀ b ∈ s.blocks, b ∈ blocks)
    (hnew : ∀ b ∈ blocks, b ∈ s.blocks ∨ b = s.numBlocks)
    (hphase : PhaseOk numSlots ledger' s' i phase) (hslot : phase.slot? = none) :
    Accounts numSlots ledger' s' := by
  subst hledger hs'
  refine h.of_step rfl (fun b => le_rfl) hkept (fun j hj t ht => ?_) (fun b hb => ?_) h.count_le
    (fun b hb => ?_) (fun b hb => ?_) (fun b pos hbit => ?_) hphase (by simp [hslot]) h.flips
  · have hne : t.block ≠ s.numBlocks := ht.lt.ne
    refine ⟨⟨ht.lt.trans (Nat.lt_succ_self _), fun hmark => ?_, ?_, fun hnone => ?_⟩,
      fun _ => ?_, fun _ => rfl⟩
    · exact (update_of_ne hne _ _).trans (ht.owns hmark)
    · rw [ht.listed, not_iff_not]
      exact ⟨hkept _, fun hmem => (hnew _ hmem).resolve_right hne⟩
    · exact (update_of_ne hne _ _).trans (ht.made hnone)
    · exact congrArg insertHead (update_of_ne hne _ _)
  · by_cases hb' : b = s.numBlocks
    · subst hb'
      simp only [newBlock, setBlock, update_self, (h.fresh s.numBlocks le_rfl).1]
      exact hhead
    · simp only [newBlock, setBlock, update_of_ne hb']
      exact h.head b (lt_of_le_of_ne (Nat.le_of_lt_succ hb) hb')
  · have hlt : s.numBlocks < b := hb
    simp only [update_of_ne hlt.ne']
    exact h.fresh b hlt.le
  · rcases hnew b hb with hold | rfl
    · exact (h.listed_lt b hold).trans (Nat.lt_succ_self _)
    · exact Nat.lt_succ_self _
  · by_cases hb' : b = s.numBlocks
    · subst hb'
      simp [newBlock, setBlock, hunset] at hbit
    · simp only [newBlock, setBlock, update_of_ne hb'] at hbit
      exact h.bits_of_step rfl (fun t start hi => absurd hi (hnot t start)) hbit

theorem Accounts.makeBlock {position : Option Nat} (hi : s.phase i = .atBlock position)
    (marked : Bool) :
    Accounts numSlots
      { ledger with
        owner := update ledger.owner s.numBlocks (if marked then some i else none)
        creator := update ledger.creator s.numBlocks (some i) }
      ((s.newBlock (if marked then new.setInsertHead (setBit 0) else .new)).setPhase i
        (.readHead ⟨s.numBlocks, none, marked⟩)) := by
  refine h.addBlock rfl rfl (by simp [hi]) ?_ (by cases marked <;> simp [setInsertHead,
    new]) (fun _ hb => hb) (fun _ hb => .inl hb) ?_ rfl
  · cases marked with
    | false => rfl
    | true => exact setBit_headWord (by decide)
  · refine ⟨⟨Nat.lt_succ_self _, fun hmark => ?_, ?_, fun _ => update_self ..⟩, .inr rfl⟩
    · exact (update_self ..).trans (if_pos hmark)
    · exact ⟨fun _ hmem => (h.listed_lt _ hmem).ne rfl, fun _ => rfl⟩

/-- `CheckMoveHead` when the list is at its end. -/
theorem Accounts.moveToNewBlock (hi : s.phase i = .moveHead position) :
    ∃ ledger', Accounts numSlots ledger' (InsertState.setPhase
        { (s.newBlock .new).pushBack s.numBlocks with insertionHead := s.blocks.length } i
        (.advance position)) := by
  refine ⟨_, @Accounts.addBlock _ _ _ _ _ _ _ h none none .new (s.blocks ++ [s.numBlocks])
    s.blocks.length rfl rfl (by simp [hi]) rfl (fun _ => rfl)
    (fun b hb => mem_append_left _ hb) (by simp) trivial rfl⟩

/-- Inserter `i` writes the head of a block that nobody else has marked. -/
theorem Accounts.setOwner {owner : Option Nat}
    (hledger : ledger' = { ledger with owner := Function.update ledger.owner b owner })
    (hs' : s' = (s.setBlock b ((s.block b).setInsertHead val)).setPhase i phase)
    (hb : b < s.numBlocks) (hnot : ∀ t start, s.phase i ≠ .increment t start)
    (halone : ∀ j ≠ i, ∀ t, Holds ledger s j t → t.marked = true → t.block ≠ b)
    (hval : val = headWord owner.isSome (ledger.count b))
    (hphase : PhaseOk numSlots ledger' s' i phase)
    (hslot : ∀ slot, phase.slot? = some slot → ∀ j ≠ i, (s.phase j).slot? ≠ some slot) :
    Accounts numSlots ledger' s' := by
  subst hledger hs'
  refine h.of_step rfl (fun _ => le_rfl) (fun _ hb => hb) (fun j hj t ht => ?_)
    (fun b' hb' => ?_) h.count_le (fun b' hb' => ?_) h.listed_lt (fun b' pos hbit => ?_) hphase
    hslot h.flips
  · have hne := halone j hj t ht
    refine ⟨⟨ht.lt, fun hmark => ?_, ht.listed, ht.made⟩, fun hmark => ?_, fun _ => rfl⟩
    · exact (update_of_ne (hne hmark) _ _).trans (ht.owns hmark)
    · exact congrArg insertHead (update_of_ne (hne hmark) _ _)
  · by_cases heq : b' = b
    · subst heq
      simp only [setBlock, InsertState.setPhase, update_self]
      exact hval
    · simp only [setBlock, InsertState.setPhase, update_of_ne heq]
      exact h.head b' hb'
  · have hne : b' ≠ b := (lt_of_lt_of_le hb hb').ne'
    simp only [update_of_ne hne]
    exact h.fresh b' hb'
  · exact h.bits_of_step rfl (fun t start hi => absurd hi (hnot t start))
      (allocated_setInsertHead s b val b' ▸ hbit)

theorem Accounts.mark (hslots : numSlots < 2 ^ 31) {oldVal : UInt32}
    (hi : s.phase i = .setBusy b position oldVal) (hcas : (s.block b).insertHead = oldVal) :
    Accounts numSlots { ledger with owner := update ledger.owner b (some i) }
      ((s.setBlock b ((s.block b).setInsertHead (setBit oldVal))).setPhase i
        (.readHead ⟨b, some position, true⟩)) := by
  obtain ⟨hmem, hclear⟩ := h.ready hi
  have hlt := h.listed_lt b hmem
  have hcount : ledger.count b < 2 ^ 31 := (h.count_le b).trans_lt hslots
  -- the value that was expected has no mark, so nobody has marked the block
  have hword := h.head b hlt
  have hfree : ledger.owner b = none := by
    rw [← hcas, hword, clearBit_headWord _ hcount] at hclear
    have hnot := (headWord_inj hcount hcount hclear).1
    rwa [eq_comm, isSome_eq_false_iff, isNone_iff_eq_none] at hnot
  refine h.setOwner rfl rfl hlt (by simp [hi]) (fun j hj t ht hmark heq => ?_) ?_ ?_
    (fun slot hslot => by cases hslot)
  · have howner := ht.owns hmark
    rw [heq, hfree] at howner
    cases howner
  · rw [← hcas, hword, hfree]
    exact setBit_headWord hcount
  · refine ⟨⟨hlt, fun _ => update_self .., ?_, fun hnone => by cases hnone⟩, .inl rfl⟩
    exact ⟨fun hnone => absurd hnone (by simp), fun hnot => absurd hmem hnot⟩

/-- A slot is put aside. The bit was not set, since nobody else is between the
flip and the increment for this block. -/
theorem Accounts.flip (hi : s.phase i = .flip t start) : Accounts numSlots ledger
      { (s.setBlock t.block ((s.block t.block).flip start.toNat).1).setPhase i
          (.increment t start) with
        flips := s.flips ++ [((s.block t.block).flip start.toNat).2] } := by
  obtain ⟨⟨hholds, hexcl⟩, hstart, hroom⟩ := h.ready hi
  have hunset : (s.block t.block).allocated start.toNat = false := by
    by_contra hset
    rcases h.bits t.block start.toNat (Bool.eq_true_of_not_eq_false hset) with hlt | ⟨-, hother⟩
    · omega
    · obtain ⟨j, t', start', hj, hblock⟩ := hother
      have hphase' := h.ready hj
      have hsame := hphase'.1.1.unique hholds hphase'.1.2 hexcl hblock
      rw [hsame, hi] at hj
      cases hj
  have hflip : (s.block t.block).flip start.toNat =
      ({ s.block t.block with
        allocated := update (s.block t.block).allocated start.toNat true }, true) :=
    if_pos hunset
  rw [hflip]
  have hhead : ∀ b, (update s.block t.block { s.block t.block with
      allocated := update (s.block t.block).allocated start.toNat true } b).insertHead =
      (s.block b).insertHead := by
    intro b
    by_cases heq : b = t.block
    · subst heq
      rw [update_self]
    · rw [update_of_ne heq]
  refine h.of_step rfl (fun b => le_rfl) (fun b hb => hb)
    (fun j hj t' ht' => ⟨⟨ht'.lt, ht'.owns, ht'.listed, ht'.made⟩, fun _ => hhead _, fun _ => rfl⟩)
    (fun b hb => (hhead b).trans (h.head b hb)) h.count_le h.fresh h.listed_lt
    (fun b pos hbit => ?_)
    ⟨⟨⟨hholds.lt, hholds.owns, hholds.listed, hholds.made⟩, hexcl⟩, hstart, hroom⟩
    (fun slot hslot => by cases hslot) ?_
  · by_cases heq : b = t.block ∧ pos = start.toNat
    · obtain ⟨rfl, rfl⟩ := heq
      exact .inr ⟨hstart, i, t, start, update_self .., rfl⟩
    · refine h.bits_of_step rfl (by simp [hi]) ?_
      by_cases hb : b = t.block
      · subst hb
        have hpos : pos ≠ start.toNat := fun hpos => heq ⟨rfl, hpos⟩
        simpa [setBlock, InsertState.setPhase, update_of_ne hpos] using hbit
      · simpa [setBlock, InsertState.setPhase, update_of_ne hb] using hbit
  · exact forall_mem_append.mpr ⟨h.flips, forall_mem_singleton.mpr rfl⟩

theorem Accounts.increment (hi : s.phase i = .increment t start) : Accounts numSlots
      { ledger with count := update ledger.count t.block (ledger.count t.block + 1) }
      ((s.setBlock t.block ((s.block t.block).setInsertHead
        ((s.block t.block).insertHead + 1))).setPhase i (match t.position with
            | none => .pushBack t start
            | some _ => .loadHead t (.allocated (t.block, start.toNat)))) := by
  obtain ⟨⟨hholds, hexcl⟩, hstart, hroom⟩ := h.ready hi
  have hgrows : ∀ b, ledger.count b ≤ update ledger.count t.block (ledger.count t.block + 1) b := by
    intro b
    by_cases heq : b = t.block
    · subst heq
      rw [update_self]
      exact Nat.le_succ _
    · rw [update_of_ne heq]
  have halone : ∀ j ≠ i, ∀ t', Holds ledger s j t' → t'.IsExclusive → t'.block ≠ t.block :=
    fun j hj t' ht' hexcl' heq => hj (ht'.unique hholds hexcl' hexcl heq)
  refine h.of_step rfl hgrows (fun b hb => hb)
    (fun j hj t' ht' => ⟨⟨ht'.lt, ht'.owns, ht'.listed, ht'.made⟩, fun hmark => ?_,
      fun hexcl' => ?_⟩) (fun b hb => ?_) (fun b => ?_) (fun b hb => ?_) h.listed_lt
    (fun b pos hbit => ?_) ?_ ?_ h.flips
  · exact congrArg insertHead (update_of_ne (halone j hj t' ht' (.inl hmark)) _ _)
  · exact update_of_ne (halone j hj t' ht' hexcl') _ _
  · by_cases heq : b = t.block
    · subst heq
      simp only [setBlock, InsertState.setPhase, update_self, setInsertHead]
      rw [h.head _ hb, headWord_succ]
    · simp only [setBlock, InsertState.setPhase, update_of_ne heq]
      exact h.head b hb
  · by_cases heq : b = t.block
    · subst heq
      simp only [update_self]
      exact hroom
    · simp only [update_of_ne heq]
      exact h.count_le b
  · have hne : b ≠ t.block := (lt_of_lt_of_le hholds.lt hb).ne'
    simp only [update_of_ne hne]
    exact h.fresh b hb
  · have hbit' : (s.block b).allocated pos = true := allocated_setInsertHead s t.block _ b ▸ hbit
    by_cases heq : b = t.block
    · subst heq
      simp only [update_self]
      rcases h.bits _ pos hbit' with hlt | ⟨hpos, -⟩
      · exact .inl (hlt.trans (Nat.lt_succ_self _))
      · exact .inl (hpos ▸ Nat.lt_succ_self _)
    · simp only [update_of_ne heq]
      refine h.bits_of_step rfl (fun t' start' hi' hblock => ?_) hbit'
      rw [hi] at hi'
      cases hi'
      exact heq hblock.symm
  · have hlt : start.toNat < update ledger.count t.block (ledger.count t.block + 1) t.block := by
      rw [update_self]
      omega
    split
    case h_1 hnone =>
      exact ⟨⟨hholds.lt, hholds.owns, hholds.listed, hholds.made⟩, hnone, hlt⟩
    case h_2 => exact ⟨⟨hholds.lt, hholds.owns, hholds.listed, hholds.made⟩, hlt⟩
  · intro slot hnew j hj hold
    have hslot : slot = (t.block, start.toNat) := by
      split at hnew <;> exact (Option.some.inj hnew).symm
    rw [hslot] at hold
    have hlt : start.toNat < ledger.count t.block := (h.phases j).slot_lt hold
    omega

theorem Accounts.publish (hi : s.phase i = .pushBack t start) : Accounts numSlots ledger
      ((s.pushBack t.block).setPhase i (.loadHead { t with position := some s.blocks.length }
          (.allocated (t.block, start.toNat)))) := by
  obtain ⟨hholds, hhidden, hslot⟩ := h.ready hi
  have hmem : t.block ∈ s.blocks ++ [t.block] := by simp
  refine h.of_step rfl (fun b => le_rfl) (fun b hb => mem_append_left _ hb)
    (fun j hj t' ht' => ?_) h.head h.count_le h.fresh
    (forall_mem_append.mpr ⟨h.listed_lt, forall_mem_singleton.mpr hholds.lt⟩)
    (fun b pos hbit => h.bits_of_step rfl (by simp [hi]) hbit)
    ⟨⟨hholds.lt, hholds.owns, ?_, fun hnone => absurd hnone (by simp)⟩, hslot⟩
    (fun slot hnew j hj hold => hj (h.distinct j i slot hold (by rw [hi]; exact hnew))) h.flips
  · have hne : t'.position = none → t'.block ≠ t.block := fun hnone heq =>
      hj (ht'.unique hholds (.inr hnone) (.inr hhidden) heq)
    refine ⟨⟨ht'.lt, ht'.owns, ?_, ht'.made⟩, fun _ => rfl, fun _ => rfl⟩
    rw [ht'.listed]
    refine ⟨fun hnot hnew => ?_, fun hnot hold => hnot (mem_append_left _ hold)⟩
    rcases mem_append.mp hnew with hold | heq
    · exact hnot hold
    · exact hne (ht'.listed.mpr hnot) (mem_singleton.mp heq)
  · exact ⟨fun hnone => absurd hnone (by simp), fun hnot => absurd hmem hnot⟩

theorem outcome_ok (hi : s.phase i = .clearBusy t outcome val) :
    PhaseOk numSlots ledger s i outcome.next ∧ outcome.next.slot? = (s.phase i).slot? := by
  have hready := h.ready hi
  rw [hi]
  cases outcome with
  | full position => exact ⟨trivial, rfl⟩
  | allocated slot => exact ⟨hready.2.1, rfl⟩

theorem Accounts.setInsertionHead (head : Nat) :
    Accounts numSlots ledger { s with insertionHead := head } :=
  { h with
    phases := fun i => (h.phases i).leaves (fun _ => le_rfl) (fun _ hb => hb)
      fun _ ht => ⟨⟨ht.lt, ht.owns, ht.listed, ht.made⟩, fun _ => rfl, fun _ => rfl⟩ }

theorem Accounts.unmark (hslots : numSlots < 2 ^ 31) (hi : s.phase i = .clearBusy t outcome val)
    (hmark : t.marked = true) :
    Accounts numSlots { ledger with owner := update ledger.owner t.block none }
      ((s.setBlock t.block ((s.block t.block).setInsertHead (clearBit val))).setPhase i
        outcome.next) := by
  obtain ⟨hholds, -, hhead⟩ := h.ready hi
  obtain ⟨hphase, hsame⟩ := outcome_ok h hi
  have hcount : ledger.count t.block < 2 ^ 31 := (h.count_le t.block).trans_lt hslots
  refine h.setOwner rfl rfl hholds.lt (by simp [hi]) (fun j hj t' ht' hmark' heq => ?_) ?_ ?_ ?_
  · exact hj (ht'.unique hholds (.inl hmark') (.inl hmark) heq)
  · rw [← hhead hmark, h.head _ hholds.lt]
    exact clearBit_headWord _ hcount
  · cases outcome with
    | full position => trivial
    | allocated slot => exact hphase
  · exact fun slot hnew j hj hold => hj (h.distinct j i slot hold (hsame ▸ hnew))

end Steps

/-- The step keeps the marks of other inserters. Only an inserter that published
its block without a mark could take one away. -/
def keepsMarks (s : InsertState) (i : Nat) : Bool :=
  match s.phase i with
  | .clearBusy t _ val =>
    t.marked || (s.block t.block).insertHead != val || clearBit val == val
  | _ => true

theorem setBlock_self (s : InsertState) (b : Nat) : s.setBlock b (s.block b) = s := by
  simp [setBlock]

theorem Accounts.step (hslots : numSlots < 2 ^ 31) {assertsEvaluated : Bool}
    (h : Accounts numSlots ledger s) (hallow : s.keepsMarks i = true)
    (hstep : s.step assertsEvaluated numSlots i = some s') :
    ∃ ledger', Accounts numSlots ledger' s' := by
  have hcount (b : Nat) : ledger.count b < 2 ^ 31 := (h.count_le b).trans_lt hslots
  cases hi : s.phase i with
  | started | advance position =>
    rw [InsertState.step, hi] at hstep
    cases hstep
    exact ⟨ledger, h.setPhase (by simp [hi]) trivial (.inl rfl)⟩
  | atBlock position =>
    cases position with
    | none =>
      rw [InsertState.step, hi] at hstep
      cases hstep
      exact ⟨_, h.makeBlock hi assertsEvaluated⟩
    | some position =>
      simp only [InsertState.step, hi] at hstep
      split at hstep
      case h_1 b hb =>
        cases hstep
        have hmem : b ∈ s.blocks := mem_of_getElem? hb
        refine ⟨ledger, h.setPhase (by simp [hi]) ⟨hmem, ?_⟩ (.inl rfl)⟩
        rw [h.head b (h.listed_lt b hmem), clearBit_headWord _ (hcount b),
          clearBit_headWord _ (hcount b)]
      case h_2 => cases hstep
  | setBusy b position oldVal =>
    simp only [InsertState.step, hi] at hstep
    split_ifs at hstep with hcas
    · cases hstep
      exact ⟨_, h.mark hslots hi hcas⟩
    · cases hstep
      exact ⟨ledger, h.setPhase (by simp [hi]) trivial (.inl rfl)⟩
  | readHead t =>
    have hready := h.ready hi
    simp only [InsertState.step, hi] at hstep
    split_ifs at hstep with hfull
    · split at hstep
      case h_1 position hposition =>
        cases hstep
        exact ⟨ledger, h.setPhase (by simp [hi]) ⟨hready.1, trivial⟩ (.inl rfl)⟩
      case h_2 => cases hstep
    · cases hstep
      have hstart : (s.block t.block).getInsertHead.toNat = ledger.count t.block := by
        rw [getInsertHead_eq, h.head _ hready.1.lt, clearBit_headWord _ (hcount t.block),
          headWord_toNat false (hcount t.block)]
        simp
      refine ⟨ledger, h.setPhase (by simp [hi]) ⟨hready, hstart, ?_⟩ (.inl rfl)⟩
      exact lt_of_le_of_ne (h.count_le _) (hstart ▸ hfull)
  | flip t start =>
    rw [InsertState.step, hi] at hstep
    cases hstep
    exact ⟨ledger, h.flip hi⟩
  | increment t start =>
    rw [InsertState.step, hi] at hstep
    cases hstep
    exact ⟨_, h.increment hi⟩
  | pushBack t start =>
    rw [InsertState.step, hi] at hstep
    cases hstep
    exact ⟨ledger, h.publish hi⟩
  | loadHead t outcome =>
    rw [InsertState.step, hi] at hstep
    cases hstep
    have hready := h.ready hi
    refine ⟨ledger, h.setPhase (by simp [hi]) ⟨hready.1, hready.2, fun _ => rfl⟩ (.inr ?_)⟩
    rw [hi]
    cases outcome <;> rfl
  | clearBusy t outcome val =>
    simp only [InsertState.step, hi, Option.some.injEq] at hstep
    by_cases hmark : t.marked = true
    · rw [if_pos ((h.ready hi).2.2 hmark)] at hstep
      exact ⟨_, hstep ▸ h.unmark hslots hi hmark⟩
    · have hsame : (if (s.block t.block).insertHead = val then
          s.setBlock t.block ((s.block t.block).setInsertHead (clearBit val)) else s) = s := by
        simp only [keepsMarks, hi, Bool.or_eq_true, bne_iff_ne, beq_iff_eq] at hallow
        split_ifs with hcas
        · have hclear : clearBit val = val :=
            (hallow.resolve_left (not_or_intro hmark (not_not_intro hcas)))
          rw [hclear, ← hcas]
          exact s.setBlock_self t.block
        · rfl
      rw [hsame] at hstep
      obtain ⟨hphase, hslot⟩ := outcome_ok h hi
      exact ⟨ledger, hstep ▸ h.setPhase (by simp [hi]) hphase (.inr hslot)⟩
  | moveHead position =>
    simp only [InsertState.step, hi, Option.some.injEq, checkMoveHead] at hstep
    split at hstep
    case h_1 head _ =>
      exact ⟨ledger, hstep ▸ (h.setInsertionHead head).setPhase (by simp [hi]) trivial (.inl rfl)⟩
    case h_2 => exact hstep ▸ h.moveToNewBlock hi
  | returned slot => simp [InsertState.step, hi] at hstep

theorem Accounts.marks_unique (h : Accounts numSlots ledger s) {b : Nat} (hi : (s.phase i).Marks b)
    (hj : (s.phase j).Marks b) : i = j := by
  have howner : ∀ k, (s.phase k).Marks b → ledger.owner b = some k := by
    intro k hk
    have hready := h.phases k
    generalize s.phase k = phase at hk hready
    cases phase with
    | readHead t | pushBack t start | loadHead t outcome | clearBusy t outcome val =>
      exact hk.1 ▸ hready.1.owns hk.2
    | flip t start | increment t start => exact hk.1 ▸ hready.1.1.owns hk.2
    | _ => cases hk
  exact Option.some.inj ((howner i hi).symm.trans (howner j hj))

/-- What the ledger says about inserters. -/
theorem distinct_of_run (hslots : numSlots < 2 ^ 31) {assertsEvaluated : Bool}
    {inserters : List Nat}
    (hrun : Runs.run (step assertsEvaluated numSlots) init inserters = some s)
    (hkeeps : Runs.Along (step assertsEvaluated numSlots) keepsMarks init inserters = true) :
    (∀ b i j, (s.phase i).Marks b → (s.phase j).Marks b → i = j) ∧
    (∀ flipRes ∈ s.flips, flipRes = true) ∧
    ∀ i j slot, s.phase i = .returned slot → s.phase j = .returned slot → i = j := by
  obtain ⟨ledger, h⟩ := Runs.run_keeps_along (p := fun s => ∃ ledger, Accounts numSlots ledger s)
    (fun hallow hstep ⟨_, h⟩ => h.step hslots hallow hstep) hrun hkeeps
    ⟨_, Accounts.init numSlots⟩
  refine ⟨fun b i j hi hj => h.marks_unique hi hj, h.flips, fun i j slot hi hj => ?_⟩
  exact h.distinct i j slot (by rw [hi]; rfl) (by rw [hj]; rfl)

/-- In every run without assertions in which no inserter takes away a mark that
another one has set: a block is marked by one inserter at a time, every flip
succeeds, and no slot is returned twice. -/
theorem inserts_distinct (numSlots : Nat) (hslots : numSlots < 2 ^ 31) (inserters : List Nat)
    (s : InsertState) (hrun : Runs.run (step false numSlots) init inserters = some s)
    (hkeeps : Runs.Along (step false numSlots) keepsMarks init inserters = true) :
    (∀ b i j, (s.phase i).Marks b → (s.phase j).Marks b → i = j) ∧
    (∀ flipRes ∈ s.flips, flipRes = true) ∧
    ∀ i j slot, s.phase i = .returned slot → s.phase j = .returned slot → i = j :=
  distinct_of_run hslots hrun hkeeps

/-- Inserter 1 finds the block of inserter 0 busy and makes another while 0 goes on. -/
def freshBlock : List Nat := [0, 0, 0, 1, 1, 1, 0, 1, 1, 1, 0, 1, 1, 0, 1, 1, 0, 1, 0]

theorem inserts_distinct_two :
    ∃ s, Runs.run (step false 8) init freshBlock = some s ∧
      s.phase 0 = .returned (0, 0) ∧ s.phase 1 = .returned (1, 0) ∧
      ∀ i j slot, s.phase i = .returned slot → s.phase j = .returned slot → i = j := by
  obtain ⟨s, hrun, hphases⟩ := map_eq_some_iff.mp
    (show (Runs.run (step false 8) init freshBlock).map
      (fun s => (s.phase 0, s.phase 1)) = some (.returned (0, 0), .returned (1, 0)) by
        decide +kernel)
  obtain ⟨hzero, hone⟩ := Prod.mk.inj hphases
  exact ⟨s, hrun, hzero, hone, (inserts_distinct 8 (by decide) _ s hrun (by decide +kernel)).2.2⟩

/-- Inserter 1 finds the block of inserter 0 busy and has published one of its own when inserter 2
marks it. Its `ClearBlockBusyStatus` takes that mark away, and inserter 3 can set its own. -/
def markTaken : List Nat :=
  [0, 0, 0, 1, 1, 1, 1, 1, 1, 1, 1, 1, 2, 2, 2, 2, 2, 2, 1, 1, 3, 3, 3, 3, 3, 3]

/-- The two then read the same `insert_head_`. -/
def slotTwice : List Nat := markTaken ++ [2, 3, 2, 3, 2, 3, 2, 3, 2, 3]

theorem slot_inserted_twice : (∃ s, Runs.run (step false 8) init markTaken = some s ∧
      (s.phase 2).Marks 1 ∧ (s.phase 3).Marks 1) ∧
    ∃ s, Runs.run (step false 8) init slotTwice = some s ∧
      s.phase 2 = .returned (1, 1) ∧ s.phase 3 = .returned (1, 1) ∧ false ∈ s.flips := by
  constructor
  · obtain ⟨s, hrun, hphases⟩ := map_eq_some_iff.mp
      (show (Runs.run (step false 8) init markTaken).map (fun s => (s.phase 2, s.phase 3)) =
        some (.readHead ⟨1, some 1, true⟩, .readHead ⟨1, some 1, true⟩) by decide +kernel)
    obtain ⟨htwo, hthree⟩ := Prod.mk.inj hphases
    exact ⟨s, hrun, htwo ▸ ⟨rfl, rfl⟩, hthree ▸ ⟨rfl, rfl⟩⟩
  · obtain ⟨s, hrun, hresults⟩ := map_eq_some_iff.mp
      (show (Runs.run (step false 8) init slotTwice).map
        (fun s => (s.phase 2, s.phase 3, s.flips)) =
          some (.returned (1, 1), .returned (1, 1), [true, true, false]) by decide +kernel)
    obtain ⟨htwo, hrest⟩ := Prod.mk.inj hresults
    obtain ⟨hthree, hflips⟩ := Prod.mk.inj hrest
    exact ⟨s, hrun, htwo, hthree, by rw [hflips]; decide⟩

section Asserting

def isMarked : InsertPhase → Bool
  | .readHead t | .flip t _ | .increment t _ | .pushBack t _ | .loadHead t _
  | .clearBusy t _ _ => t.marked
  | _ => true

/-- With the assertion an inserter marks the block that it makes. -/
theorem isMarked_step (h : ∀ j, isMarked (s.phase j) = true)
    (hstep : s.step true numSlots i = some s') : ∀ j, isMarked (s'.phase j) = true := by
  have hset : ∀ {phase}, isMarked phase = true →
      ∀ j, isMarked (Function.update s.phase i phase j) = true := fun hphase =>
    (forall_update_iff _ fun _ phase => isMarked phase = true).mpr ⟨hphase, fun j _ => h j⟩
  have hmark := h i
  unfold InsertState.step at hstep
  cases hi : s.phase i with
  | started | advance position | flip t start | pushBack t start | loadHead t outcome =>
    rw [hi] at hstep hmark
    cases hstep
    exact hset hmark
  | atBlock position =>
    cases position with
    | none =>
      rw [hi] at hstep
      cases hstep
      exact hset rfl
    | some position =>
      simp only [hi] at hstep
      split at hstep <;> cases hstep
      exact hset rfl
  | setBusy b position oldVal =>
    simp only [hi] at hstep
    split at hstep <;> cases hstep <;> exact hset rfl
  | readHead t =>
    simp only [hi] at hstep hmark
    repeat' split at hstep
    all_goals cases hstep
    all_goals exact hset hmark
  | increment t start =>
    rw [hi] at hstep hmark
    cases hstep
    apply hset
    split <;> exact hmark
  | clearBusy t outcome val =>
    rw [hi] at hstep
    cases hstep
    have hnext : isMarked outcome.next = true := by cases outcome <;> rfl
    split <;> exact hset hnext
  | moveHead position =>
    rw [hi] at hstep
    cases hstep
    unfold checkMoveHead
    split <;> exact hset rfl
  | returned slot => simp [hi] at hstep

/-- In a build that evaluates assertions the marks are never taken, and inserters
get distinct slots in every run. -/
theorem inserts_distinct_asserting (numSlots : Nat) (hslots : numSlots < 2 ^ 31)
    (inserters : List Nat) (s : InsertState)
    (hrun : Runs.run (step true numSlots) init inserters = some s) :
    (∀ b i j, (s.phase i).Marks b → (s.phase j).Marks b → i = j) ∧
    (∀ flipRes ∈ s.flips, flipRes = true) ∧
    ∀ i j slot, s.phase i = .returned slot → s.phase j = .returned slot → i = j := by
  have hkeeps : Runs.Along (step true numSlots) keepsMarks init inserters = true := by
    refine Runs.along_of_keeps (p := fun s => ∀ j, isMarked (s.phase j) = true)
      (fun hstep h => isMarked_step h hstep) (fun {s i} h => ?_) (fun j => rfl) inserters
    have hmark := h i
    unfold keepsMarks
    split
    · simp_all [isMarked]
    · rfl
  exact distinct_of_run hslots hrun hkeeps

theorem inserts_distinct_asserting_slotTwice :
    ∃ s, Runs.run (step true 8) init slotTwice = some s ∧
      ∀ i j slot, s.phase i = .returned slot → s.phase j = .returned slot → i = j := by
  obtain ⟨s, hrun⟩ := isSome_iff_exists.mp
    (show (Runs.run (step true 8) init slotTwice).isSome by decide +kernel)
  exact ⟨s, hrun, (inserts_distinct_asserting 8 (by decide) _ s hrun).2.2⟩

end Asserting

end InsertState

end Terrier
