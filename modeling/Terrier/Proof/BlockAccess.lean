import Terrier.Storage.BlockAccessController

/-!
What writers do to a block that is being frozen, and to readers. A writer stores `HOT` some time
after it loaded the state. If no writer is about to do so when the compactor swaps `COOLING` for
`FREEZING`, none will be before the block is frozen.
-/

namespace Terrier

namespace BlockAccess

variable {writers : Nat} {s s' : BlockAccess writers}

/-- No writer is about to store `HOT` when the block starts to freeze, and the
reader count does not run over. -/
def undisturbed (s : BlockAccess writers) : AccessAction writers → Bool
  | .compactor =>
    s.compactor != .swapCooling || s.state != .cooling || decide (∀ w, s.writer w ≠ .storeHot)
  | .reader r =>
    match s.reader r with
    | .swapMembers readerCount => readerCount != 0xFFFFFFFF
    | _ => true
  | _ => true

structure Guarded (s : BlockAccess writers) : Prop where
  freezing : s.state = .freezing → ∀ w, s.writer w ≠ .storeHot
  count : ∃ holders : Finset Nat, (∀ r, s.reader r = .holding ↔ r ∈ holders) ∧
    s.readerCount.toNat = holders.card

theorem Guarded.init : (init : BlockAccess writers).Guarded :=
  ⟨fun hstate => absurd hstate (by simp [BlockAccess.init]), ∅, by simp [BlockAccess.init], rfl⟩

section

variable (h : s.Guarded)
include h

variable {w : Fin writers} {r : Nat}

theorem Guarded.setWriter {phase : WriterPhase} (hphase : s.state = .freezing → phase ≠ .storeHot) :
    (s.setWriter w phase).Guarded := by
  refine ⟨fun hstate w' => ?_, h.count⟩
  by_cases hw : w' = w
  · subst hw
    simp only [BlockAccess.setWriter, Function.update_self]
    exact hphase hstate
  · simp only [BlockAccess.setWriter, Function.update_of_ne hw]
    exact h.freezing hstate w'

theorem Guarded.setState {state : BlockState} (hstate : state ≠ .freezing) :
    Guarded { s with state := state } :=
  ⟨fun hfreeze => absurd hfreeze hstate, h.count⟩

theorem Guarded.waitUntilHot (hstep : s.waitUntilHot w = some s') : s'.Guarded := by
  unfold BlockAccess.waitUntilHot at hstep
  split at hstep
  case h_1 =>
    split at hstep
    case h_1 =>
      cases hstep
      exact h
    case h_2 =>
      cases hstep
      exact h.setWriter fun _ => by decide
    case h_3 hfrozen =>
      cases hstep
      exact h.setWriter fun hfreeze => by simp [hfrozen] at hfreeze
    case h_4 =>
      cases hstep
      exact h.setWriter fun _ => by decide
  case h_2 =>
    split at hstep
    case isTrue =>
      cases hstep
      exact (h.setState (by decide)).setWriter fun hfreeze => by cases hfreeze
    case isFalse =>
      cases hstep
      exact h.setWriter fun _ => by decide
  case h_3 =>
    cases hstep
    exact (h.setState (by decide)).setWriter fun _ => by decide
  case h_4 =>
    split at hstep
    case isTrue =>
      cases hstep
      exact h
    case isFalse =>
      cases hstep
      exact h.setWriter fun _ => by decide
  case h_5 => cases hstep

/-- A reader goes on without getting or giving up the block. -/
theorem Guarded.setReader {phase : ReaderPhase} (hbef : s.reader r ≠ .holding)
    (hafter : phase ≠ .holding) : (s.setReader r phase).Guarded := by
  obtain ⟨holders, hmem, hcard⟩ := h.count
  refine ⟨h.freezing, holders, fun r' => ?_, hcard⟩
  by_cases hr : r' = r
  · subst hr
    simp only [BlockAccess.setReader, Function.update_self]
    rw [← hmem r']
    exact ⟨fun hhold => absurd hhold hafter, fun hhold => absurd hhold hbef⟩
  · simp only [BlockAccess.setReader, Function.update_of_ne hr]
    exact hmem r'

theorem Guarded.acquire (hbef : s.reader r ≠ .holding) (hroom : s.readerCount ≠ 0xFFFFFFFF) :
    (BlockAccess.setReader { s with readerCount := s.readerCount + 1 } r .holding).Guarded := by
  obtain ⟨holders, hmem, hcard⟩ := h.count
  have hnot : r ∉ holders := fun hr => hbef ((hmem r).mpr hr)
  refine ⟨h.freezing, insert r holders, fun r' => ?_, ?_⟩
  · by_cases hr : r' = r
    · subst hr
      simp [BlockAccess.setReader]
    · simp only [BlockAccess.setReader, Function.update_of_ne hr, Finset.mem_insert, hr, false_or]
      exact hmem r'
  · have hne : s.readerCount.toNat ≠ 0xFFFFFFFF := fun heq => hroom (UInt32.toNat_inj.mp heq)
    have hlt := s.readerCount.toNat_lt
    rw [Finset.card_insert_of_notMem hnot, ← hcard]
    simp only [BlockAccess.setReader, UInt32.toNat_add, UInt32.reduceToNat]
    omega

theorem Guarded.release (hhold : s.reader r = .holding) :
    (BlockAccess.setReader { s with readerCount := s.readerCount - 1 } r .released).Guarded := by
  obtain ⟨holders, hmem, hcard⟩ := h.count
  have hr : r ∈ holders := (hmem r).mp hhold
  have hpos : 0 < holders.card := Finset.card_pos.mpr ⟨r, hr⟩
  refine ⟨h.freezing, holders.erase r, fun r' => ?_, ?_⟩
  · by_cases hr' : r' = r
    · subst hr'
      simp [BlockAccess.setReader]
    · simp only [BlockAccess.setReader, Function.update_of_ne hr', Finset.mem_erase, ne_eq, hr',
        not_false_eq_true, true_and]
      exact hmem r'
  · have hle : (1 : UInt32) ≤ s.readerCount := by
      rw [UInt32.le_iff_toNat_le, hcard]
      exact hpos
    rw [Finset.card_erase_of_mem hr, ← hcard]
    exact UInt32.toNat_sub_of_le _ _ hle

theorem Guarded.readInPlace (hallow : s.undisturbed (.reader r) = true)
    (hstep : s.readInPlace r = some s') : s'.Guarded := by
  unfold BlockAccess.readInPlace at hstep
  split at hstep
  case h_1 hphase =>
    split at hstep
    case isTrue =>
      cases hstep
      exact h.setReader (by simp [hphase]) (by decide)
    case isFalse =>
      cases hstep
      exact h.setReader (by simp [hphase]) (by simp)
  case h_2 readerCount hphase =>
    split at hstep
    case isTrue hswap =>
      cases hstep
      rw [undisturbed, hphase] at hallow
      rw [← hswap.2]
      exact h.acquire (by simp [hphase]) (by rw [hswap.2]; simpa using hallow)
    case isFalse =>
      cases hstep
      exact h.setReader (by simp [hphase]) (by decide)
  case h_3 hphase =>
    cases hstep
    exact h.release hphase
  case h_4 => cases hstep
  case h_5 => cases hstep

theorem Guarded.compact (hallow : s.undisturbed .compactor = true) (hstep : s.compact = some s') :
    s'.Guarded := by
  unfold BlockAccess.compact at hstep
  split at hstep
  case h_1 =>
    split at hstep
    case h_1 =>
      cases hstep
      exact ⟨h.freezing, h.count⟩
    case h_2 =>
      cases hstep
      exact ⟨h.freezing, h.count⟩
    case h_3 =>
      cases hstep
      exact h
    case h_4 => cases hstep
  case h_2 =>
    cases hstep
    exact ⟨fun hfreeze => absurd hfreeze (by simp), h.count⟩
  case h_3 hphase =>
    split at hstep
    case isTrue hcooling =>
      cases hstep
      simp only [undisturbed, hphase, hcooling, bne_self_eq_false, Bool.false_or,
        decide_eq_true_eq] at hallow
      exact ⟨fun _ => hallow, h.count⟩
    case isFalse =>
      cases hstep
      exact ⟨h.freezing, h.count⟩
  case h_4 =>
    cases hstep
    exact ⟨fun hfreeze => absurd hfreeze (by simp), h.count⟩

theorem Guarded.step {action : AccessAction writers} (hallow : s.undisturbed action = true)
    (hstep : s.step action = some s') : s'.Guarded := by
  cases action with
  | writer w => exact h.waitUntilHot hstep
  | reader r => exact h.readInPlace hallow hstep
  | compactor => exact h.compact hallow hstep
  | giveUp =>
    rw [BlockAccess.step] at hstep
    split at hstep
    · cases hstep
    · cases hstep
      exact ⟨h.freezing, h.count⟩

/-- A writer keeps its hands off a block that is being frozen. -/
theorem Guarded.state_kept (hstep : s.waitUntilHot w = some s') (hstate : s.state = .freezing) :
    s'.state = .freezing := by
  unfold BlockAccess.waitUntilHot at hstep
  split at hstep
  case h_1 =>
    rw [hstate] at hstep
    cases hstep
    exact hstate
  case h_2 =>
    rw [if_neg (by simp [hstate])] at hstep
    cases hstep
    exact hstate
  case h_3 hphase => exact absurd hphase (h.freezing hstate w)
  case h_4 =>
    split at hstep
    · cases hstep
      exact hstate
    · cases hstep
      exact hstate
  case h_5 => cases hstep

theorem Guarded.no_reader (hstep : s.waitUntilHot w = some s')
    (hret : s'.writer w = .returned) (r : Nat) : s'.reader r ≠ .holding := by
  have hself : ∀ (s : BlockAccess writers) phase, (s.setWriter w phase).writer w = phase :=
    fun s phase => Function.update_self ..
  unfold BlockAccess.waitUntilHot at hstep
  split at hstep
  case h_1 hphase =>
    split at hstep <;> cases hstep
    · simp [hphase] at hret
    all_goals simp [hself] at hret
  case h_2 hphase => split at hstep <;> cases hstep <;> simp [hself] at hret
  case h_3 hphase =>
    cases hstep
    simp [hself] at hret
  case h_4 hphase =>
    split at hstep
    case isTrue =>
      cases hstep
      simp [hphase] at hret
    case isFalse hzero =>
      cases hstep
      obtain ⟨holders, hmem, hcard⟩ := h.count
      have hempty : holders = ∅ := by
        rw [← Finset.card_eq_zero, ← hcard, not_not.mp hzero]
        rfl
      intro hhold
      have hr := (hmem r).mp hhold
      simp [hempty] at hr
  case h_5 => cases hstep

end

/-- After every run in which no writer is about to store `HOT` whenever the block starts to
freeze: the next step of a writer leaves `FREEZING` alone, and if the writer returns, no reader
holds the block. -/
theorem writer_respects_block (writers : Nat) (actions : List (AccessAction writers))
    (s s' : BlockAccess writers) (w : Fin writers) (hrun : Runs.run step init actions = some s)
    (hundisturbed : Runs.Along step undisturbed init actions = true)
    (hstep : s.step (.writer w) = some s') :
    (s.state = .freezing → s'.state = .freezing) ∧
      (s'.writer w = .returned → ∀ r, s'.reader r ≠ .holding) := by
  have h : s.Guarded := Runs.run_keeps_along (fun hallowed hstep h => h.step hallowed hstep) hrun
    hundisturbed Guarded.init
  exact ⟨h.state_kept hstep, h.no_reader hstep⟩

theorem writer_respects_block_frozen :
    ∃ s s', Runs.run step (init : BlockAccess 1) (List.replicate 4 .compactor) = some s ∧
      s.step (.writer 0) = some s' ∧ s.state = .freezing ∧ s'.state = .freezing := by
  obtain ⟨s, hrun, hstate⟩ := Option.map_eq_some_iff.mp
    (show (Runs.run step (init : BlockAccess 1) (List.replicate 4 .compactor)).map
      (fun s => (s.state, s.writer 0)) = some (.freezing, .loadState) by decide)
  obtain ⟨hfreezing, hwriter⟩ := Prod.mk.inj hstate
  have hstep : s.step (.writer 0) = some s := by
    simp only [BlockAccess.step, BlockAccess.waitUntilHot, hwriter, hfreezing]
  exact ⟨s, s, hrun, hstep, hfreezing,
    (writer_respects_block 1 _ s s 0 hrun (by decide) hstep).1 hfreezing⟩

/-- A writer swaps `COOLING` for `HOT`, and the compactor cools the block again
and starts to freeze it before the writer stores `HOT` once more. -/
def staleStore : List (AccessAction 1) :=
  [.compactor, .compactor, .writer 0, .writer 0, .compactor, .compactor, .compactor, .compactor]

theorem freezing_block_heated :
    ∃ s s', Runs.run step init staleStore = some s ∧ s.step (.writer 0) = some s' ∧
      s.state = .freezing ∧ s'.state = .hot := by
  obtain ⟨s, hrun, hstate⟩ := Option.map_eq_some_iff.mp
    (show (Runs.run step init staleStore).map (fun s => (s.state, s.writer 0)) =
      some (.freezing, .storeHot) by decide)
  obtain ⟨hfreezing, hwriter⟩ := Prod.mk.inj hstate
  refine ⟨s, BlockAccess.setWriter { s with state := .hot } 0 .loadReaders, hrun, ?_,
    hfreezing, rfl⟩
  simp only [BlockAccess.step, BlockAccess.waitUntilHot, hwriter]

end BlockAccess

end Terrier
