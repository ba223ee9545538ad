import Mathlib.Data.Finset.Card
import Mathlib.Data.List.Forall2
import Mathlib.Tactic

/-!
Two lists over the same order, one rising and one falling, that are walked in
pairs until they cross. What is below in each pair changes places with what is
above; afterwards everything on the one side is below everything on the other.
-/

namespace Crossing

open List

variable {α : Type*} [LinearOrder α]

/-- The parts walked, `rises` and `falls`, hold pairs in order; the parts that remain have
crossed. -/
structure Crossed (rises falls restRises restFalls : List α) : Prop where
  rising : (rises ++ restRises).Pairwise (· < ·)
  falling : (falls ++ restFalls).Pairwise (· > ·)
  pairs : List.Forall₂ (· < ·) rises falls
  crossed : ∀ a ∈ restRises.head?, ∀ b ∈ restFalls.head?, b < a

variable {rises falls restRises restFalls : List α}

theorem lt_of_pairs (hrising : rises.Pairwise (· < ·)) (hfalling : falls.Pairwise (· > ·))
    (hpairs : List.Forall₂ (· < ·) rises falls) : ∀ a ∈ rises, ∀ b ∈ falls, a < b := by
  induction hpairs with
  | nil => simp
  | cons hfirst hrest ih =>
    rename_i first first' rest rest'
    rw [pairwise_cons] at hrising hfalling
    have hbelow := ih hrising.2 hfalling.2
    intro a ha b hb
    rcases mem_cons.1 ha with rfl | ha
    · rcases mem_cons.1 hb with rfl | hb
      · exact hfirst
      · obtain ⟨a', ha'⟩ : ∃ a', a' ∈ rest := by
          cases hrest with
          | nil => cases hb
          | cons => exact ⟨_, mem_cons_self⟩
        exact (hrising.1 a' ha').trans (hbelow a' ha' b hb)
    · rcases mem_cons.1 hb with rfl | hb
      · obtain ⟨b', hb'⟩ : ∃ b', b' ∈ rest' := by
          cases hrest with
          | nil => cases ha
          | cons => exact ⟨_, mem_cons_self⟩
        exact (hbelow a ha b' hb').trans (hfalling.1 b' hb')
      · exact hbelow a ha b hb

/-- Once the lists have crossed, what was taken from the rising list and what remains of
the falling one lie below the rest. -/
theorem Crossed.lt (h : Crossed rises falls restRises restFalls) {a b : α}
    (ha : a ∈ rises ∨ a ∈ restFalls) (hb : b ∈ falls ∨ b ∈ restRises) : a < b := by
  obtain ⟨hrises, hrestRises, hrisesRest⟩ := pairwise_append.1 h.rising
  obtain ⟨hfalls, hrestFalls, hfallsRest⟩ := pairwise_append.1 h.falling
  rcases ha with ha | ha
  · rcases hb with hb | hb
    · exact lt_of_pairs hrises hfalls h.pairs a ha b hb
    · exact hrisesRest a ha b hb
  · rcases hb with hb | hb
    · exact hfallsRest b hb a ha
    · cases restRises with
      | nil => cases hb
      | cons first rest =>
        cases restFalls with
        | nil => cases ha
        | cons first' rest' =>
          have hcross : first' < first := h.crossed first rfl first' rfl
          rw [pairwise_cons] at hrestRises hrestFalls
          have hle : a ≤ first' := by
            rcases mem_cons.1 ha with rfl | ha
            · exact le_rfl
            · exact (hrestFalls.1 a ha).le
          have hge : first ≤ b := by
            rcases mem_cons.1 hb with rfl | hb
            · exact le_rfl
            · exact (hrestRises.1 b hb).le
          exact hle.trans_lt (hcross.trans_le hge)

/-- A set of numbers without gaps below is an initial segment. -/
theorem mem_iff_lt_card {s : Finset Nat} (h : ∀ a ∈ s, ∀ b < a, b ∈ s) (a : Nat) :
    a ∈ s ↔ a < s.card := by
  have hsubset : s ⊆ Finset.range s.card := by
    intro a ha
    have hrange : Finset.range (a + 1) ⊆ s := by
      intro b hb
      rcases Nat.lt_succ_iff_lt_or_eq.1 (Finset.mem_range.1 hb) with hlt | rfl
      · exact h a ha b hlt
      · exact ha
    have hcard := Finset.card_le_card hrange
    rw [Finset.card_range] at hcard
    exact Finset.mem_range.2 hcard
  have heq : s = Finset.range s.card := Finset.eq_of_subset_of_card_le hsubset (by simp)
  rw [heq, Finset.mem_range, Finset.card_range]

/-- Crossed lists that share no number and leave out none end at the length of the falling
list. -/
theorem Crossed.mem_iff_lt {rises falls restRises restFalls : List Nat}
    (h : Crossed rises falls restRises restFalls)
    (hdisj : ∀ a ∈ rises ++ restRises, a ∉ falls ++ restFalls)
    (hcover : ∀ a ∈ rises ++ restFalls, ∀ b < a,
      b ∈ rises ++ restRises ∨ b ∈ falls ++ restFalls) (a : Nat) :
    (a ∈ rises ++ restFalls ↔ a < (falls ++ restFalls).length) ∧
      (a ∈ falls ++ restRises → (falls ++ restFalls).length ≤ a) := by
  have hnodup : (rises ++ restFalls).Nodup := by
    apply nodup_append.2
    refine ⟨(pairwise_append.1 h.rising).1.imp ne_of_lt,
      (pairwise_append.1 h.falling).2.1.imp ne_of_gt, ?_⟩
    rintro a ha b hb rfl
    exact hdisj a (mem_append_left _ ha) (mem_append_right _ hb)
  have hcard : (rises ++ restFalls).toFinset.card = (falls ++ restFalls).length := by
    rw [toFinset_card_of_nodup hnodup, length_append, length_append, h.pairs.length_eq]
  have hiff : a ∈ rises ++ restFalls ↔ a < (falls ++ restFalls).length := by
    rw [← hcard, ← mem_iff_lt_card _ a, List.mem_toFinset]
    intro a ha b hlt
    rw [List.mem_toFinset] at ha ⊢
    have hlow := mem_append.1 ha
    rcases hcover a ha b hlt with hb | hb
    · rcases mem_append.1 hb with hb | hb
      · exact mem_append_left _ hb
      · exact absurd hlt (h.lt hlow (.inr hb)).asymm
    · rcases mem_append.1 hb with hb | hb
      · exact absurd hlt (h.lt hlow (.inl hb)).asymm
      · exact mem_append_right _ hb
  refine ⟨hiff, fun hhigh => ?_⟩
  by_contra hlt
  have hlow := hiff.2 (Nat.lt_of_not_le hlt)
  exact lt_irrefl a (h.lt (mem_append.1 hlow) (mem_append.1 hhigh))

end Crossing
