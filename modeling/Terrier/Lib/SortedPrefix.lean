import Mathlib.Data.List.TakeWhile
import Mathlib.Tactic

/-!
Prefixes of sorted lists. A loop that walks a list while a condition holds sees a prefix; when
the condition is inherited by everything in front of an element, that prefix is the set of
elements that satisfy it.
-/

namespace SortedPrefix

open List

variable {α : Type*}

def FrontClosed (p : α → Bool) (l : List α) : Prop :=
  l.Pairwise (fun a b => p b = true → p a = true)

variable {p : α → Bool} {l : List α}

theorem takeWhile_congr {q : α → Bool} (h : ∀ a ∈ l, p a = q a) :
    l.takeWhile p = l.takeWhile q := by
  induction l with
  | nil => rfl
  | cons a l ih =>
    have htail := ih (fun b hb => h b (mem_cons_of_mem a hb))
    simp only [takeWhile_cons, h a mem_cons_self, htail]

theorem takeWhile_eq_filter (h : FrontClosed p l) : l.takeWhile p = l.filter p := by
  induction l with
  | nil => rfl
  | cons a l ih =>
    obtain ⟨hhead, htail⟩ := pairwise_cons.mp h
    by_cases hp : p a = true
    · rw [takeWhile_cons_of_pos hp, filter_cons_of_pos hp, ih htail]
    · rw [takeWhile_cons_of_neg hp, filter_cons_of_neg hp, eq_comm, filter_eq_nil_iff]
      intro b hb hpb
      exact hp (hhead b hb hpb)

theorem exists_mem_iff_head (h : FrontClosed p l) :
    (∃ a ∈ l, p a = true) ↔ ∃ a, l.head? = some a ∧ p a = true := by
  cases l with
  | nil => simp
  | cons b l =>
    constructor
    · rintro ⟨a, ha, hp⟩
      rcases mem_cons.mp ha with rfl | ha
      · exact ⟨a, rfl, hp⟩
      · exact ⟨b, rfl, (pairwise_cons.mp h).1 a ha hp⟩
    · rintro ⟨a, ha, hp⟩
      cases ha
      exact ⟨b, mem_cons_self, hp⟩

/-- A list is the walk followed by the elements the walk leaves out. -/
theorem filter_append_filter_not (h : FrontClosed p l) :
    l.filter p ++ l.filter (fun a => !p a) = l := by
  induction l with
  | nil => rfl
  | cons a l ih =>
    obtain ⟨hhead, htail⟩ := pairwise_cons.mp h
    by_cases hp : p a = true
    · simp [hp, ih htail]
    · have hnil : l.filter p = [] := by
        rw [filter_eq_nil_iff]
        exact fun b hb hpb => hp (hhead b hb hpb)
      have hrest := ih htail
      rw [hnil, nil_append] at hrest
      simp [hp, hnil, hrest]

/-- In a strictly increasing list, a strictly increasing choice of elements
that leaves out larger ones only is a prefix. -/
theorem isPrefix_of_lower {β : Type*} [LinearOrder β] {xs l : List β}
    (hxs : xs.Pairwise (· < ·)) (hl : l.Pairwise (· < ·)) (hmem : ∀ x ∈ xs, x ∈ l)
    (hlower : ∀ y ∈ l, y ∉ xs → ∀ x ∈ xs, x < y) : xs <+: l := by
  induction xs generalizing l with
  | nil => exact nil_prefix
  | cons x xs ih =>
    obtain ⟨hx, hxs'⟩ := pairwise_cons.mp hxs
    cases l with
    | nil => exact absurd (hmem x mem_cons_self) not_mem_nil
    | cons y l =>
      obtain ⟨hy, hl'⟩ := pairwise_cons.mp hl
      -- the head of the list is chosen, and then it is the first choice
      have hhead : y = x := by
        by_contra hne
        have hlt : y < x := by
          rcases mem_cons.mp (hmem x mem_cons_self) with heq | hin
          · exact absurd heq.symm hne
          · exact hy x hin
        refine absurd (hlower y mem_cons_self ?_ x mem_cons_self) hlt.asymm
        intro hin
        rcases mem_cons.mp hin with heq | hin
        · exact hne heq
        · exact (hx y hin).asymm hlt
      subst hhead
      refine cons_prefix_cons.mpr ⟨rfl, ih hxs' hl' ?_ ?_⟩
      · intro z hz
        rcases mem_cons.mp (hmem z (mem_cons_of_mem y hz)) with rfl | hin
        · exact absurd (hx z hz) (lt_irrefl z)
        · exact hin
      · intro z hz hnot w hw
        refine hlower z (mem_cons_of_mem y hz) ?_ w (mem_cons_of_mem y hw)
        intro hin
        rcases mem_cons.mp hin with rfl | hin
        · exact (hy z hz).ne rfl
        · exact hnot hin

end SortedPrefix
