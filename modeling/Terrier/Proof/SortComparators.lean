import Terrier.Compiler.SortTranslator

/-!
When the comparator is a total preorder on the rows of a type. A row that is NULL or NaN in a key
ties there with rows that differ from each other; the later keys must not put it where it closes a
cycle.
-/

namespace Terrier.Compiler

open List

variable {ρ α : Type} [LinearOrder α] {key : SortKey ρ α} {keys : List (SortKey ρ α)} {a b c : ρ}

/-- Neither NULL nor NaN. -/
def KeyValue.IsOrdered (value : KeyValue α) : Prop :=
  ∃ x, value = .ordered x

theorem sqlLess_eq_some_true {left right : KeyValue α} :
    sqlLess left right = some true ↔ ∃ x y, left = .ordered x ∧ right = .ordered y ∧ x < y := by
  cases left <;> cases right <;> simp [sqlLess]

theorem sqlLess_asymm {left right : KeyValue α} (h : sqlLess left right = some true) :
    ¬ sqlLess right left = some true := by
  obtain ⟨x, y, rfl, rfl, hlt⟩ := sqlLess_eq_some_true.mp h
  simp [sqlLess, hlt.le]

namespace SortKey

def Before (key : SortKey ρ α) (a b : ρ) : Prop :=
  match key.order with
  | .asc => sqlLess (key.value a) (key.value b) = some true
  | .desc => sqlLess (key.value b) (key.value a) = some true

def Ties (key : SortKey ρ α) (a b : ρ) : Prop :=
  ¬ key.Before a b ∧ ¬ key.Before b a

theorem ties_of_unordered (h : ¬ (key.value a).IsOrdered) (b : ρ) :
    key.Ties a b ∧ key.Ties b a := by
  have hnone : ∀ x, key.value a ≠ .ordered x := fun x hx => h ⟨x, hx⟩
  unfold Ties Before
  cases key.order <;> simp [sqlLess_eq_some_true, hnone]

/-- A row is NULL or NaN in the key if it is separated from neither of two that are. -/
theorem Before.unordered (h : key.Before a c) (hab : ¬ key.Before a b) (hbc : ¬ key.Before b c) :
    ¬ (key.value b).IsOrdered := by
  rintro ⟨y, hy⟩
  unfold Before at *
  cases horder : key.order <;> rw [horder] at h hab hbc <;>
    obtain ⟨x, z, hx, hz, hlt⟩ := sqlLess_eq_some_true.mp h <;>
    simp only [hx, hy, hz, sqlLess, Option.some.injEq, decide_eq_true_eq] at hab hbc
  · exact hbc ((not_lt.1 hab).trans_lt hlt)
  · exact hab ((not_lt.1 hbc).trans_lt hlt)

theorem Ties.value_eq (h : key.Ties a b) (ha : (key.value a).IsOrdered)
    (hb : (key.value b).IsOrdered) : key.value a = key.value b := by
  obtain ⟨x, hx⟩ := ha
  obtain ⟨y, hy⟩ := hb
  have hxy : ¬ x < y ∧ ¬ y < x := by
    unfold Ties Before at h
    cases horder : key.order <;> simp_all [sqlLess]
  rw [hx, hy, le_antisymm (not_lt.mp hxy.2) (not_lt.mp hxy.1)]

end SortKey

def Preceding : List (SortKey ρ α) → ρ → ρ → Prop
  | [], _, _ => False
  | key :: keys, a, b => key.Before a b ∨ ¬ key.Before b a ∧ Preceding keys a b

theorem preceding_cons_of_ties (h : key.Ties a b) :
    Preceding (key :: keys) a b ↔ Preceding keys a b := by
  simp [Preceding, h.1, h.2]

theorem genComparisons_neg_iff : genComparisons keys a b < 0 ↔ Preceding keys a b := by
  induction keys with
  | nil => simp [genComparisons, Preceding]
  | cons key keys ih =>
    rw [genComparisons, Preceding, SortKey.Before, SortKey.Before]
    by_cases hless : sqlLess (key.value a) (key.value b) = some true
    · have hgreater := sqlLess_asymm hless
      cases key.order <;> simp [hless, hgreater]
    · by_cases hgreater : sqlLess (key.value b) (key.value a) = some true
      · cases key.order <;> simp [hless, hgreater, sqlGreater]
      · cases key.order <;> simp [hless, hgreater, sqlGreater, ih]

theorem genComparisons_swap : genComparisons keys b a = -genComparisons keys a b := by
  induction keys with
  | nil => rfl
  | cons key keys ih =>
    rw [genComparisons, genComparisons, sqlGreater, sqlGreater, ih]
    by_cases hless : sqlLess (key.value a) (key.value b) = some true
    · simp [hless, sqlLess_asymm hless]
    · by_cases hgreater : sqlLess (key.value b) (key.value a) = some true
      · simp [hless, hgreater]
      · simp [hless, hgreater]

theorem genComparisons_nonpos_iff : genComparisons keys a b ≤ 0 ↔ ¬ Preceding keys b a := by
  rw [← genComparisons_neg_iff, genComparisons_swap]
  omega

theorem Preceding.asymm (h : Preceding keys a b) : ¬ Preceding keys b a := by
  rw [← genComparisons_neg_iff] at h ⊢
  rw [genComparisons_swap]
  omega

/-- Where a row is NULL or NaN in a key in which two others differ, all three tied before, the
later keys put the first of the two before it or it before the second. -/
def Separated : List (SortKey ρ α) → ρ → ρ → ρ → Prop
  | [], _, _, _ => True
  | key :: keys, p, q, n =>
    (¬ (key.value n).IsOrdered → key.Before p q → Preceding keys p n ∨ Preceding keys n q) ∧
      (key.Ties p q → key.Ties p n → key.Ties n q → Separated keys p q n)

theorem separated_of_cotrans (h : Preceding keys a c → Preceding keys a b ∨ Preceding keys b c) :
    Separated keys a c b := by
  induction keys with
  | nil => trivial
  | cons key keys ih =>
    constructor
    · intro hunordered hac
      have hcut := h (.inl hac)
      rwa [preceding_cons_of_ties (key.ties_of_unordered hunordered a).2,
        preceding_cons_of_ties (key.ties_of_unordered hunordered c).1] at hcut
    · intro hac hab hbc
      rw [preceding_cons_of_ties hac, preceding_cons_of_ties hab, preceding_cons_of_ties hbc] at h
      exact ih h

theorem cotrans_of_separated (hb : Separated keys a c b) (hc : Separated keys b a c)
    (ha : Separated keys c b a) (h : Preceding keys a c) :
    Preceding keys a b ∨ Preceding keys b c := by
  induction keys with
  | nil => cases h
  | cons key keys ih =>
    by_cases hab : key.Before a b
    · exact .inl (.inl hab)
    by_cases hbc : key.Before b c
    · exact .inr (.inl hbc)
    by_cases hac : key.Before a c
    · have hunordered := hac.unordered hab hbc
      rw [preceding_cons_of_ties (key.ties_of_unordered hunordered a).2,
        preceding_cons_of_ties (key.ties_of_unordered hunordered c).1]
      exact hb.1 hunordered hac
    obtain ⟨hca, h⟩ := h.resolve_left hac
    -- the key ties the outer rows; a row in the middle that it does not tie with them is seen
    -- from a NULL or NaN in one of them
    by_cases hba : key.Before b a
    · have hunordered := hba.unordered hbc hca
      right
      rw [preceding_cons_of_ties (key.ties_of_unordered hunordered b).2]
      exact (hc.1 hunordered hba).resolve_right h.asymm
    by_cases hcb : key.Before c b
    · have hunordered := hcb.unordered hca hab
      left
      rw [preceding_cons_of_ties (key.ties_of_unordered hunordered b).1]
      exact (ha.1 hunordered hcb).resolve_left h.asymm
    rw [preceding_cons_of_ties ⟨hab, hba⟩, preceding_cons_of_ties ⟨hbc, hcb⟩]
    exact ih (hb.2 ⟨hac, hca⟩ ⟨hab, hba⟩ ⟨hbc, hcb⟩) (hc.2 ⟨hba, hab⟩ ⟨hbc, hcb⟩ ⟨hca, hac⟩)
      (ha.2 ⟨hcb, hbc⟩ ⟨hca, hac⟩ ⟨hab, hba⟩) h

def Requested : List (SortKey ρ α) → ρ → ρ → Prop
  | [], _, _ => True
  | key :: keys, a, b => key.Before a b ∨ key.value a = key.value b ∧ Requested keys a b

def AllOrdered (keys : List (SortKey ρ α)) (row : ρ) : Prop :=
  ∀ key ∈ keys, (key.value row).IsOrdered

structure ComparesRows (keys : List (SortKey ρ α)) : Prop where
  antisymm (a b : ρ) : genComparisons keys b a = -genComparisons keys a b
  trans (a b c : ρ) : genComparisons keys a b ≤ 0 → genComparisons keys b c ≤ 0 →
    genComparisons keys a c ≤ 0
  zero_trans (a b c : ρ) : genComparisons keys a b = 0 → genComparisons keys b c = 0 →
    genComparisons keys a c = 0
  ordered (rows : List ρ) : rows.IsChain (fun a b => genComparisons keys a b ≤ 0) →
    rows.Pairwise fun a b => AllOrdered keys a → AllOrdered keys b → Requested keys a b

theorem requested_of_nonpos (ha : AllOrdered keys a) (hb : AllOrdered keys b)
    (h : genComparisons keys a b ≤ 0) : Requested keys a b := by
  rw [genComparisons_nonpos_iff] at h
  induction keys with
  | nil => trivial
  | cons key keys ih =>
    obtain ⟨hba, h⟩ := not_or.mp h
    by_cases hab : key.Before a b
    · exact .inl hab
    · have heq := SortKey.Ties.value_eq ⟨hab, hba⟩ (ha key mem_cons_self) (hb key mem_cons_self)
      exact .inr ⟨heq, ih (fun k hk => ha k (mem_cons_of_mem _ hk))
        (fun k hk => hb k (mem_cons_of_mem _ hk)) fun hprec => h ⟨hab, hprec⟩⟩

/-- The comparator is a total preorder exactly if no NULL or NaN lets later keys close a
cycle. -/
theorem comparesRows_iff (keys : List (SortKey ρ α)) :
    ComparesRows keys ↔ ∀ p q n, Separated keys p q n := by
  constructor
  · intro h p q n
    apply separated_of_cotrans
    intro hpq
    by_contra hcut
    rw [not_or, ← genComparisons_nonpos_iff, ← genComparisons_nonpos_iff] at hcut
    exact genComparisons_nonpos_iff.mp (h.trans q n p hcut.2 hcut.1) hpq
  · intro h
    have htrans : ∀ a b c, genComparisons keys a b ≤ 0 → genComparisons keys b c ≤ 0 →
        genComparisons keys a c ≤ 0 := by
      intro a b c
      simp only [genComparisons_nonpos_iff]
      intro hba hcb hca
      exact (cotrans_of_separated (h c a b) (h b c a) (h a b c) hca).elim hcb hba
    refine ⟨fun a b => genComparisons_swap, htrans, fun a b c hab hbc => ?_, fun rows hrows => ?_⟩
    · have hca := htrans c b a (by rw [genComparisons_swap]; omega)
        (by rw [genComparisons_swap]; omega)
      have hac := htrans a b c hab.le hbc.le
      rw [genComparisons_swap] at hca
      omega
    · have : Trans (fun a b => genComparisons keys a b ≤ 0) (fun a b => genComparisons keys a b ≤ 0)
          (fun a b => genComparisons keys a b ≤ 0) := ⟨fun hab hbc => htrans _ _ _ hab hbc⟩
      exact (isChain_iff_pairwise.mp hrows).imp fun hab ha hb => requested_of_nonpos ha hb hab

/-- 2 is not above NULL and NULL is not above 1. -/
theorem null_not_comparesRows : ¬ ComparesRows [(⟨id, .asc⟩ : SortKey (KeyValue Nat) Nat)] := by
  intro h
  exact absurd (h.trans (.ordered 2) .null (.ordered 1) (by decide) (by decide)) (by decide)

end Terrier.Compiler
