import Terrier.Optimizer.IndexUtil

/-!
What the choice of an index finds out about the predicates: where the bounds come
from, which key columns have them, and when the scan is for one key.
-/

namespace Terrier.Optimizer

open Network (Value)
open Sql
open List

variable {index : Index} {ranges next : OpenRanges} {predicates : List Predicate}
  {predicate : Predicate} {source key : Nat} {expr : IndexExpression}

inductive End
  | low
  | high
  deriving DecidableEq

namespace End

def bounds : End → OpenRanges → BoundMap
  | low, ranges => ranges.highs
  | high, ranges => ranges.lows

def bindsWith : End → CompareOp → Bool
  | low, op => op = .equal || op = .greater || op = .greaterEqual
  | high, op => op = .equal || op = .less || op = .lessEqual

def of (bound : KeyBound) : End → Option IndexExpression
  | low => bound.lo
  | high => bound.hi

end End

def BindsKey (index : Index) (side : End) (predicate : Predicate) (key : Nat) (value : Value) :
    Prop :=
  ∃ column op, indexComparison predicate = some (column, op, value) ∧
    column ∈ index.columns ∧ index.columns.idxOf column = key ∧ side.bindsWith op = true

variable {added : IndexExpression} {place : Nat} {final : OpenRanges} {side : End}

theorem emplace_lookup {map map' : BoundMap} (h : emplace map place added = some map') :
    expr ∈ map'.lookup key ↔ expr ∈ map.lookup key ∨ key = place ∧ expr = added := by
  unfold emplace at h
  split_ifs at h with hmem
  cases h
  by_cases hkey : key = place
  · subst hkey
    rw [AList.lookup_insert, AList.lookup_eq_none.2 hmem]
    simp [eq_comm]
  · rw [AList.lookup_insert_ne hkey]
    simp [hkey]

theorem addComparison_lookup {op : CompareOp}
    (h : addComparison ranges place added op = some next) (side : End) :
    expr ∈ (side.bounds next).lookup key ↔ expr ∈ (side.bounds ranges).lookup key ∨
      key = place ∧ expr = added ∧ side.bindsWith op = true := by
  cases op with
  | equal =>
    obtain ⟨highs, hhighs, h⟩ := Option.bind_eq_some_iff.1 h
    obtain ⟨lows, hlows, h⟩ := Option.bind_eq_some_iff.1 h
    cases h
    cases side
    · simpa [End.bounds, End.bindsWith] using emplace_lookup hhighs
    · simpa [End.bounds, End.bindsWith] using emplace_lookup hlows
  | notEqual =>
    cases h
    cases side <;> simp [End.bindsWith]
  | less | lessEqual =>
    obtain ⟨lows, hlows, h⟩ := Option.bind_eq_some_iff.1 h
    cases h
    cases side
    · simp [End.bounds, End.bindsWith]
    · simpa [End.bounds, End.bindsWith] using emplace_lookup hlows
  | greater | greaterEqual =>
    obtain ⟨highs, hhighs, h⟩ := Option.bind_eq_some_iff.1 h
    cases h
    cases side
    · simpa [End.bounds, End.bindsWith] using emplace_lookup hhighs
    · simp [End.bounds, End.bindsWith]

theorem addPredicate_lookup (h : addPredicate index ranges predicate source = some next)
    (side : End) :
    expr ∈ (side.bounds next).lookup key ↔ expr ∈ (side.bounds ranges).lookup key ∨
      expr.source = source ∧ BindsKey index side predicate key expr.value := by
  cases predicate with
  | isNull | isNotNull | and | or | not => cases h
  | compare op left right =>
    rw [addPredicate] at h
    split at h
    case h_2 hnone =>
      cases h
      simp [BindsKey, hnone]
    case h_1 column op' value hsome =>
      split_ifs at h with hcol
      · rw [addComparison_lookup h side]
        apply or_congr_right
        constructor
        · rintro ⟨rfl, rfl, hop⟩
          exact ⟨rfl, column, op', hsome, hcol, rfl, hop⟩
        · rintro ⟨hsrc, column', op'', hsome', _, hkey, hop⟩
          rw [hsome] at hsome'
          cases hsome'
          cases expr
          cases hsrc
          exact ⟨hkey.symm, rfl, hop⟩
      · cases h
        have hnot : ¬ BindsKey index side (.compare op left right) key expr.value := by
          rintro ⟨column', op'', hsome', hcol', _⟩
          rw [hsome] at hsome'
          cases hsome'
          exact hcol hcol'
        simp [hnot]

theorem collectRanges_lookup (h : collectRanges index predicates source ranges = some final)
    (side : End) : expr ∈ (side.bounds final).lookup key ↔ expr ∈ (side.bounds ranges).lookup key ∨
      ∃ predicate, (predicate, expr.source) ∈ predicates.zipIdx source ∧
        BindsKey index side predicate key expr.value := by
  induction predicates generalizing source ranges with
  | nil =>
    cases h
    simp
  | cons first rest ih =>
    obtain ⟨mid, hmid, h⟩ := Option.bind_eq_some_iff.1 h
    rw [ih h, addPredicate_lookup hmid side, or_assoc]
    simp only [zipIdx_cons, mem_cons, Prod.mk.injEq, or_and_right, exists_or,
      and_assoc, exists_eq_left]

theorem found_iff (h : collectRanges index predicates 0 ⟨∅, ∅⟩ = some final) (side : End) :
    expr ∈ (side.bounds final).lookup key ↔
      ∃ predicate, (predicate, expr.source) ∈ predicates.zipIdx ∧
        BindsKey index side predicate key expr.value := by
  rw [collectRanges_lookup h side]
  cases side <;> simp [End.bounds]

def TakenFrom (ranges : OpenRanges) (bound : KeyBound) : Prop :=
  ∀ side : End, ∀ expr ∈ side.of bound, expr ∈ (side.bounds ranges).lookup bound.key

variable {type : IndexScanType} {keys : List Nat}

theorem chooseBounds_taken :
    ∀ bound ∈ (chooseBounds ranges keys type).2, TakenFrom ranges bound := by
  induction keys generalizing type with
  | nil => simp [chooseBounds]
  | cons key rest ih =>
    rw [chooseBounds]
    split
    · simp
    · rename_i lo hi hlo hhi
      rintro bound (_ | ⟨_, hbound⟩)
      · rintro (_ | _) expr ⟨⟩
        exacts [hlo, hhi]
      · exact ih bound hbound
    · rename_i lo hlo hhi
      split_ifs
      · simp
      · rintro bound (_ | ⟨_, hbound⟩)
        · rintro (_ | _) expr ⟨⟩
          exact hlo
        · exact ih bound hbound
    · rename_i hi hlo hhi
      split_ifs
      · simp
      · rintro bound (_ | ⟨_, hbound⟩)
        · rintro (_ | _) expr ⟨⟩
          exact hhi
        · exact ih bound hbound

theorem chooseBounds_keys (start count : Nat) (type : IndexScanType) :
    (chooseBounds ranges (List.range' start count) type).2.map (·.key) =
      List.range' start (chooseBounds ranges (List.range' start count) type).2.length := by
  induction count generalizing start type with
  | zero => rfl
  | succ count ih =>
    rw [range'_succ, chooseBounds]
    split
    · rfl
    · simp only [map_cons, length_cons, range'_succ, ih]
    all_goals
      split_ifs
      · rfl
      · simp only [map_cons, length_cons, range'_succ, ih]

def usesEnd : IndexScanType → End → Bool
  | .exact, _ | .ascendingClosed, _ => true
  | .ascendingOpenHigh, side => side = .low
  | .ascendingOpenLow, side => side = .high
  | .ascendingOpenBoth, _ => false

theorem usesEnd_of_chooseBounds (h : usesEnd (chooseBounds ranges keys type).1 side = true) :
    usesEnd type side = true := by
  induction keys generalizing type with
  | nil => exact h
  | cons key rest ih =>
    rw [chooseBounds] at h
    split at h
    · exact h
    · have := ih h
      split_ifs at this with htype
      · rw [htype.2]
        rfl
      · exact this
    all_goals
      split_ifs at h with htype
      · exact h
      · have := ih h
        cases type <;> simp_all [usesEnd]

/-- Every bound taken up has the ends that the scan makes use of. -/
theorem chooseBounds_has_end {side : End}
    (h : usesEnd (chooseBounds ranges keys type).1 side = true) :
    ∀ bound ∈ (chooseBounds ranges keys type).2, (side.of bound).isSome := by
  induction keys generalizing type with
  | nil => simp [chooseBounds]
  | cons key rest ih =>
    rw [chooseBounds] at h ⊢
    split at h
    · simp
    · rintro bound (_ | ⟨_, hbound⟩)
      · cases side <;> rfl
      · exact ih h bound hbound
    all_goals
      split_ifs at h ⊢ with htype
      · simp
      · rintro bound (_ | ⟨_, hbound⟩)
        · have := usesEnd_of_chooseBounds h
          cases side <;> simp_all [usesEnd, End.of]
        · exact ih h bound hbound

theorem chooseBounds_ne_openBoth (htype : type ≠ .ascendingOpenBoth) :
    (chooseBounds ranges keys type).1 ≠ .ascendingOpenBoth := by
  induction keys generalizing type with
  | nil => exact htype
  | cons key rest ih =>
    rw [chooseBounds]
    split
    · exact htype
    · apply ih
      split_ifs
      · simp
      · exact htype
    all_goals
      split_ifs
      · exact htype
      · exact ih (by simp)

def Pinned (ranges : OpenRanges) (keys : List Nat) : Prop :=
  ∀ key ∈ keys, ∃ expr, expr ∈ ranges.highs.lookup key ∧ expr ∈ ranges.lows.lookup key

theorem chooseBounds_of_pinned (h : Pinned ranges keys) :
    (chooseBounds ranges keys .exact).1 = .exact ∧
      (chooseBounds ranges keys .exact).2.length = keys.length := by
  induction keys with
  | nil => exact ⟨rfl, rfl⟩
  | cons key rest ih =>
    obtain ⟨expr, hhigh, hlow⟩ := h key mem_cons_self
    have hrest := ih fun key hkey => h key (mem_cons_of_mem _ hkey)
    rw [chooseBounds, hhigh, hlow]
    simpa using hrest

theorem pinned_of_exact
    (hbounds : ∀ key ∈ keys, ∀ side : End, ((side.bounds ranges).lookup key).isSome)
    (h : (chooseBounds ranges keys type).1 = .exact) : type = .exact ∧ Pinned ranges keys := by
  induction keys generalizing type with
  | nil => exact ⟨h, by simp [Pinned]⟩
  | cons key rest ih =>
    obtain ⟨lo, hlo⟩ := Option.isSome_iff_exists.1 (hbounds key mem_cons_self .low)
    obtain ⟨hi, hhi⟩ := Option.isSome_iff_exists.1 (hbounds key mem_cons_self .high)
    rw [chooseBounds, show ranges.highs.lookup key = some lo from hlo,
      show ranges.lows.lookup key = some hi from hhi] at h
    obtain ⟨htype, hrest⟩ := ih (fun key hkey => hbounds key (mem_cons_of_mem _ hkey)) h
    split_ifs at htype with hdiffer
    subst htype
    have hsame : lo = hi := by
      by_contra hne
      exact hdiffer ⟨hne, rfl⟩
    subst hsame
    refine ⟨rfl, ?_⟩
    rintro key' (_ | ⟨_, hkey'⟩)
    · exact ⟨lo, hlo, hhi⟩
    · exact hrest key' hkey'

theorem exact_start (h : (chooseBounds ranges keys type).1 = .exact) : type = .exact := by
  induction keys generalizing type with
  | nil => exact h
  | cons key rest ih =>
    rw [chooseBounds] at h
    split at h
    · exact h
    · have htype := ih h
      split_ifs at htype
      exact htype
    all_goals
      split_ifs at h
      · exact h
      · cases ih h

theorem key_lt_of_binds {value : Value} (h : BindsKey index side predicate key value) :
    key < index.columns.length := by
  obtain ⟨column, _, _, hcol, rfl, _⟩ := h
  exact idxOf_lt_length_of_mem hcol

section

variable (hranges : collectRanges index predicates 0 ⟨∅, ∅⟩ = some ranges)
include hranges

theorem keys_length_iff (side : End) : (side.bounds ranges).keys.length = index.columns.length ↔
      ∀ key < index.columns.length, key ∈ side.bounds ranges := by
  have hnodup := (side.bounds ranges).keys_nodup
  have hsubset : (side.bounds ranges).keys ⊆ List.range index.columns.length := by
    intro key hkey
    obtain ⟨expr, hexpr⟩ := Option.isSome_iff_exists.1 (AList.lookup_isSome.2 hkey)
    obtain ⟨_, _, hbinds⟩ := (found_iff hranges side).1 hexpr
    exact mem_range.2 (key_lt_of_binds hbinds)
  have hsub := hnodup.subperm hsubset
  constructor
  · intro hlen key hkey
    have hperm := hsub.perm_of_length_le (by simp [hlen])
    exact hperm.mem_iff.2 (mem_range.2 hkey)
  · intro hall
    have hrange := (nodup_range (n := index.columns.length)).subperm
      fun key hkey => hall key (mem_range.1 hkey)
    have hle := hsub.length_le
    have hge := hrange.length_le
    rw [length_range] at hle hge
    exact le_antisymm hle hge

def EqualOnKey (index : Index) (predicates : List Predicate) : Prop :=
  index.columns.Nodup ∧ ∀ column ∈ index.columns, ∃ predicate ∈ predicates, ∃ value,
    indexComparison predicate = some (column, .equal, value)

theorem equal_of_pinned (hhigh : expr ∈ ranges.highs.lookup key)
    (hlow : expr ∈ ranges.lows.lookup key) :
    ∃ predicate ∈ predicates, ∃ column ∈ index.columns,
      indexComparison predicate = some (column, .equal, expr.value) ∧
        index.columns.idxOf column = key := by
  obtain ⟨predicate, hmem, column, op, hcmp, hcol, hkey, hop⟩ :=
    (found_iff hranges .low).1 hhigh
  obtain ⟨predicate', hmem', column', op', hcmp', _, _, hop'⟩ :=
    (found_iff hranges .high).1 hlow
  rw [mem_zipIdx_iff_getElem?] at hmem hmem'
  rw [hmem] at hmem'
  cases hmem'
  rw [hcmp] at hcmp'
  cases hcmp'
  refine ⟨predicate, mem_of_getElem? hmem, column, hcol, ?_, hkey⟩
  cases op <;> simp_all [End.bindsWith]

theorem equalOnKey_of_pinned (h : Pinned ranges (List.range index.columns.length)) :
    EqualOnKey index predicates := by
  have hequal (key : Nat) (hkey : key < index.columns.length) :
      ∃ predicate ∈ predicates, ∃ column ∈ index.columns, ∃ value,
        indexComparison predicate = some (column, .equal, value) ∧
          index.columns.idxOf column = key := by
    obtain ⟨expr, hhigh, hlow⟩ := h key (mem_range.2 hkey)
    obtain ⟨predicate, hmem, column, hcol, hcmp, hplace⟩ :=
      equal_of_pinned hranges hhigh hlow
    exact ⟨predicate, hmem, column, hcol, expr.value, hcmp, hplace⟩
  constructor
  · apply nodup_iff_injective_get.2
    intro a b hab
    obtain ⟨_, _, column, hcol, _, _, hkey⟩ := hequal a a.2
    obtain ⟨_, _, column', hcol', _, _, hkey'⟩ := hequal b b.2
    have ha : index.columns.get a = column := by simp [← hkey]
    have hb : index.columns.get b = column' := by simp [← hkey']
    apply Fin.ext
    rw [← hkey, ← hkey', ← ha, ← hb, hab]
  · intro column hcol
    obtain ⟨predicate, hmem, column', hcol', value, hcmp, hkey⟩ :=
      hequal _ (idxOf_lt_length_of_mem hcol)
    have hsame : column' = column := (idxOf_inj hcol').1 hkey
    exact ⟨predicate, hmem, value, hsame ▸ hcmp⟩

theorem pinned_of_equalOnKey (h : EqualOnKey index predicates) :
    Pinned ranges (List.range index.columns.length) := by
  intro key hkey
  rw [mem_range] at hkey
  obtain ⟨predicate, hmem, value, hcmp⟩ := h.2 _ (getElem_mem hkey)
  obtain ⟨place, hplace⟩ := mem_iff_getElem?.1 hmem
  have hbinds (side : End) : BindsKey index side predicate key value := by
    refine ⟨_, _, hcmp, getElem_mem hkey, ?_, ?_⟩
    · exact h.1.idxOf_getElem key hkey
    · cases side <;> rfl
  refine ⟨⟨place, value⟩, ?_, ?_⟩
  · exact (found_iff hranges .low).2 ⟨predicate, mem_zipIdx_iff_getElem?.2 hplace, hbinds _⟩
  · exact (found_iff hranges .high).2 ⟨predicate, mem_zipIdx_iff_getElem?.2 hplace, hbinds _⟩

/-- The scan is for one key exactly if every key column is compared for equality. -/
theorem exact_iff :
    (chooseBounds ranges (List.range index.columns.length) (initialType index ranges)).1 =
      .exact ↔ EqualOnKey index predicates := by
  have hlow := keys_length_iff hranges .low
  have hhigh := keys_length_iff hranges .high
  constructor
  · intro h
    have hstart := exact_start h
    unfold initialType at hstart
    split_ifs at hstart with hsizes
    have hbounds : ∀ key ∈ List.range index.columns.length, ∀ side : End,
        ((side.bounds ranges).lookup key).isSome := by
      intro key hkey side
      apply AList.lookup_isSome.2
      cases side
      · exact hlow.1 hsizes.2 key (mem_range.1 hkey)
      · exact hhigh.1 (hsizes.1.symm.trans hsizes.2) key (mem_range.1 hkey)
    exact equalOnKey_of_pinned hranges (pinned_of_exact hbounds h).2
  · intro h
    have hpinned := pinned_of_equalOnKey hranges h
    have hsize : ranges.highs.keys.length = index.columns.length := by
      apply hlow.2
      intro key hkey
      obtain ⟨expr, hexpr, _⟩ := hpinned key (mem_range.2 hkey)
      exact AList.lookup_isSome.1 (Option.isSome_iff_exists.2 ⟨expr, hexpr⟩)
    have hsize' : ranges.lows.keys.length = index.columns.length := by
      apply hhigh.2
      intro key hkey
      obtain ⟨expr, _, hexpr⟩ := hpinned key (mem_range.2 hkey)
      exact AList.lookup_isSome.1 (Option.isSome_iff_exists.2 ⟨expr, hexpr⟩)
    rw [initialType, if_pos ⟨hsize.trans hsize'.symm, hsize⟩]
    exact (chooseBounds_of_pinned hpinned).1

end

end Terrier.Optimizer
