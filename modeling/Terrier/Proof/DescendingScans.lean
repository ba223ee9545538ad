import Terrier.Index.BwTreeIndex
import Terrier.Lib.SortedPrefix

/-!
What descending scans return. They start at the first of the entries under the high
key, so that all others under it are missed.
-/

namespace Terrier.Index

open List

structure StrictWeak {K : Type} (less : K → K → Bool) : Prop where
  asymm : ∀ {a b}, less a b = true → less b a = false
  negTrans : ∀ {a b c}, less a b = false → less b c = false → less a c = false

namespace BwTree

variable {K : Type} {less : K → K → Bool} {tree : BwTree K less}
  {isVisible : TupleSlot → Bool} {lowKey highKey : K}

def below (tree : BwTree K less) (highKey : K) : List (K × TupleSlot) :=
  tree.entries.filter fun entry => less entry.1 highKey

def under (tree : BwTree K less) (highKey : K) : List (K × TupleSlot) :=
  tree.entries.filter fun entry => !less entry.1 highKey && !less highKey entry.1

def wanted (less : K → K → Bool) (isVisible : TupleSlot → Bool) (lowKey : K)
    (entry : K × TupleSlot) : Bool :=
  isVisible entry.2 && !less entry.1 lowKey

structure Answers (tree : BwTree K less) (isVisible : TupleSlot → Bool) (lowKey highKey : K)
    (answer : List (K × TupleSlot)) : Prop where
  complete : answer.Perm (tree.entries.filter fun entry =>
    !less entry.1 lowKey && !less highKey entry.1 && isVisible entry.2)
  falling : answer.Pairwise fun a b => less a.1 b.1 = false

theorem frontClosed_below (hless : StrictWeak less) (tree : BwTree K less) (key : K) :
    SortedPrefix.FrontClosed (fun entry => less entry.1 key) tree.entries := by
  apply tree.sorted.imp
  intro a b hab hb
  by_contra ha
  have := hless.negTrans hab (Bool.eq_false_of_not_eq_true ha)
  simp [this] at hb

theorem begin_eq (hless : StrictWeak less) (tree : BwTree K less) (key : K) :
    tree.begin key = (tree.below key).length + 1 := by
  rw [begin, below, ← SortedPrefix.takeWhile_eq_filter (frontClosed_below hless tree key)]
  induction tree.entries with
  | nil => rfl
  | cons entry rest ih =>
    rw [findIdx_cons, takeWhile_cons]
    cases less entry.1 key with
    | true => simp [ih]
    | false => simp

theorem take_startDown (hless : StrictWeak less) (tree : BwTree K less) (highKey : K) :
    tree.entries.take (tree.startDown highKey) =
      tree.below highKey ++ (tree.under highKey).take 1 := by
  have hsplit := SortedPrefix.filter_append_filter_not (frontClosed_below hless tree highKey)
  have hsort := tree.sorted
  have hunder : tree.under highKey = (tree.entries.filter fun entry => !less entry.1 highKey).filter
      fun entry => !less highKey entry.1 := by
    rw [under, List.filter_filter]
    exact filter_congr fun _ _ => Bool.and_comm _ _
  rw [startDown, begin_eq hless, isBehind, hunder, Nat.add_sub_cancel]
  change tree.below highKey ++ _ = _ at hsplit
  generalize tree.entries.filter (fun entry => !less entry.1 highKey) = above at hsplit ⊢
  rw [← hsplit] at hsort ⊢
  cases above with
  | nil => simp
  | cons first rest =>
    cases hfirst : less highKey first.1 with
    | false => simp [hfirst, take_append]
    | true =>
      -- the first entry not below the high key is above it, and then all others are
      have hnone : (first :: rest).filter (fun entry => !less highKey entry.1) = [] := by
        apply filter_eq_nil_iff.mpr
        intro entry hentry
        rcases mem_cons.mp hentry with rfl | hrest
        · simp [hfirst]
        · have hle := (pairwise_cons.mp (pairwise_append.mp hsort).2.1).1 entry hrest
          intro hnot
          rw [Bool.not_eq_true'] at hnot
          rw [hless.negTrans hnot hle] at hfirst
          cases hfirst
      simp [hnone, hfirst]

theorem scanDown_eq (tree : BwTree K less) (isVisible : TupleSlot → Bool) (lowKey : K)
    (limit : Option Nat) {place : Nat} (hplace : place ≤ tree.entries.length)
    (valueList : List TupleSlot) :
    tree.scanDown isVisible lowKey limit place valueList =
      let found := (((tree.entries.take place).reverse.takeWhile fun entry =>
        !less entry.1 lowKey).filter fun entry => isVisible entry.2).map Prod.snd
      valueList ++ limit.elim found fun limit => found.take (limit - valueList.length) := by
  induction place generalizing valueList with
  | zero => cases limit <;> simp [scanDown]
  | succ place ih =>
    have hrest := ih (by omega)
    have hlt : place < tree.entries.length := by omega
    simp only [scanDown, getElem?_eq_getElem hlt, take_succ_eq_append_getElem hlt,
      reverse_append, reverse_singleton, singleton_append, takeWhile_cons,
      hrest]
    generalize tree.entries[place] = entry
    cases less entry.1 lowKey with
    | true => cases limit <;> simp
    | false =>
      cases limit with
      | none => cases hvis : isVisible entry.2 <;> simp [hvis]
      | some limit =>
        by_cases hfull : limit ≤ valueList.length
        · simp [hfull, Nat.sub_eq_zero_of_le hfull]
        · obtain ⟨more, hmore⟩ : ∃ more, limit - valueList.length = more + 1 :=
            ⟨limit - valueList.length - 1, by omega⟩
          have hless : limit - (valueList.length + 1) = more := by omega
          cases hvis : isVisible entry.2 <;> simp [hvis, hfull, hmore, hless]

section Scans

variable (hless : StrictWeak less)

include hless

theorem scanDown_startDown (limit : Option Nat) :
    tree.scanDown isVisible lowKey limit (tree.startDown highKey) [] =
      let found := ((tree.below highKey ++ (tree.under highKey).take 1).filter
        (wanted less isVisible lowKey)).reverse.map Prod.snd
      limit.elim found fun limit => found.take limit := by
  have htake := take_startDown hless tree highKey
  have hplace : tree.startDown highKey ≤ tree.entries.length := by
    have hle : tree.entries.findIdx (fun entry => !less entry.1 highKey) ≤ tree.entries.length :=
      findIdx_le_length
    rw [startDown, isBehind, begin]
    split
    · simp only [↓reduceIte]
      omega
    · rename_i entry hentry
      have := (List.getElem?_eq_some_iff.mp hentry).1
      split <;> omega
  have hclose : SortedPrefix.FrontClosed (fun entry => !less entry.1 lowKey)
      (tree.entries.take (tree.startDown highKey)).reverse := by
    apply pairwise_reverse.mpr
    apply (tree.sorted.sublist (take_sublist _ _)).imp
    intro a b hab ha
    simp only [Bool.not_eq_true'] at ha ⊢
    exact hless.negTrans hab ha
  rw [scanDown_eq tree isVisible lowKey limit hplace,
    SortedPrefix.takeWhile_eq_filter hclose, List.filter_filter, ← htake]
  simp only [nil_append, length_nil, Nat.sub_zero, filter_reverse]
  rfl

/-- The visible entries between the keys: those the scans find, and those they miss. -/
theorem filter_range : (tree.entries.filter fun entry =>
      !less entry.1 lowKey && !less highKey entry.1 && isVisible entry.2) =
      (tree.below highKey ++ (tree.under highKey).take 1).filter (wanted less isVisible lowKey) ++
        (tree.under highKey).tail.filter (wanted less isVisible lowKey) := by
  have hrange : tree.entries.filter (fun entry => !less highKey entry.1) =
      tree.below highKey ++ tree.under highKey := by
    have hsplit := SortedPrefix.filter_append_filter_not (frontClosed_below hless tree highKey)
    rw [← hsplit, filter_append, List.filter_filter, List.filter_filter, below, under]
    congr 1
    · apply filter_congr
      intro entry _
      cases h : less entry.1 highKey with
      | false => simp
      | true => simp [hless.asymm h]
    · exact filter_congr fun _ _ => Bool.and_comm _ _
  have htail : (tree.under highKey).take 1 ++ (tree.under highKey).tail = tree.under highKey := by
    cases tree.under highKey <;> rfl
  rw [← filter_append, append_assoc, htail, ← hrange, List.filter_filter]
  apply filter_congr
  intro entry _
  simp only [wanted]
  cases less entry.1 lowKey <;> simp [Bool.and_comm]

theorem missed_eq_nil_iff : (tree.under highKey).tail.filter (wanted less isVisible lowKey) = [] ↔
      (less highKey lowKey = false → ∀ entry ∈ (tree.under highKey).tail,
        isVisible entry.2 = false) := by
  have hlow : ∀ entry ∈ (tree.under highKey).tail, less entry.1 lowKey = less highKey lowKey := by
    intro entry hentry
    have hmem := (mem_filter.mp (mem_of_mem_tail hentry)).2
    simp only [Bool.and_eq_true, Bool.not_eq_true'] at hmem
    cases h : less highKey lowKey with
    | false => exact hless.negTrans hmem.1 h
    | true =>
      by_contra hne
      rw [hless.negTrans hmem.2 (Bool.eq_false_of_not_eq_true hne)] at h
      cases h
  rw [filter_eq_nil_iff]
  constructor
  · intro hnone hle entry hentry
    have := hnone entry hentry
    simpa [wanted, hlow entry hentry, hle] using this
  · intro hnone entry hentry
    rw [wanted, hlow entry hentry]
    cases h : less highKey lowKey with
    | true => simp
    | false => simp [hnone h entry hentry]

end Scans

/-- Descending scans are complete, with and without a limit, exactly if the range is empty
or no entry under the high key but the first is visible. -/
theorem scanDescending_complete_iff (less : K → K → Bool) (hless : StrictWeak less)
    (tree : BwTree K less) (isVisible : TupleSlot → Bool) (lowKey highKey : K) :
    (∃ answer, tree.Answers isVisible lowKey highKey answer ∧
        tree.scanDescending isVisible lowKey highKey = answer.map Prod.snd) ∧
      (∀ limit > 0, ∃ answer, tree.Answers isVisible lowKey highKey answer ∧
        tree.scanLimitDescending isVisible lowKey highKey limit =
          (answer.take (min limit answer.length)).map Prod.snd) ↔
      (less highKey lowKey = false → ∀ entry ∈ (tree.under highKey).tail,
        isVisible entry.2 = false) := by
  rw [← missed_eq_nil_iff hless, scanDescending, scanDown_startDown hless, Option.elim_none]
  constructor
  · rintro ⟨⟨answer, hanswer, hfound⟩, -⟩
    have hlength := hanswer.complete.length_eq
    have hsame := congrArg List.length hfound
    rw [filter_range hless, length_append] at hlength
    simp only [length_map, length_reverse] at hsame
    exact length_eq_zero_iff.mp (by omega)
  · intro hmissed
    have hanswer : tree.Answers isVisible lowKey highKey _ :=
      ⟨reverse_perm _, pairwise_reverse.mpr (tree.sorted.filter _)⟩
    rw [filter_range hless, hmissed, append_nil] at hanswer
    refine ⟨⟨_, hanswer, rfl⟩, fun limit _ => ⟨_, hanswer, ?_⟩⟩
    rw [scanLimitDescending, scanDown_startDown hless, Option.elim_some, map_take,
      take_eq_take_iff, length_map]
    omega

theorem strictWeak_nat : StrictWeak fun a b : Nat => decide (a < b) :=
  ⟨by simp; omega, by simp; omega⟩

def duplicatedKey : BwTree Nat fun a b => decide (a < b) :=
  ⟨[(3, ⟨0, 0, 0⟩), (5, ⟨0, 0, 1⟩), (5, ⟨0, 0, 2⟩)], by decide⟩

theorem belowDuplicate_complete : ∃ answer, duplicatedKey.Answers (fun _ => true) 0 4 answer ∧
      duplicatedKey.scanDescending (fun _ => true) 0 4 = answer.map Prod.snd :=
  ((scanDescending_complete_iff _ strictWeak_nat duplicatedKey (fun _ => true) 0 4).mpr
    (by decide)).1

/-- The second slot under the high key is not returned. -/
theorem duplicate_missed :
    duplicatedKey.scanDescending (fun _ => true) 0 5 = [⟨0, 0, 1⟩, ⟨0, 0, 0⟩] ∧
      ((5, ⟨0, 0, 2⟩) : Nat × TupleSlot) ∈ duplicatedKey.entries := by
  decide

end BwTree

end Terrier.Index
