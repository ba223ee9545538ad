import Terrier.Index.HashIndex

/-!
A hash index is a multimap. As long as no pair is inserted twice and only pairs that are there
are erased, the entry of a key holds the pairs inserted and not yet erased, in the form that
fits their number.
-/

namespace Terrier.Index

open List Option

variable {K : Type} [DecidableEq K]

inductive Stores : List TupleSlot → Option ValueType → Prop
  | nothing : Stores [] none
  | single (slot : TupleSlot) : Stores [slot] (some (.tupleSlot slot))
  | several {stored slots : List TupleSlot} : 2 ≤ slots.length → stored.Perm slots →
      Stores slots (some (.valueMap stored))

theorem Stores.insert {slots : List TupleSlot} {value : Option ValueType}
    (h : Stores slots value) {location : TupleSlot} (hnew : location ∉ slots) :
    Stores (location :: slots)
      (uprased (fun found => some (insertFound location found)) location value) := by
  cases h with
  | nothing => exact .single location
  | single slot =>
    have hne : slot ≠ location := fun heq => hnew (heq ▸ mem_cons_self)
    simp only [uprased, insertFound, emplace, mem_singleton, if_neg hne]
    exact .several le_rfl (List.Perm.refl _)
  | several hlen hperm =>
    rename_i stored
    have hnot : location ∉ stored := fun hmem => hnew (hperm.mem_iff.mp hmem)
    simp only [uprased, insertFound, emplace, if_neg hnot]
    apply Stores.several (by rw [length_cons]; omega)
    exact (perm_append_singleton _ _).trans (hperm.cons location)

theorem Stores.erase {slots : List TupleSlot} {value : Option ValueType} (h : Stores slots value)
    (hnodup : slots.Nodup) {location default : TupleSlot} (hmem : location ∈ slots) :
    Stores (slots.erase location) (uprased (eraseFound location) default value) := by
  cases h with
  | nothing => cases hmem
  | single slot =>
    rw [mem_singleton.mp hmem, erase_cons_head]
    exact .nothing
  | several hlen hperm =>
    rename_i stored
    have hstored : (stored.erase location).Perm (slots.erase location) := hperm.erase location
    have hlen' := length_erase_of_mem hmem
    by_cases htwo : stored.length = 2
    · -- one slot is left, the one that the loop finds
      obtain ⟨other, hother⟩ : ∃ other, slots.erase location = [other] := by
        rw [← length_eq_one_iff, hlen', ← hperm.length_eq, htwo]
      have hfind : stored.find? (· != location) = some other := by
        obtain ⟨found, hfound⟩ : ∃ found, stored.find? (· != location) = some found := by
          rw [← isSome_iff_exists, find?_isSome]
          have hin : other ∈ slots.erase location := hother ▸ mem_cons_self
          obtain ⟨hne, hin⟩ := (hnodup.mem_erase_iff).mp hin
          exact ⟨other, hperm.mem_iff.mpr hin, by simpa using hne⟩
        have hne : found ≠ location := by simpa using find?_some hfound
        have hin : found ∈ slots.erase location :=
          hnodup.mem_erase_iff.mpr ⟨hne, hperm.mem_iff.mp (mem_of_find?_eq_some hfound)⟩
        rw [hother, mem_singleton] at hin
        rw [hfound, hin]
      simp only [uprased, eraseFound, htwo, ↓reduceIte, hfind, hother]
      exact .single other
    · simp only [uprased, eraseFound, htwo, ↓reduceIte]
      apply Stores.several _ hstored
      rw [hlen', ← hperm.length_eq] at *
      omega

abbrev Content (K : Type) := List (K × TupleSlot)

namespace Content

def slots (content : Content K) (key : K) : List TupleSlot :=
  content.filterMap fun pair => if pair.1 = key then some pair.2 else none

theorem mem_slots {content : Content K} {key : K} {slot : TupleSlot} :
    slot ∈ content.slots key ↔ (key, slot) ∈ content := by
  simp only [slots, mem_filterMap, ite_none_right_eq_some, Option.some.injEq]
  constructor
  · rintro ⟨pair, hpair, rfl, rfl⟩
    exact hpair
  · intro hpair
    exact ⟨_, hpair, rfl, rfl⟩

theorem nodup_slots {content : Content K} (h : content.Nodup) (key : K) :
    (content.slots key).Nodup := by
  apply h.filterMap
  intro a b slot ha hb
  simp only [mem_def, ite_none_right_eq_some, Option.some.injEq] at ha hb
  exact Prod.ext (ha.1.trans hb.1.symm) (ha.2.trans hb.2.symm)

theorem slots_cons (pair : K × TupleSlot) (content : Content K) (key : K) :
    Content.slots (pair :: content) key =
      if pair.1 = key then pair.2 :: content.slots key else content.slots key := by
  rw [slots, filterMap_cons]
  split_ifs <;> rfl

theorem slots_erase (content : Content K) (pair : K × TupleSlot) (key : K) :
    Content.slots (content.erase pair) key =
      if pair.1 = key then (content.slots key).erase pair.2 else content.slots key := by
  induction content with
  | nil => simp [slots]
  | cons first rest ih =>
    rw [slots_cons]
    by_cases heq : first = pair
    · subst heq
      split_ifs <;> simp
    · rw [erase_cons_tail (by simpa using heq), slots_cons, ih]
      by_cases hpair : pair.1 = key
      · by_cases hfirst : first.1 = key
        · have hne : first.2 ≠ pair.2 := fun hsnd =>
            heq (Prod.ext (hfirst.trans hpair.symm) hsnd)
          simp only [if_pos hpair, if_pos hfirst]
          rw [erase_cons_tail (by simpa using hne)]
        · simp [hpair, hfirst]
      · simp [hpair]

end Content

inductive Effect (K : Type) where
  | inserts (pair : K × TupleSlot)
  | erases (pair : K × TupleSlot)
  | nothing

namespace HashIndex

/-- An insert adds a pair, unless it is refused because of a slot under its key; an erase
action removes its pair. -/
def effect (index : HashIndex K) (content : Content K) : Action K → Effect K
  | .insert _ key location => .inserts (key, location)
  | .insertUnique _ key location predicate =>
    if (content.slots key).any predicate then .nothing else .inserts (key, location)
  | .delete _ _ _ => .nothing
  | .commit _ => .nothing
  | .abort txn => ((index.abortActions txn).head?).elim .nothing .erases
  | .runDeferred => (index.deferredActions.head?).elim .nothing .erases

def applyEffect (content : Content K) : Effect K → Content K
  | .inserts pair => pair :: content
  | .erases pair => content.erase pair
  | .nothing => content

def stepBoth (state : HashIndex K × Content K) (action : Action K) :
    Option (HashIndex K × Content K) :=
  (state.1.step action).map fun next =>
    (next, applyEffect state.2 (state.1.effect state.2 action))

def isProper (state : HashIndex K × Content K) (action : Action K) : Bool :=
  match state.1.effect state.2 action with
  | .inserts pair => pair ∉ state.2
  | .erases pair => pair ∈ state.2
  | .nothing => true

structure Holds (state : HashIndex K × Content K) : Prop where
  nodup : state.2.Nodup
  stores : ∀ key, Stores (state.2.slots key) (state.1.hashMap key)

variable {index : HashIndex K} {content : Content K} {pair : K × TupleSlot}

theorem Holds.insert (h : Holds (index, content)) (hnew : pair ∉ content)
    {next : HashIndex K} (hnext : next.hashMap = (index.upraseFn pair.1
      (fun value => some (insertFound pair.2 value)) pair.2).hashMap) :
    Holds (next, pair :: content) := by
  refine ⟨nodup_cons.mpr ⟨hnew, h.nodup⟩, fun key => ?_⟩
  simp only [hnext, upraseFn, Content.slots_cons, Function.update_apply, eq_comm (a := key)]
  split_ifs with hkey
  · subst hkey
    exact (h.stores pair.1).insert fun hmem => hnew (Content.mem_slots.mp hmem)
  · exact h.stores key

theorem Holds.erase (h : Holds (index, content)) (hmem : pair ∈ content)
    {next : HashIndex K} (hnext : next.hashMap = index.hashMap) :
    Holds (next.eraseKeyAction pair, content.erase pair) := by
  refine ⟨h.nodup.erase pair, fun key => ?_⟩
  simp only [eraseKeyAction, upraseFn, hnext, Content.slots_erase, Function.update_apply,
    eq_comm (a := key)]
  split_ifs with hkey
  · subst hkey
    exact (h.stores pair.1).erase (Content.nodup_slots h.nodup _) (Content.mem_slots.mpr hmem)
  · exact h.stores key

/-- The predicate is asked about the slots of the key. -/
theorem Stores.any_eq {slots : List TupleSlot} {value : Option ValueType} (h : Stores slots value)
    (predicate : TupleSlot → Bool) :
    value.any (·.anySlot predicate) = slots.any predicate := by
  cases h with
  | nothing => rfl
  | single slot => simp [ValueType.anySlot]
  | several _ hperm => exact hperm.any_eq

theorem Holds.step {state next : HashIndex K × Content K} {action : Action K}
    (hproper : isProper state action = true) (hstep : stepBoth state action = some next)
    (h : Holds state) : Holds next := by
  obtain ⟨index, content⟩ := state
  obtain ⟨index', hindex, rfl⟩ := map_eq_some_iff.mp hstep
  cases action with
  | insert txn key location =>
    cases hindex
    exact h.insert (by simpa [isProper, effect] using hproper) rfl
  | insertUnique txn key location predicate =>
    cases hindex
    have hany := Stores.any_eq (h.stores key) predicate
    simp only [isProper, effect, insertUnique] at hproper ⊢
    cases href : (content.slots key).any predicate with
    | true =>
      rw [href] at hany
      simpa [hany, applyEffect] using h
    | false =>
      rw [href] at hany hproper
      simp only [hany]
      exact h.insert (by simpa using hproper) rfl
  | delete txn key location | commit txn =>
    cases hindex
    exact ⟨h.nodup, h.stores⟩
  | abort txn | runDeferred =>
    simp only [HashIndex.step] at hindex
    split at hindex
    · cases hindex
    · rename_i action rest hactions
      cases hindex
      simp only [isProper, effect, hactions, head?_cons, elim_some] at hproper ⊢
      exact h.erase (by simpa using hproper) rfl

/-- If only absent pairs are inserted and present ones erased, the entry of each key stores the
slots inserted and not yet erased: one as a slot, several as a set of that many elements, none by
having no entry. -/
theorem hashIndex_multimap {K : Type} [DecidableEq K] (actions : List (Action K))
    (index : HashIndex K) (content : Content K)
    (hrun : Runs.run stepBoth (init, []) actions = some (index, content))
    (hproper : Runs.Along stepBoth isProper (init, []) actions = true) (key : K) :
    (content.slots key).Nodup ∧ Stores (content.slots key) (index.hashMap key) := by
  have h := Runs.run_keeps_along (p := Holds)
    (fun hproper hstep h => Holds.step hproper hstep h) hrun hproper
    ⟨nodup_nil, fun _ => .nothing⟩
  exact ⟨Content.nodup_slots h.nodup key, h.stores key⟩

/-- Two inserts under one key, the second undone by an abort. -/
theorem abortedInsert_stored : ∃ index, Runs.run stepBoth ((init, []) : HashIndex Nat × Content Nat)
        [.insert 1 7 ⟨0, 0, 0⟩, .insert 2 7 ⟨0, 0, 1⟩, .abort 2] = some (index, [(7, ⟨0, 0, 0⟩)]) ∧
      Stores [⟨0, 0, 0⟩] (index.hashMap 7) := by
  obtain ⟨index, hrun⟩ : ∃ index, Runs.run stepBoth ((init, []) : HashIndex Nat × Content Nat)
      [.insert 1 7 ⟨0, 0, 0⟩, .insert 2 7 ⟨0, 0, 1⟩, .abort 2] =
        some (index, [(7, ⟨0, 0, 0⟩)]) := ⟨_, rfl⟩
  exact ⟨index, hrun, (hashIndex_multimap _ _ _ hrun (by decide) 7).2⟩

end HashIndex

end Terrier.Index
