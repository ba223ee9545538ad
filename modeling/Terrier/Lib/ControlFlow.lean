import Mathlib.Data.List.Basic
import Mathlib.Data.List.Lattice
import Mathlib.Logic.Relation
import Mathlib.Tactic.Common

/-!
Code with labels, and the ways in which it can be left: at its end or by a return. Code that
binds the labels it jumps to behaves in every surrounding as it does alone, and the ways out of
sequences, branches and loops are those of their parts put together.
-/

namespace ControlFlow

open List

variable {ι α β ρ : Type}

inductive Item (ι α β ρ : Type) where
  | plain (instruction : α)
  | jump (label : ι)
  | branch (test : β) (label : ι)
  | ret (result : ρ)
  | bind (label : ι)

abbrev Code (ι α β ρ : Type) := List (Item ι α β ρ)

def Item.target? : Item ι α β ρ → Option ι
  | jump label | branch _ label => some label
  | _ => none

def Item.labels : Item ι α β ρ → List ι
  | jump label | branch _ label | bind label => [label]
  | _ => []

def labels (code : Code ι α β ρ) : List ι :=
  code.flatMap Item.labels

@[simp] theorem labels_nil : labels ([] : Code ι α β ρ) = [] := rfl

@[simp] theorem labels_append (code rest : Code ι α β ρ) :
    labels (code ++ rest) = labels code ++ labels rest :=
  flatMap_append

@[simp] theorem labels_cons (item : Item ι α β ρ) (code : Code ι α β ρ) :
    labels (item :: code) = item.labels ++ labels code :=
  flatMap_cons

variable {code : Code ι α β ρ} {label : ι}

theorem mem_labels_of_bind (h : .bind label ∈ code) : label ∈ labels code :=
  mem_flatMap.2 ⟨_, h, mem_singleton_self _⟩

variable {item : Item ι α β ρ}

theorem mem_labels_of_target (hitem : item ∈ code) (h : item.target? = some label) :
    label ∈ labels code := by
  refine mem_flatMap.2 ⟨item, hitem, ?_⟩
  cases item <;> simp_all [Item.target?, Item.labels]

def Closed (code : Code ι α β ρ) : Prop :=
  ∀ item ∈ code, ∀ label, item.target? = some label → .bind label ∈ code

theorem closed_iff : Closed code ↔ ∀ label ∈ code.filterMap Item.target?, .bind label ∈ code := by
  simp only [Closed, mem_filterMap, forall_exists_index, and_imp]
  exact ⟨fun h label item hitem => h item hitem label, fun h item hitem label => h label item hitem⟩

theorem closed_nil : Closed ([] : Code ι α β ρ) := by
  intro item h
  cases h

theorem closed_of_labels (h : ∀ item ∈ code, item.target? = none) : Closed code := by
  intro item hitem label hlabel
  rw [h item hitem] at hlabel
  cases hlabel

theorem Closed.append {rest : Code ι α β ρ} (h : Closed code) (h' : Closed rest) :
    Closed (code ++ rest) := by
  rw [closed_iff] at h h' ⊢
  simp +contextual [-mem_filterMap, h, h', or_imp]

/-- One step between points of the code; point `i` stands before item `i`. -/
inductive Step (code : Code ι α β ρ) : Nat → Nat → Prop where
  | plain {i : Nat} {instruction : α} (h : code[i]? = some (.plain instruction)) :
      Step code i (i + 1)
  | bind {i : Nat} {label : ι} (h : code[i]? = some (.bind label)) : Step code i (i + 1)
  | jump {i j : Nat} {label : ι} (h : code[i]? = some (.jump label))
      (hj : code[j]? = some (.bind label)) : Step code i j
  | taken {i j : Nat} {test : β} {label : ι} (h : code[i]? = some (.branch test label))
      (hj : code[j]? = some (.bind label)) : Step code i j
  | passed {i : Nat} {test : β} {label : ι} (h : code[i]? = some (.branch test label)) :
      Step code i (i + 1)

inductive Outcome (ρ : Type) where
  | fall
  | ret (result : ρ)

inductive LeavesIn (code : Code ι α β ρ) : Nat → Nat → Outcome ρ → Prop where
  | fall : LeavesIn code 0 code.length .fall
  | ret {i : Nat} {result : ρ} (h : code[i]? = some (.ret result)) : LeavesIn code 0 i (.ret result)
  | step {n i j : Nat} {o : Outcome ρ} (h : Step code i j) (rest : LeavesIn code n j o) :
      LeavesIn code (n + 1) i o

def Leaves (code : Code ι α β ρ) (i : Nat) (o : Outcome ρ) : Prop :=
  ∃ n, LeavesIn code n i o

variable {i j : Nat}

theorem Step.lt (h : Step code i j) : i < code.length := by
  cases h with
  | plain h | bind h | jump h _ | taken h _ | passed h =>
    obtain ⟨hi, _⟩ := List.getElem?_eq_some_iff.1 h
    exact hi

theorem Step.le (h : Step code i j) : j ≤ code.length := by
  have hi := h.lt
  cases h with
  | plain h | bind h | passed h => exact hi
  | jump _ hj | taken _ hj =>
    obtain ⟨hj, _⟩ := List.getElem?_eq_some_iff.1 hj
    exact Nat.le_of_lt hj

variable {o : Outcome ρ}

theorem leaves_length : Leaves code code.length o ↔ o = .fall := by
  constructor
  · rintro ⟨n, h⟩
    generalize hi : code.length = i at h
    cases h with
    | fall => rfl
    | ret h =>
      have := (List.getElem?_eq_some_iff.1 h).1
      omega
    | step h _ =>
      have := h.lt
      omega
  · rintro rfl
    exact ⟨0, .fall⟩

section Point

variable {code : Code ι α β ρ} {i : Nat} {o : Outcome ρ}

theorem leaves_of_step (h : Step code i j) (hj : Leaves code j o) : Leaves code i o := by
  obtain ⟨n, hj⟩ := hj
  exact ⟨n + 1, .step h hj⟩

theorem leaves_of_reach (h : Relation.ReflTransGen (Step code) i j) (hj : Leaves code j o) :
    Leaves code i o := by
  induction h using Relation.ReflTransGen.head_induction_on with
  | refl => exact hj
  | head hstep _ ih => exact leaves_of_step hstep ih

/-- Code that is left by a return reaches one. -/
theorem exists_ret_of_leaves {result : ρ} (h : Leaves code i (.ret result)) :
    ∃ j, Relation.ReflTransGen (Step code) i j ∧ code[j]? = some (.ret result) := by
  obtain ⟨n, h⟩ := h
  generalize ho : Outcome.ret result = o at h
  induction h with
  | fall => cases ho
  | @ret i _ h =>
    cases ho
    exact ⟨i, .refl, h⟩
  | step hstep _ ih =>
    obtain ⟨j, hreach, hret⟩ := ih ho
    exact ⟨j, .head hstep hreach, hret⟩

variable {n : Nat} {test : β}

theorem leavesIn_item {item : Item ι α β ρ} (h : code[i]? = some item)
    (hitem : ∀ result, item ≠ .ret result) (hleaves : LeavesIn code n i o) :
    ∃ j, Step code i j ∧ ∃ m < n, LeavesIn code m j o := by
  cases hleaves with
  | fall => simp at h
  | ret h' =>
    rw [h] at h'
    exact absurd (Option.some.inj h') (hitem _)
  | @step m _ j _ hstep rest => exact ⟨j, hstep, m, Nat.lt_succ_self m, rest⟩

theorem leavesIn_bind (h : code[i]? = some (.bind label)) (hleaves : LeavesIn code n i o) :
    ∃ m < n, LeavesIn code m (i + 1) o := by
  obtain ⟨j, hstep, hrest⟩ := leavesIn_item h (by simp) hleaves
  cases hstep <;> simp_all

theorem leaves_plain {instruction : α} (h : code[i]? = some (.plain instruction)) (o : Outcome ρ) :
    Leaves code i o ↔ Leaves code (i + 1) o := by
  constructor
  · rintro ⟨n, hn⟩
    obtain ⟨j, hstep, m, -, hrest⟩ := leavesIn_item h (by simp) hn
    refine ⟨m, ?_⟩
    cases hstep <;> simp_all
  · exact leaves_of_step (.plain h)

theorem leaves_bind (h : code[i]? = some (.bind label)) (o : Outcome ρ) :
    Leaves code i o ↔ Leaves code (i + 1) o := by
  constructor
  · rintro ⟨n, hn⟩
    obtain ⟨m, -, hm⟩ := leavesIn_bind h hn
    exact ⟨m, hm⟩
  · exact leaves_of_step (.bind h)

theorem leavesIn_jump (h : code[i]? = some (.jump label))
    (hj : ∀ k, code[k]? = some (.bind label) ↔ k = j) (hleaves : LeavesIn code n i o) :
    ∃ m < n, LeavesIn code m j o := by
  obtain ⟨k, hstep, hrest⟩ := leavesIn_item h (by simp) hleaves
  cases hstep <;> simp_all

theorem leaves_jump (h : code[i]? = some (.jump label))
    (hj : ∀ k, code[k]? = some (.bind label) ↔ k = j) (o : Outcome ρ) :
    Leaves code i o ↔ Leaves code j o := by
  constructor
  · rintro ⟨n, hn⟩
    obtain ⟨m, -, hm⟩ := leavesIn_jump h hj hn
    exact ⟨m, hm⟩
  · exact leaves_of_step (.jump h ((hj j).2 rfl))

theorem leavesIn_branch (h : code[i]? = some (.branch test label))
    (hj : ∀ k, code[k]? = some (.bind label) ↔ k = j) (hleaves : LeavesIn code n i o) :
    ∃ m < n, LeavesIn code m (i + 1) o ∨ LeavesIn code m j o := by
  obtain ⟨k, hstep, m, hm, hrest⟩ := leavesIn_item h (by simp) hleaves
  refine ⟨m, hm, ?_⟩
  cases hstep with
  | taken h' hk =>
    rw [h] at h'
    cases h'
    rw [(hj k).1 hk] at hrest
    exact .inr hrest
  | passed h' => exact .inl hrest
  | plain h' | bind h' | jump h' _ =>
    rw [h] at h'
    cases h'

theorem leaves_branch (h : code[i]? = some (.branch test label))
    (hj : ∀ k, code[k]? = some (.bind label) ↔ k = j) (o : Outcome ρ) :
    Leaves code i o ↔ Leaves code (i + 1) o ∨ Leaves code j o := by
  constructor
  · rintro ⟨n, hn⟩
    obtain ⟨m, -, hm | hm⟩ := leavesIn_branch h hj hn
    · exact .inl ⟨m, hm⟩
    · exact .inr ⟨m, hm⟩
  · rintro (hleaves | hleaves)
    · exact leaves_of_step (.passed h) hleaves
    · exact leaves_of_step (.taken h ((hj j).2 rfl)) hleaves

end Point

/-- A label that is bound in one place only. -/
theorem bind_getElem? (before after : Code ι α β ρ)
    (hcode : code = before ++ (.bind label :: after)) (j : Nat) (hj : j = before.length)
    (hbef : .bind label ∉ before) (hafter : .bind label ∉ after) (k : Nat) :
    code[k]? = some (.bind label) ↔ k = j := by
  subst hcode hj
  constructor
  · intro h
    rcases Nat.lt_trichotomy k before.length with hk | hk | hk
    · rw [getElem?_append_left hk] at h
      exact absurd (mem_of_getElem? h) hbef
    · exact hk
    · rw [getElem?_append_right (Nat.le_of_lt hk), getElem?_cons, if_neg (by omega)] at h
      exact absurd (mem_of_getElem? h) hafter
  · rintro rfl
    simp

theorem bind_not_mem (h : label ∉ labels code) :
    .bind label ∉ code := fun hbind => h (mem_labels_of_bind hbind)

theorem getElem?_of_eq (before after : Code ι α β ρ) (hcode : code = before ++ (item :: after))
    (hi : i = before.length) : code[i]? = some item := by
  subst hcode hi
  simp

section Embed

variable {before inner after : Code ι α β ρ}
  (hbef : (labels inner).Disjoint (labels before))
  (hafter : (labels inner).Disjoint (labels after))

theorem getElem?_inner (hi : i < inner.length) :
    (before ++ (inner ++ after))[before.length + i]? = inner[i]? := by
  rw [getElem?_append_right (Nat.le_add_right _ _), Nat.add_sub_cancel_left,
    getElem?_append_left hi]

include hbef hafter in
theorem bind_inner (hlabel : label ∈ labels inner) {k : Nat}
    (h : (before ++ (inner ++ after))[k]? = some (.bind label)) :
    ∃ j, k = before.length + j ∧ inner[j]? = some (.bind label) := by
  by_cases hk : k < before.length
  · rw [getElem?_append_left hk] at h
    exact absurd (mem_labels_of_bind (mem_of_getElem? h)) (hbef hlabel)
  · rw [getElem?_append_right (by omega)] at h
    by_cases hin : k - before.length < inner.length
    · rw [getElem?_append_left hin] at h
      exact ⟨k - before.length, by omega, h⟩
    · rw [getElem?_append_right (by omega)] at h
      exact absurd (mem_labels_of_bind (mem_of_getElem? h)) (hafter hlabel)

include hbef hafter in
/-- Inside closed code a step is a step of that code alone. -/
theorem step_inner {k : Nat} (hi : i < inner.length) :
    Step (before ++ (inner ++ after)) (before.length + i) k ↔
      ∃ j, k = before.length + j ∧ Step inner i j := by
  have hitem : (before ++ (inner ++ after))[before.length + i]? = inner[i]? := getElem?_inner hi
  constructor
  · intro h
    cases h with
    | plain h =>
      rw [hitem] at h
      exact ⟨i + 1, rfl, .plain h⟩
    | bind h =>
      rw [hitem] at h
      exact ⟨i + 1, rfl, .bind h⟩
    | passed h =>
      rw [hitem] at h
      exact ⟨i + 1, rfl, .passed h⟩
    | jump h hk =>
      rw [hitem] at h
      obtain ⟨j, hj, hbind⟩ := bind_inner hbef hafter
        (mem_labels_of_target (mem_of_getElem? h) rfl) hk
      exact ⟨j, hj, .jump h hbind⟩
    | taken h hk =>
      rw [hitem] at h
      obtain ⟨j, hj, hbind⟩ := bind_inner hbef hafter
        (mem_labels_of_target (mem_of_getElem? h) rfl) hk
      exact ⟨j, hj, .taken h hbind⟩
  · rintro ⟨j, rfl, h⟩
    have htarget {label : ι} (h : inner[j]? = some (.bind label)) :
        (before ++ (inner ++ after))[before.length + j]? = some (.bind label) := by
      rw [getElem?_inner (List.getElem?_eq_some_iff.1 h).1, h]
    cases h with
    | plain h => exact .plain (hitem.trans h)
    | bind h => exact .bind (hitem.trans h)
    | passed h => exact .passed (hitem.trans h)
    | jump h hj => exact .jump (hitem.trans h) (htarget hj)
    | taken h hj => exact .taken (hitem.trans h) (htarget hj)

include hbef hafter in
/-- Closed code is left as it is left alone; behind its end the surrounding code goes on. -/
theorem leavesIn_inner {n : Nat} (hi : i ≤ inner.length)
    (h : LeavesIn (before ++ (inner ++ after)) n (before.length + i) o) :
    (∃ result, o = .ret result ∧ Leaves inner i (.ret result)) ∨ (Leaves inner i .fall ∧
        ∃ m ≤ n, LeavesIn (before ++ (inner ++ after)) m (before.length + inner.length) o) := by
  induction n using Nat.strongRecOn generalizing i with
  | ind n ih =>
    rcases Nat.lt_or_eq_of_le hi with hlt | rfl
    · generalize hpoint : before.length + i = point at h
      cases h with
      | fall =>
        simp only [length_append] at hpoint
        omega
      | @ret _ result h =>
        rw [← hpoint, getElem?_inner hlt] at h
        exact .inl ⟨result, rfl, 0, .ret h⟩
      | @step m _ k _ hstep rest =>
        rw [← hpoint, step_inner hbef hafter hlt] at hstep
        obtain ⟨j, rfl, hstep⟩ := hstep
        obtain ⟨result, ho, hleaves⟩ | ⟨hleaves, m', hm', hrest⟩ :=
          ih m (Nat.lt_succ_self m) hstep.le rest
        · exact .inl ⟨result, ho, leaves_of_step hstep hleaves⟩
        · exact .inr ⟨leaves_of_step hstep hleaves, m', by omega, hrest⟩
    · exact .inr ⟨⟨0, .fall⟩, n, Nat.le_refl n, h⟩

include hbef hafter in
theorem leaves_of_inner {result : ρ} (h : Leaves inner i (.ret result)) :
    Leaves (before ++ (inner ++ after)) (before.length + i) (.ret result) := by
  obtain ⟨n, h⟩ := h
  generalize ho : Outcome.ret result = o at h
  induction h with
  | fall => cases ho
  | @ret i result' h =>
    cases ho
    exact ⟨0, .ret ((getElem?_inner (List.getElem?_eq_some_iff.1 h).1).trans h)⟩
  | step hstep rest ih =>
    exact leaves_of_step ((step_inner hbef hafter hstep.lt).2 ⟨_, rfl, hstep⟩) (ih ho)

include hbef hafter in
theorem leaves_of_inner_fall (h : Leaves inner i .fall)
    (hrest : Leaves (before ++ (inner ++ after)) (before.length + inner.length) o) :
    Leaves (before ++ (inner ++ after)) (before.length + i) o := by
  obtain ⟨n, h⟩ := h
  generalize hfall : Outcome.fall = o' at h
  induction h with
  | fall => exact hrest
  | ret h => cases hfall
  | step hstep rest ih =>
    exact leaves_of_step ((step_inner hbef hafter hstep.lt).2 ⟨_, rfl, hstep⟩) (ih hfall)

include hbef hafter in
theorem leaves_inner (hi : i ≤ inner.length) :
    Leaves (before ++ (inner ++ after)) (before.length + i) o ↔
      (∃ result, o = .ret result ∧ Leaves inner i (.ret result)) ∨ (Leaves inner i .fall ∧
          Leaves (before ++ (inner ++ after)) (before.length + inner.length) o) := by
  constructor
  · rintro ⟨n, h⟩
    obtain hreturns | ⟨hfall, m, -, hm⟩ := leavesIn_inner hbef hafter hi h
    · exact .inl hreturns
    · exact .inr ⟨hfall, m, hm⟩
  · rintro (⟨result, rfl, h⟩ | ⟨h, hrest⟩)
    · exact leaves_of_inner hbef hafter h
    · exact leaves_of_inner_fall hbef hafter h hrest

end Embed

abbrev Exits (ρ : Type) := Outcome ρ → Bool

namespace Exits

/-- Only at the end. -/
def through : Exits ρ
  | .fall => true
  | .ret _ => false

def returns [DecidableEq ρ] (result : ρ) : Exits ρ
  | .fall => false
  | .ret other => other = result

def seq (first second : Exits ρ) : Exits ρ
  | .fall => first .fall && second .fall
  | .ret result => first (.ret result) || (first .fall && second (.ret result))

def either (first second : Exits ρ) : Exits ρ :=
  fun o => first o || second o

def loop (test body : Exits ρ) : Exits ρ
  | .fall => test .fall
  | .ret result => test (.ret result) || (test .fall && body (.ret result))

def forever (body : Exits ρ) : Exits ρ
  | .fall => false
  | .ret result => body (.ret result)

@[simp] theorem through_seq (exits : Exits ρ) : through.seq exits = exits := by
  funext o
  cases o <;> simp [seq, through]

@[simp] theorem seq_through (exits : Exits ρ) : exits.seq through = exits := by
  funext o
  cases o <;> simp [seq, through]

end Exits

def HasExits (code : Code ι α β ρ) (exits : Exits ρ) : Prop :=
  ∀ o, Leaves code 0 o ↔ exits o = true

theorem hasExits_nil : HasExits ([] : Code ι α β ρ) Exits.through := by
  intro o
  have hend : Leaves ([] : Code ι α β ρ) 0 o ↔ o = .fall := leaves_length
  cases o <;> simpa [Exits.through] using hend

section Surrounding

variable {inner : Code ι α β ρ} {exits : Exits ρ} (h : HasExits inner exits)
  (code before after : Code ι α β ρ) (hcode : code = before ++ (inner ++ after))
  (hbef : (labels inner).Disjoint (labels before))
  (hafter : (labels inner).Disjoint (labels after)) (k : Nat) (hk : k = before.length)
include h hcode hbef hafter hk

/-- Where code with known exits begins, the surrounding code is left by a return in it, or goes on
behind it. -/
theorem HasExits.leaves (o : Outcome ρ) :
    Leaves code k o ↔ (∃ result, o = .ret result ∧ exits (.ret result) = true) ∨
      (exits .fall = true ∧ Leaves code (k + inner.length) o) := by
  subst hcode hk
  rw [← h .fall]
  simp only [← h (.ret _)]
  exact leaves_inner hbef hafter (Nat.zero_le _)

theorem HasExits.leavesIn {n : Nat} (hleaves : LeavesIn code n k o) :
    (∃ result, o = .ret result ∧ exits (.ret result) = true) ∨
      (exits .fall = true ∧ ∃ m ≤ n, LeavesIn code m (k + inner.length) o) := by
  subst hcode hk
  rw [← h .fall]
  simp only [← h (.ret _)]
  exact leavesIn_inner hbef hafter (Nat.zero_le _) hleaves

end Surrounding

theorem HasExits.append {first second : Code ι α β ρ} {exits exits' : Exits ρ}
    (h : HasExits first exits) (h' : HasExits second exits')
    (hdisj : (labels first).Disjoint (labels second)) :
    HasExits (first ++ second) (exits.seq exits') := by
  intro o
  have hfirst := h.leaves _ [] second rfl (disjoint_nil_right _) hdisj 0 rfl o
  have hsnd := h'.leaves _ first [] (by rw [append_nil]) hdisj.symm
    (disjoint_nil_right _) first.length rfl o
  have hend : Leaves (first ++ second) (first.length + second.length) o ↔ o = .fall := by
    rw [← length_append]
    exact leaves_length
  rw [nil_append, Nat.zero_add, hsnd, hend] at hfirst
  rw [hfirst]
  cases o <;> simp [Exits.seq]

theorem leaves_end (k : Nat) (hk : k = code.length) (o : Outcome ρ) :
    Leaves code k o ↔ o = .fall := by
  rw [hk]
  exact leaves_length

theorem hasExits_plain (instructions : List α) :
    HasExits (instructions.map .plain : Code ι α β ρ) Exits.through := by
  induction instructions with
  | nil => exact hasExits_nil
  | cons instruction instructions ih =>
    have hone : HasExits ([.plain instruction] : Code ι α β ρ) Exits.through := by
      intro o
      rw [leaves_plain rfl, leaves_end 1 rfl]
      cases o <;> simp [Exits.through]
    have hseq := hone.append ih (by simp [Item.labels])
    intro o
    rw [map_cons, ← singleton_append, hseq o]
    cases o <;> rfl

theorem hasExits_bind (label : ι) : HasExits ([.bind label] : Code ι α β ρ) Exits.through := by
  intro o
  rw [leaves_bind rfl, leaves_end 1 rfl]
  cases o <;> simp [Exits.through]

theorem hasExits_ret [DecidableEq ρ] (result : ρ) :
    HasExits ([.ret result] : Code ι α β ρ) (Exits.returns result) := by
  intro o
  constructor
  · rintro ⟨n, h⟩
    cases h with
    | ret h =>
      cases h
      simp [Exits.returns]
    | step h _ => cases h <;> simp_all
  · cases o with
    | fall => simp [Exits.returns]
    | ret other =>
      intro h
      simp only [Exits.returns, decide_eq_true_eq] at h
      subst h
      exact ⟨0, .ret rfl⟩

section Patterns

variable {first second : Code ι α β ρ} {exits exits' : Exits ρ} {label label' : ι}

def skip (test : β) (label : ι) (inner : Code ι α β ρ) : Code ι α β ρ :=
  .branch test label :: (inner ++ [.bind label])

theorem HasExits.skip (h : HasExits first exits) (hlabel : label ∉ labels first) (test : β) :
    HasExits (ControlFlow.skip test label first) (Exits.through.either exits) := by
  intro o
  generalize hcode : ControlFlow.skip test label first = code
  replace hcode := hcode.symm
  have hbranch : code[0]? = some (.branch test label) := by
    rw [hcode]
    rfl
  have hbind : ∀ k, code[k]? = some (.bind label) ↔ k = 1 + first.length :=
    bind_getElem? (.branch test label :: first) [] hcode _ (by simp [Nat.add_comm])
      (by simpa using bind_not_mem hlabel) not_mem_nil
  have hfirst := h.leaves code [.branch test label] [.bind label] hcode
    (by simpa [Item.labels] using hlabel) (by simpa [Item.labels] using hlabel) 1 rfl o
  have hend : Leaves code (1 + first.length + 1) o ↔ o = .fall :=
    leaves_end _ (by simp [hcode, ControlFlow.skip, Nat.add_comm]) o
  rw [leaves_branch hbranch hbind, hfirst, leaves_bind ((hbind _).2 rfl), hend]
  cases o <;> simp [Exits.either, Exits.through]

structure Fresh (label label' : ι) (first second : Code ι α β ρ) : Prop where
  ne : label ≠ label'
  notFirst : label ∉ labels first
  notFirst' : label' ∉ labels first
  notSecond : label ∉ labels second
  notSecond' : label' ∉ labels second
  disjoint : (labels first).Disjoint (labels second)

def diamond (test : β) (other last : ι) (first second : Code ι α β ρ) : Code ι α β ρ :=
  .branch test other :: (first ++ (.jump last :: .bind other :: (second ++ [.bind last])))

theorem HasExits.diamond (h : HasExits first exits) (h' : HasExits second exits')
    (hfresh : Fresh label label' first second) (test : β) :
    HasExits (ControlFlow.diamond test label label' first second) (exits.either exits') := by
  obtain ⟨hne, hfirst, hfirst', hsnd, hsnd', hdisj⟩ := hfresh
  intro o
  generalize hcode : ControlFlow.diamond test label label' first second = code
  replace hcode := hcode.symm
  have hbranch : code[0]? = some (.branch test label) := by
    rw [hcode]
    rfl
  have hjump : code[1 + first.length]? = some (.jump label') :=
    getElem?_of_eq (.branch test label :: first) _ hcode (by simp [Nat.add_comm])
  have hother : ∀ k, code[k]? = some (.bind label) ↔ k = 2 + first.length :=
    bind_getElem? (.branch test label :: (first ++ [.jump label']))
      (second ++ [.bind label']) (by simp [hcode, ControlFlow.diamond]) _
      (by simp; omega) (by simpa using bind_not_mem hfirst)
      (by simpa [hne] using bind_not_mem hsnd)
  have hlast : ∀ k, code[k]? = some (.bind label') ↔ k = 3 + first.length + second.length :=
    bind_getElem? (.branch test label :: (first ++ (.jump label' :: .bind label :: second))) []
      (by simp [hcode, ControlFlow.diamond]) _ (by simp; omega)
      (by simpa [hne.symm] using ⟨bind_not_mem hfirst', bind_not_mem hsnd'⟩) not_mem_nil
  have hbody := h.leaves code [.branch test label]
    (.jump label' :: .bind label :: (second ++ [.bind label']))
    (by simp [hcode, ControlFlow.diamond]) (by simpa [Item.labels] using hfirst)
    (by simpa [Item.labels] using ⟨hfirst', hfirst, hdisj, hfirst'⟩) 1 rfl o
  have hbody' := h'.leaves code
    (.branch test label :: (first ++ [.jump label', .bind label])) [.bind label']
    (by simp [hcode, ControlFlow.diamond])
    (by simpa [Item.labels] using ⟨hsnd, hdisj.symm, hsnd', hsnd⟩)
    (by simpa [Item.labels] using hsnd') (2 + first.length + 1)
    (by simp; omega) o
  have hend : Leaves code (3 + first.length + second.length + 1) o ↔ o = .fall :=
    leaves_end _ (by simp [hcode, ControlFlow.diamond]; omega) o
  have hlands : 2 + first.length + 1 + second.length = 3 + first.length + second.length := by
    omega
  rw [leaves_branch hbranch hother, hbody, leaves_jump hjump hlast,
    leaves_bind ((hother _).2 rfl), hbody', hlands, leaves_bind ((hlast _).2 rfl), hend]
  cases o <;> simp [Exits.either]

def loop (test : β) (head last : ι) (condition body : Code ι α β ρ) : Code ι α β ρ :=
  .bind head :: (condition ++ (.branch test last :: (body ++ [.jump head, .bind last])))

theorem HasExits.loop (h : HasExits first exits) (h' : HasExits second exits')
    (hfresh : Fresh label label' first second) (test : β) :
    HasExits (ControlFlow.loop test label label' first second) (exits.loop exits') := by
  obtain ⟨hne, hfirst, hfirst', hsnd, hsnd', hdisj⟩ := hfresh
  intro o
  generalize hcode : ControlFlow.loop test label label' first second = code
  replace hcode := hcode.symm
  have hhead : ∀ k, code[k]? = some (.bind label) ↔ k = 0 :=
    bind_getElem? [] _ hcode _ rfl not_mem_nil
      (by simpa [hne] using ⟨bind_not_mem hfirst, bind_not_mem hsnd⟩)
  have hbranch : code[1 + first.length]? = some (.branch test label') :=
    getElem?_of_eq (.bind label :: first) _ hcode (by simp [Nat.add_comm])
  have hback : code[2 + first.length + second.length]? = some (.jump label) :=
    getElem?_of_eq (.bind label :: (first ++ (.branch test label' :: second)))
      [.bind label'] (by simp [hcode, ControlFlow.loop]) (by simp; omega)
  have hlast : ∀ k, code[k]? = some (.bind label') ↔ k = 3 + first.length + second.length :=
    bind_getElem? (.bind label :: (first ++ (.branch test label' :: (second ++ [.jump label])))) []
      (by simp [hcode, ControlFlow.loop]) _ (by simp; omega)
      (by simpa [hne.symm] using ⟨bind_not_mem hfirst', bind_not_mem hsnd'⟩) not_mem_nil
  have htestBefore : (labels first).Disjoint (labels ([.bind label] : Code ι α β ρ)) := by
    simpa [Item.labels] using hfirst
  have htestAfter : (labels first).Disjoint (labels (.branch test label' ::
      (second ++ [.jump label, .bind label']) : Code ι α β ρ)) := by
    simpa [Item.labels] using ⟨hfirst', hdisj, hfirst, hfirst'⟩
  have hbodyBefore : (labels second).Disjoint (labels (.bind label ::
      (first ++ [.branch test label']) : Code ι α β ρ)) := by
    simpa [Item.labels] using ⟨hsnd, hdisj.symm, hsnd'⟩
  have hbodyAfter : (labels second).Disjoint
      (labels ([.jump label, .bind label'] : Code ι α β ρ)) := by
    simpa [Item.labels] using ⟨hsnd, hsnd'⟩
  have hbodyCode : code = (.bind label :: (first ++ [.branch test label'])) ++
      (second ++ [.jump label, .bind label']) := by
    simp [hcode, ControlFlow.loop]
  have hend : Leaves code (3 + first.length + second.length + 1) o ↔ o = .fall :=
    leaves_end _ (by simp [hcode, ControlFlow.loop]; omega) o
  constructor
  · rintro ⟨n, hn⟩
    -- Every round takes steps, so the rounds can be followed by induction on their number.
    induction n using Nat.strongRecOn with
    | ind n ih =>
      obtain ⟨m, hm, htest⟩ := leavesIn_bind ((hhead 0).2 rfl) hn
      obtain ⟨result, rfl, hreturns⟩ | ⟨hfall, m₁, hm₁, htest⟩ :=
        h.leavesIn code [.bind label] _ hcode htestBefore htestAfter 1 rfl htest
      · simp [Exits.loop, hreturns]
      · obtain ⟨m₂, hm₂, hbody | hleft⟩ := leavesIn_branch hbranch hlast htest
        · obtain ⟨result, rfl, hreturns⟩ | ⟨-, m₃, hm₃, hround⟩ :=
            h'.leavesIn code _ _ hbodyCode hbodyBefore hbodyAfter (1 + first.length + 1)
              (by simp; omega) hbody
          · simp [Exits.loop, hfall, hreturns]
          · rw [show 1 + first.length + 1 + second.length = 2 + first.length + second.length by
              omega] at hround
            obtain ⟨m₄, hm₄, hagain⟩ := leavesIn_jump hback hhead hround
            exact ih m₄ (by omega) hagain
        · obtain ⟨m₃, -, hleft⟩ := leavesIn_bind ((hlast _).2 rfl) hleft
          rw [hend.1 ⟨m₃, hleft⟩]
          exact hfall
  · intro hexits
    have htest := h.leaves code [.bind label] _ hcode htestBefore htestAfter 1 rfl o
    have hbody := h'.leaves code _ _ hbodyCode hbodyBefore hbodyAfter (1 + first.length + 1)
      (by simp; omega) o
    rw [leaves_bind ((hhead 0).2 rfl), Nat.zero_add, htest, leaves_branch hbranch hlast, hbody,
      leaves_bind ((hlast _).2 rfl), hend]
    cases o with
    | fall =>
      simp only [Exits.loop] at hexits
      simp [hexits]
    | ret result =>
      simp only [Exits.loop, Bool.or_eq_true, Bool.and_eq_true] at hexits
      obtain hreturns | ⟨hfall, hreturns⟩ := hexits
      · exact .inl ⟨result, rfl, hreturns⟩
      · exact .inr ⟨hfall, .inl (.inl ⟨result, rfl, hreturns⟩)⟩

def forever (head : ι) (body : Code ι α β ρ) : Code ι α β ρ :=
  .bind head :: (body ++ [.jump head])

theorem HasExits.forever (h : HasExits first exits) (hlabel : label ∉ labels first) :
    HasExits (ControlFlow.forever label first) exits.forever := by
  intro o
  generalize hcode : ControlFlow.forever label first = code
  replace hcode := hcode.symm
  have hhead : ∀ k, code[k]? = some (.bind label) ↔ k = 0 :=
    bind_getElem? [] _ hcode _ rfl not_mem_nil (by simpa using bind_not_mem hlabel)
  have hback : code[1 + first.length]? = some (.jump label) :=
    getElem?_of_eq (.bind label :: first) [] hcode (by simp [Nat.add_comm])
  have hbef : (labels first).Disjoint (labels ([.bind label] : Code ι α β ρ)) := by
    simpa [Item.labels] using hlabel
  have hafter : (labels first).Disjoint (labels ([.jump label] : Code ι α β ρ)) := by
    simpa [Item.labels] using hlabel
  constructor
  · rintro ⟨n, hn⟩
    induction n using Nat.strongRecOn with
    | ind n ih =>
      obtain ⟨m, hm, hbody⟩ := leavesIn_bind ((hhead 0).2 rfl) hn
      obtain ⟨result, rfl, hreturns⟩ | ⟨-, m₁, hm₁, hround⟩ :=
        h.leavesIn code [.bind label] _ hcode hbef hafter 1 rfl hbody
      · exact hreturns
      · obtain ⟨m₂, hm₂, hagain⟩ := leavesIn_jump hback hhead hround
        exact ih m₂ (by omega) hagain
  · intro hexits
    have hbody := h.leaves code [.bind label] _ hcode hbef hafter 1 rfl o
    rw [leaves_bind ((hhead 0).2 rfl), Nat.zero_add, hbody]
    cases o with
    | fall => cases hexits
    | ret result => exact .inl ⟨result, rfl, hexits⟩

section

variable {test : β} {other : ι}

theorem mem_labels_skip :
    other ∈ labels (skip test label first) ↔ other = label ∨ other ∈ labels first := by
  simp only [skip, labels_cons, labels_append, labels_nil, Item.labels]
  grind

theorem mem_labels_forever :
    other ∈ labels (forever label first) ↔ other = label ∨ other ∈ labels first := by
  simp only [forever, labels_cons, labels_append, labels_nil, Item.labels]
  grind

theorem mem_labels_diamond : other ∈ labels (diamond test label label' first second) ↔
    (other = label ∨ other = label') ∨ other ∈ labels (first ++ second) := by
  simp only [diamond, labels_cons, labels_append, labels_nil, Item.labels]
  grind

theorem mem_labels_loop : other ∈ labels (loop test label label' first second) ↔
    (other = label ∨ other = label') ∨ other ∈ labels (first ++ second) := by
  simp only [loop, labels_cons, labels_append, labels_nil, Item.labels]
  grind

end

theorem Closed.skip (h : Closed first) (test : β) (label : ι) :
    Closed (ControlFlow.skip test label first) := by
  rw [closed_iff] at h ⊢
  simp +contextual [-mem_filterMap, filterMap_cons, ControlFlow.skip, Item.target?, h, or_imp]

theorem Closed.diamond (h : Closed first) (h' : Closed second) (test : β) (label label' : ι) :
    Closed (ControlFlow.diamond test label label' first second) := by
  rw [closed_iff] at h h' ⊢
  simp +contextual [-mem_filterMap, filterMap_cons, ControlFlow.diamond, Item.target?, h, h',
    or_imp]

theorem Closed.loop (h : Closed first) (h' : Closed second) (test : β) (label label' : ι) :
    Closed (ControlFlow.loop test label label' first second) := by
  rw [closed_iff] at h h' ⊢
  simp +contextual [-mem_filterMap, filterMap_cons, ControlFlow.loop, Item.target?, h, h', or_imp]

theorem Closed.forever (h : Closed first) (label : ι) :
    Closed (ControlFlow.forever label first) := by
  rw [closed_iff] at h ⊢
  simp +contextual [-mem_filterMap, filterMap_cons, ControlFlow.forever, Item.target?, h, or_imp]

end Patterns

end ControlFlow
