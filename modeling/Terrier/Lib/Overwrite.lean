import Mathlib.Tactic

/-!
Partial assignments and their action on total maps. A list of overwrites acts from left to
right, so later members win. Such an action is idempotent, depends only on the last writer of
each key, and overwrites that agree may be replayed in part.
-/

namespace Overwrite

open List

variable {K V : Type*}

/-- `o k = some v` assigns `v` to `k`; `o k = none` leaves `k` alone. -/
def apply (o : K → Option V) (f : K → V) : K → V :=
  fun k => (o k).getD (f k)

def applyAll (os : List (K → Option V)) (f : K → V) : K → V :=
  os.foldl (fun g o => apply o g) f

@[simp] theorem applyAll_cons (o : K → Option V) (os : List (K → Option V))
    (f : K → V) : applyAll (o :: os) f = applyAll os (apply o f) := rfl

variable {o : K → Option V} {k : K} {v : V} {os : List (K → Option V)}

theorem apply_of_none (h : o k = none) (f : K → V) : apply o f k = f k := by
  simp [apply, h]

theorem apply_of_some (h : o k = some v) (f : K → V) : apply o f k = v := by
  simp [apply, h]

/-- Only the keys that no overwrite mentions keep their old value. For every
other key the outcome does not depend on the map the list started from. -/
theorem applyAll_cases (os : List (K → Option V)) (k : K) : (∀ f : K → V, applyAll os f k = f k) ∨
      ∃ v, ∀ f : K → V, applyAll os f k = v := by
  induction os with
  | nil => exact .inl (fun _ => rfl)
  | cons o os ih =>
    rcases ih with hkeep | ⟨v, hset⟩
    · cases ho : o k with
      | none =>
        refine Or.inl (fun f => ?_)
        rw [applyAll_cons, hkeep, apply_of_none ho]
      | some v =>
        refine Or.inr ⟨v, fun f => ?_⟩
        rw [applyAll_cons, hkeep, apply_of_some ho]
    · exact .inr ⟨v, fun f => hset _⟩

/-- Replaying a whole list of overwrites a second time changes nothing. -/
theorem applyAll_idem (os : List (K → Option V)) (f : K → V) :
    applyAll os (applyAll os f) = applyAll os f := by
  funext k
  rcases applyAll_cases os k with hkeep | ⟨v, hset⟩
  · exact hkeep _
  · rw [hset, hset]

theorem applyAll_of_forall_none (h : ∀ o ∈ os, o k = none) (f : K → V) : applyAll os f k = f k := by
  induction os generalizing f with
  | nil => rfl
  | cons o os ih =>
    rw [applyAll_cons, ih (fun p hp => h p (mem_cons_of_mem o hp)),
      apply_of_none (h o mem_cons_self)]

/-- The value of a key comes from a member that assigns it, or is old. -/
theorem applyAll_eq_or (os : List (K → Option V)) (f : K → V) (k : K) :
    (∀ o ∈ os, o k = none) ∨ ∃ o ∈ os, o k = some (applyAll os f k) := by
  induction os generalizing f with
  | nil => exact .inl (by simp)
  | cons o os ih =>
    rw [applyAll_cons]
    rcases ih (apply o f) with hnone | ⟨p, hp, hk⟩
    · have hkeep := applyAll_of_forall_none hnone (apply o f)
      cases ho : o k with
      | none => exact .inl (by simpa [ho] using hnone)
      | some v =>
        refine Or.inr ⟨o, mem_cons_self, ?_⟩
        rw [hkeep, apply_of_some ho, ho]
    · exact .inr ⟨p, mem_cons_of_mem o hp, hk⟩

def Agree (os : List (K → Option V)) : Prop :=
  ∀ o ∈ os, ∀ p ∈ os, ∀ k v w, o k = some v → p k = some w → v = w

/-- In a list that agrees, the value a member assigns is never lost. -/
theorem applyAll_of_mem_some (hagree : Agree os) (ho : o ∈ os) (hk : o k = some v) (f : K → V) :
    applyAll os f k = v := by
  rcases applyAll_eq_or os f k with hnone | ⟨p, hp, hpk⟩
  · rw [hnone o ho] at hk
    cases hk
  · exact hagree p hp o ho k _ _ hpk hk

/-- Members of a list that agrees can be replayed on the outcome in any
selection and order: each one writes back what is already there. -/
theorem applyAll_replay {ps : List (K → Option V)} (hagree : Agree os) (hsub : ∀ p ∈ ps, p ∈ os)
    (f : K → V) : applyAll ps (applyAll os f) = applyAll os f := by
  induction ps with
  | nil => rfl
  | cons p ps ih =>
    have hone : apply p (applyAll os f) = applyAll os f := by
      funext k
      cases hp : p k with
      | none => exact apply_of_none hp _
      | some v =>
        rw [apply_of_some hp, applyAll_of_mem_some hagree (hsub p mem_cons_self) hp]
    rw [applyAll_cons, hone]
    exact ih (fun q hq => hsub q (mem_cons_of_mem p hq))

section Assoc

variable [DecidableEq K]

/-- The overwrite of an association list. The first entry of a key counts. -/
def ofList (entries : List (K × V)) : K → Option V :=
  fun k => (entries.find? (fun e => e.1 = k)).map Prod.snd

@[simp] theorem ofList_nil (k : K) : ofList ([] : List (K × V)) k = none := rfl

theorem ofList_cons (e : K × V) (es : List (K × V)) (k : K) :
    ofList (e :: es) k = if e.1 = k then some e.2 else ofList es k := by
  by_cases h : e.1 = k <;> simp [ofList, h]

theorem ofList_eq_none_iff (es : List (K × V)) (k : K) :
    ofList es k = none ↔ k ∉ es.map Prod.fst := by
  induction es with
  | nil => simp
  | cons e es ih =>
    rw [ofList_cons]
    by_cases h : e.1 = k
    · simp [h]
    · simp [h, ih, Ne.symm h]

/-- Storing the entries one after another is the overwrite of the list when
no key occurs twice. -/
theorem foldl_update_eq_apply (es : List (K × V)) (hnodup : (es.map Prod.fst).Nodup) (f : K → V) :
    es.foldl (fun g e => Function.update g e.1 e.2) f = apply (ofList es) f := by
  induction es generalizing f with
  | nil =>
    funext k
    simp [apply]
  | cons e es ih =>
    obtain ⟨hnot, hrest⟩ := nodup_cons.mp hnodup
    rw [foldl_cons, ih hrest]
    funext k
    by_cases hk : e.1 = k
    · subst hk
      have hnone := (ofList_eq_none_iff es e.1).mpr hnot
      simp [apply, ofList_cons, hnone]
    · simp [apply, ofList_cons, hk, Function.update_of_ne (Ne.symm hk)]

end Assoc

end Overwrite
