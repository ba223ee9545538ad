import Mathlib.Tactic

/-!
Runs of a system whose steps may be impossible in a state. An interleaving is a
list of actions, each of which can be taken in the state that those before it
led to.
-/

namespace Runs

open Option

variable {σ α : Type*} {step : σ → α → Option σ} {s s' : σ}

def run (step : σ → α → Option σ) : σ → List α → Option σ
  | s, [] => some s
  | s, action :: actions => (step s action).bind fun next => run step next actions

variable {p : σ → Prop} {actions : List α} {allowed : σ → α → Bool}

/-- Every step of a run is taken in a state that allows it. -/
def Along (step : σ → α → Option σ) (allowed : σ → α → Bool) : σ → List α → Bool
  | _, [] => true
  | s, action :: actions => allowed s action && match step s action with
      | some next => Along step allowed next actions
      | none => true

theorem run_keeps_along
    (hkeeps : ∀ {s s' action}, allowed s action = true → step s action = some s' → p s → p s')
    (hrun : run step s actions = some s') (halong : Along step allowed s actions = true)
    (hp : p s) : p s' := by
  induction actions generalizing s with
  | nil =>
    cases hrun
    exact hp
  | cons action actions ih =>
    obtain ⟨next, hstep, hrest⟩ := bind_eq_some_iff.mp hrun
    rw [Along, hstep, Bool.and_eq_true] at halong
    exact ih hrest halong.2 (hkeeps halong.1 hstep hp)

theorem along_of_keeps (hkeeps : ∀ {s s' action}, step s action = some s' → p s → p s')
    (hallow : ∀ {s action}, p s → allowed s action = true) (hp : p s) (actions : List α) :
    Along step allowed s actions = true := by
  induction actions generalizing s with
  | nil => rfl
  | cons action actions ih =>
    rw [Along, hallow hp, Bool.true_and]
    split
    case h_1 next hstep => exact ih (hkeeps hstep hp)
    case h_2 => rfl

theorem run_keeps (hkeeps : ∀ {s s' action}, step s action = some s' → p s → p s')
    (hrun : run step s actions = some s') (hp : p s) : p s' :=
  run_keeps_along (fun _ => hkeeps) hrun
    (@along_of_keeps _ _ step s p (fun _ _ => true) hkeeps (fun _ => rfl) hp actions) hp

theorem of_guard {p : Prop} [Decidable p] {a b : σ} (h : (if p then some a else none) = some b) :
    p ∧ a = b := by
  obtain ⟨hp, heq⟩ := ite_none_right_eq_some.mp h
  exact ⟨hp, Option.some.inj heq⟩

end Runs
