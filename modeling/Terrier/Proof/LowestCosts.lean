import Terrier.Optimizer.GroupExpression
import Mathlib.Data.List.Nodup
import Mathlib.Data.List.Pairwise

/-!
The table of lowest costs has the inputs of the first call for a property set, so it is right only
where that call is also the cheapest.
-/

namespace Terrier.Optimizer

open List

variable {α κ : Type} [DecidableEq α] {calls table : List (CostEntry α κ)}
  {call first : CostEntry α κ} {properties : α}

/-- The calls for a property set. -/
def callsFor (properties : α) (calls : List (CostEntry α κ)) : List (CostEntry α κ) :=
  calls.filter (·.properties = properties)

theorem first_concat (h : first ∈ (callsFor properties calls).head?) :
    first ∈ (callsFor properties (calls ++ [call])).head? := by
  rw [callsFor] at h
  rw [callsFor, filter_append, head?_append]
  simp [Option.mem_def.1 h]

variable [LinearOrder κ]

structure KeepsCheapest (calls : List (CostEntry α κ)) (expr : GroupExpression α κ) : Prop where
  cheapest : ∀ properties,
    (expr.lowestCostTable.find? (·.properties = properties)).map (fun e => (e.cost, e.inputs)) =
      ((callsFor properties calls).argmin (·.cost)).map fun call => (call.cost, call.inputs)
  alive : ∀ pointer ∈ expr.lowestCostTable.flatMap CostEntry.pointers, pointer ∉ expr.deleted
  once : (destroyed expr).Nodup

/-- The first call for a property set is the cheapest one, or both have no inputs. -/
def FirstCheapest (calls : List (CostEntry α κ)) : Prop :=
  ∀ properties, ∀ first ∈ (callsFor properties calls).head?,
    ∀ best ∈ (callsFor properties calls).argmin (·.cost),
      first.cost ≤ best.cost ∨ first.inputs = [] ∧ best.inputs = []

theorem find_insertLowest (call : CostEntry α κ) (table : List (CostEntry α κ)) (properties : α) :
    (insertLowest call table).1.find? (·.properties = properties) =
      if call.properties = properties then
        match table.find? (·.properties = properties) with
        | none => some call
        | some entry =>
          some (if call.cost < entry.cost then { entry with cost := call.cost } else entry)
      else table.find? (·.properties = properties) := by
  induction table with
  | nil => by_cases h : call.properties = properties <;> simp [insertLowest, h]
  | cons entry rest ih =>
    rw [insertLowest]
    by_cases h : entry.properties = call.properties
    · by_cases hlt : call.cost < entry.cost <;> by_cases hc : call.properties = properties <;>
        simp [h, hlt, hc]
    · by_cases he : entry.properties = properties
      · have hc : ¬ call.properties = properties := fun hc => h (he.trans hc.symm)
        rw [if_neg h, if_neg hc, find?_cons_of_pos (by simpa using he),
          find?_cons_of_pos (by simpa using he)]
      · simp [h, he, ih]

/-- A call that stores nothing twice accounts for what it deletes and keeps. -/
theorem count_insertLowest (pointer : Nat)
    (h : ∀ entry ∈ table.find? (·.properties = call.properties), call.cost < entry.cost →
      entry.inputs = []) :
    (insertLowest call table).2.count pointer +
        ((insertLowest call table).1.flatMap CostEntry.pointers).count pointer ≤
      call.pointers.count pointer + (table.flatMap CostEntry.pointers).count pointer := by
  induction table with
  | nil => simp [insertLowest]
  | cons entry rest ih =>
    rw [insertLowest, flatMap_cons, count_append]
    by_cases he : entry.properties = call.properties
    · by_cases hlt : call.cost < entry.cost
      · have hnil : entry.inputs = [] := h entry (by simp [he]) hlt
        simp only [if_pos he, if_pos hlt, hnil, flatMap_cons, count_append, CostEntry.pointers,
          count_cons, count_nil]
        omega
      · simp only [if_pos he, if_neg hlt, flatMap_cons, count_append, CostEntry.pointers]
        omega
    · have hrest := ih fun found hfound => h found (by simpa [he] using hfound)
      simp only [if_neg he, flatMap_cons, count_append]
      omega

theorem runCalls_concat (calls : List (CostEntry α κ)) (call : CostEntry α κ) :
    runCalls (calls ++ [call]) = setLocalHashTable (runCalls calls) call := by
  rw [runCalls, foldl_append]
  rfl

/-- An entry has the addresses of the first call and the least cost. -/
theorem find_runCalls (calls : List (CostEntry α κ)) (properties : α) :
    (runCalls calls).lowestCostTable.find? (·.properties = properties) =
      (callsFor properties calls).head?.bind fun first =>
        ((callsFor properties calls).argmin (·.cost)).map fun best =>
          { first with cost := best.cost } := by
  induction calls using List.reverseRecOn with
  | nil => rfl
  | append_singleton calls call ih =>
    rw [runCalls_concat, setLocalHashTable, find_insertLowest, ih, callsFor, callsFor,
      filter_append]
    by_cases hc : call.properties = properties
    · rw [if_pos hc, filter_cons_of_pos (by simpa using hc), filter_nil, argmin_concat,
        head?_append]
      cases hfirst : calls.filter (·.properties = properties) with
      | nil => simp
      | cons first rest =>
        rw [← hfirst]
        cases hbest : argmin (·.cost) (calls.filter (·.properties = properties)) with
        | none => simp [argmin_eq_none, hfirst] at hbest
        | some best => by_cases hlt : call.cost < best.cost <;> simp [hfirst, hlt]
    · rw [if_neg hc, filter_cons_of_neg (by simpa using hc), filter_nil, append_nil]

theorem count_destroyed (pointer : Nat)
    (h : ∀ properties, ∀ first ∈ (callsFor properties calls).head?,
      (∀ call ∈ callsFor properties calls, first.cost ≤ call.cost) ∨ first.inputs = []) :
    (destroyed (runCalls calls)).count pointer ≤
      (calls.flatMap CostEntry.pointers).count pointer := by
  induction calls using List.reverseRecOn with
  | nil => exact le_rfl
  | append_singleton calls call ih =>
    have hrest := ih fun properties first hfirst =>
      (h properties first (first_concat hfirst)).imp_left fun hall other hother =>
        hall other (by simp [callsFor] at hother ⊢; tauto)
    have hstep := @count_insertLowest _ _ _ (runCalls calls).lowestCostTable call _ pointer ?_
    · rw [runCalls_concat, setLocalHashTable]
      simp only [destroyed, count_append, flatMap_append, flatMap_cons, flatMap_nil,
        count_nil] at hrest hstep ⊢
      omega
    · intro entry hentry hlt
      rw [find_runCalls] at hentry
      obtain ⟨first, hfirst, hentry⟩ := Option.mem_bind_iff.1 hentry
      obtain ⟨best, hbest, rfl⟩ := Option.mem_map.1 hentry
      refine (h _ first (first_concat hfirst)).resolve_left fun hall => ?_
      have hle := hall call (by simp [callsFor])
      have hleast : best.cost ≤ first.cost := le_of_mem_argmin (mem_of_mem_head? hfirst) hbest
      exact (hle.trans_lt hlt).not_ge hleast

theorem once_of_firstCheapest (hfresh : (calls.flatMap CostEntry.pointers).Nodup)
    (h : FirstCheapest calls) : (destroyed (runCalls calls)).Nodup := by
  rw [nodup_iff_count_le_one] at hfresh ⊢
  intro pointer
  refine (count_destroyed pointer fun properties first hfirst => ?_).trans (hfresh pointer)
  cases hbest : (callsFor properties calls).argmin (·.cost) with
  | none => simp [argmin_eq_none.1 hbest] at hfirst
  | some best =>
    refine (h properties first hfirst best hbest).imp (fun hle call hcall => ?_) And.left
    exact hle.trans (le_of_mem_argmin hcall hbest)

/-- With fresh property sets, the cheapest inputs are kept, alive and deleted at most once exactly
if the first calls are the cheapest ones, or have no inputs and neither have the cheapest. -/
theorem keepsCheapest_iff (calls : List (CostEntry α κ))
    (hfresh : (calls.flatMap CostEntry.pointers).Nodup) :
    KeepsCheapest calls (runCalls calls) ↔ FirstCheapest calls := by
  constructor
  · intro hkeeps properties first hfirst best hbest
    rw [or_iff_not_imp_left]
    intro hcost
    have hinputs : first.inputs = best.inputs := by
      have hkept := hkeeps.cheapest properties
      rw [find_runCalls, Option.mem_def.1 hfirst, Option.mem_def.1 hbest] at hkept
      simpa using hkept
    have : Std.Symm (Function.onFun Disjoint (CostEntry.pointers : CostEntry α κ → List Nat)) :=
      ⟨fun _ _ h _ hleft hright => h hright hleft⟩
    have hdisjoint : Disjoint first.pointers best.pointers :=
      (nodup_flatMap.1 hfresh).2.forall
        (mem_of_mem_filter (mem_of_mem_head? hfirst)) (mem_of_mem_filter (argmin_mem hbest))
        (by rintro rfl; exact hcost le_rfl)
    have hnil : first.inputs = [] := eq_nil_iff_forall_not_mem.2 fun pointer h =>
      hdisjoint (mem_cons_of_mem _ h) (mem_cons_of_mem _ (hinputs ▸ h))
    exact ⟨hnil, hinputs ▸ hnil⟩
  · intro hcheapest
    have honce := once_of_firstCheapest hfresh hcheapest
    refine ⟨fun properties => ?_, fun pointer h h' => ?_, honce⟩
    · rw [find_runCalls]
      cases hfirst : (callsFor properties calls).head? with
      | none => simp [head?_eq_none_iff.1 hfirst]
      | some first =>
        cases hbest : (callsFor properties calls).argmin (·.cost) with
        | none => rfl
        | some best =>
          obtain hle | ⟨hnil, hnil'⟩ := hcheapest properties first hfirst best hbest
          · have hself : first ∈ (callsFor properties calls).argmin (·.cost) := by
              obtain ⟨rest, hcalls⟩ := head?_eq_some_iff.1 hfirst
              refine mem_argmin_iff.2 ⟨mem_of_mem_head? hfirst, fun call hcall => ?_, ?_⟩
              · exact hle.trans (le_of_mem_argmin hcall hbest)
              · simp [hcalls]
            cases hbest.symm.trans hself
            rfl
          · simp [hnil, hnil']
    · exact (nodup_append.1 honce).2.2 pointer h' pointer h rfl

theorem keepsCheapest_two :
    KeepsCheapest [⟨(), 1, [2], 1⟩, ⟨(), 3, [4], 5⟩]
      (runCalls ([⟨(), 1, [2], 1⟩, ⟨(), 3, [4], 5⟩] : List (CostEntry Unit Nat))) := by
  apply (keepsCheapest_iff _ (by decide)).2
  intro _ first hfirst best hbest
  cases hfirst
  cases hbest
  exact .inl le_rfl

/-- A cheaper second call: its inputs are lost, and those of the first are deleted and kept. -/
def cheaperSecond : List (CostEntry Nat Nat) := [⟨0, 1, [2], 5⟩, ⟨0, 3, [4], 1⟩]

theorem cheaper_inputs_lost : runCalls cheaperSecond = ⟨[⟨0, 1, [2], 1⟩], [3, 2]⟩ ∧
    ¬ KeepsCheapest cheaperSecond (runCalls cheaperSecond) :=
  ⟨by decide, fun h => absurd h.once (by decide)⟩

end Terrier.Optimizer
