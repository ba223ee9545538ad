import Terrier.Proof.LegalWrites

/-!
Start order instead of commit order. The writers of one slot do not overlap in time, so for the
content of a slot it makes no difference whether committed transactions are applied in the order
of their commits or of their starts.
-/

namespace Terrier

open List

variable {V : Type} {cfg : Config} {σ : State V} {h : List (Event V)} {slot : TupleSlot}
  {x : Nat × Nat} {commits : List (Nat × Nat)}

/-- On the writers of a slot, commit order is start order. -/
theorem Writers.start_lt_of_commit_lt (hw : Writers h σ) {y : Nat × Nat} (hx : x ∈ commitsOf h)
    (hy : y ∈ commitsOf h) (hxw : writesOf h x.1 slot ≠ []) (hyw : writesOf h y.1 slot ≠ [])
    (hlt : x.2 < y.2) : x.1 < y.1 := by
  obtain ⟨t, c⟩ := x
  obtain ⟨u, d⟩ := y
  have htc := (hw.commit_lt hx).1
  by_cases htu : t = u
  · subst htu
    have hsame : c = d := by
      by_contra hne
      have hsymm : Std.Symm (fun x y : Nat × Nat => x.1 ≠ y.1) := ⟨fun _ _ hne => hne.symm⟩
      exact (hw.commits_sorted.imp (fun h => h.2)).forall hx hy (by simpa using hne) rfl
    exact absurd hlt (by simp [hsame])
  · rcases hw.committed_apart hx hy htu hxw hyw with hcu | hdt
    · exact htc.trans hcu
    · have hlt : c < d := hlt
      omega

/-- The same commits in the order of their starts and of their commit times
leave the same row in a slot. -/
theorem Writers.effectOf_eq (hw : Writers h σ) {A B : List (Nat × Nat)}
    (hA : A.Pairwise (fun x y => x.1 < y.1)) (hBmem : ∀ x ∈ B, x ∈ commitsOf h)
    (hB : B.Pairwise (fun x y => x.2 < y.2))
    (hsame : ∀ x, writesOf h x.1 slot ≠ [] → (x ∈ A ↔ x ∈ B)) :
    effectOf h slot A = effectOf h slot B := by
  have hskip : ∀ commits : List (Nat × Nat), effectOf h slot commits =
      effectOf h slot (commits.filter (fun x => !(writesOf h x.1 slot).isEmpty)) := by
    intro commits
    exact (effectOf_filter _ _ (fun x _ hempty => by simpa using hempty)).symm
  have hwr : ∀ {commits : List (Nat × Nat)} {x : Nat × Nat},
      x ∈ commits.filter (fun x => !(writesOf h x.1 slot).isEmpty) →
      x ∈ commits ∧ writesOf h x.1 slot ≠ [] := by
    intro commits x hx
    simpa using hx
  have hBstart : (B.filter (fun x => !(writesOf h x.1 slot).isEmpty)).Pairwise
      (fun x y => x.1 < y.1) := by
    refine (hB.filter _).imp_of_mem ?_
    intro x y hx hy hlt
    obtain ⟨hx, hxw⟩ := hwr hx
    obtain ⟨hy, hyw⟩ := hwr hy
    exact hw.start_lt_of_commit_lt (hBmem x hx) (hBmem y hy) hxw hyw hlt
  have hAstart := hA.filter (fun x => !(writesOf h x.1 slot).isEmpty)
  rw [hskip A, hskip B]
  congr 1
  refine List.Perm.eq_of_pairwise ?_ hAstart hBstart ?_
  · intro x y _ _ hlt hgt
    exact absurd hlt hgt.asymm
  · refine (perm_ext_iff_of_nodup (hAstart.imp ?_) (hBstart.imp ?_)).mpr ?_
    · exact fun hlt heq => absurd hlt (by simp [heq])
    · exact fun hlt heq => absurd hlt (by simp [heq])
    · intro x
      simp only [mem_filter, Bool.not_eq_true', isEmpty_eq_false_iff]
      exact and_congr_left (hsame x)

def byStart (commits : List (Nat × Nat)) : List (Nat × Nat) :=
  commits.insertionSort (fun x y => x.1 ≤ y.1)

theorem mem_byStart : x ∈ byStart commits ↔ x ∈ commits :=
  (perm_insertionSort _ _).mem_iff

theorem byStart_sorted (hne : commits.Pairwise (fun x y => x.1 ≠ y.1)) :
    (byStart commits).Pairwise (fun x y => x.1 < y.1) := by
  have hle : (byStart commits).Pairwise (fun x y => x.1 ≤ y.1) :=
    pairwise_insertionSort _ commits
  have hne' : (byStart commits).Pairwise (fun x y => x.1 ≠ y.1) :=
    (perm_insertionSort _ commits).symm.pairwise hne (fun hxy => hxy.symm)
  exact hle.imp₂ (fun _ _ hle hne => lt_of_le_of_ne hle hne) hne'

def ClosedOn (h : List (Event V)) (slot : TupleSlot) (commits : List (Nat × Nat)) : Prop :=
  ∀ x ∈ commitsOf h, writesOf h x.1 slot ≠ [] → ∀ y ∈ commits, x.2 < y.2 → x ∈ commits

/-- Where a transaction writes, the transactions that started before it have
left what it saw when it started. -/
theorem Writers.effectOf_earlier (hw : Writers h σ) {first rest : List (Nat × Nat)} {t c : Nat}
    (hmem : ∀ x ∈ commits, x ∈ commitsOf h) (hclose : ClosedOn h slot commits)
    (horder : byStart commits = first ++ (t, c) :: rest)
    (hsort : (byStart commits).Pairwise (fun x y => x.1 < y.1))
    (hwr : writesOf h t slot ≠ []) : effectOf h slot first = committedBefore h t slot := by
  rw [horder] at hsort
  obtain ⟨hfirst, hrest, hbef⟩ := pairwise_append.mp hsort
  have hin : ∀ x, x ∈ commits ↔ x ∈ first ∨ x = (t, c) ∨ x ∈ rest := by
    intro x
    rw [← mem_byStart, horder, mem_append, mem_cons]
  have htc := (hin (t, c)).mpr (.inr (.inl rfl))
  have hlt := (hw.commit_lt (hmem _ htc)).1
  refine hw.effectOf_eq hfirst (fun x hx => mem_of_mem_filter hx)
    ((hw.commits_sorted.filter _).imp (fun hxy => hxy.1)) ?_
  rintro ⟨u, d⟩ hwu
  rw [mem_filter, decide_eq_true_iff]
  constructor
  · intro hu
    have hut : u < t := hbef (u, d) hu (t, c) mem_cons_self
    have hud := hmem _ ((hin (u, d)).mpr (.inl hu))
    rcases hw.committed_apart hud (hmem _ htc) hut.ne hwu hwr with hdt | hcu
    · exact ⟨hud, hdt⟩
    · omega
  · rintro ⟨hud, hdt⟩
    have hud' := (hw.commit_lt hud).1
    rcases (hin (u, d)).mp (hclose _ hud hwu (t, c) htc (hdt.trans hlt)) with hu | heq | hu
    · exact hu
    · cases heq
      omega
    · have htu : t < u := (pairwise_cons.mp hrest).1 (u, d) hu
      omega

end Terrier
