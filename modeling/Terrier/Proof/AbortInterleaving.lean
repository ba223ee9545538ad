import Terrier.Proof.SnapshotIsolation
import Terrier.Transaction.AbortSteps

/-!
Readers in the middle of an abort. The abort time is stored in one record after another, so a
transaction that begins now can find it in the older records only, and undo the others on top of
the restored tuple. That is harmless if the records of a slot agree on what they write back.
-/

namespace Terrier

open List State

variable {V : Type} {cfg : Config} {pending : List Nat} {σ τ : State V} {h : List (Event V)}
  {t : Nat} {txn : TransactionContext V}

def State.installedDeltas (σ : State V) (txn : TransactionContext V) (slot : TupleSlot) :
    List (UndoDelta V) :=
  σ.deltas (txn.undoBuffer.filter
    (fun a => decide ((σ.undo a).slot = slot) && (σ.undo a).table.isSome))

/-- What an aborting transaction must not have done: delete a tuple that it inserted, or change a
column of an older tuple twice. The second is stated on the before-images, which then agree. -/
structure FlipSafe (σ : State V) (txn : TransactionContext V) : Prop where
  inserted : ∀ slot, UndoDelta.insert ∈ σ.installedDeltas txn slot →
    UndoDelta.delete ∉ σ.installedDeltas txn slot
  updated : ∀ slot, UndoDelta.insert ∉ σ.installedDeltas txn slot →
    Overwrite.Agree ((σ.installedDeltas txn slot).map UndoDelta.overwrite)

/-- A state in the middle of an abort that started in `σ`: slots are restored or not, and after
the abort time is known, all slots are restored and the records carry either of two timestamps. -/
structure HalfAborted (σ : State V) (t : Nat) (txn : TransactionContext V) (τ : State V) :
    Prop where
  restored : ∀ slot, τ.tuples slot = σ.tuples slot ∨ τ.tuples slot = σ.restored txn slot
  delta : ∀ a, (τ.undo a).delta = (σ.undo a).delta
  outside : ∀ a ∉ txn.undoBuffer, τ.undo a = σ.undo a
  published : τ.undo = σ.undo ∨ ∃ c, τ.tuples = σ.restored txn ∧
    (∀ slot, ∀ a ∈ (σ.tuples slot).chain, ∀ d, (σ.undo a).timestamp = .time d → d < c) ∧
    (∀ r x, r ≠ t → τ.activeTxn r = some x → r ≠ c) ∧
    ∀ a ∈ txn.undoBuffer, τ.undo a = σ.undo a ∨ (τ.undo a).timestamp = .time c

variable {slot : TupleSlot}

namespace HalfAborted

theorem chain_eq (hhalf : HalfAborted σ t txn τ) (slot : TupleSlot) :
    (τ.tuples slot).chain = (σ.tuples slot).chain := by
  rcases hhalf.restored slot with hsame | hrestored
  · rw [hsame]
  · rw [hrestored, restored_chain]

/-- On a slot that the aborting transaction wrote, no other transaction finds
a head of its own. -/
theorem head_ne (hcons : Consistent pending σ) (hactive : σ.activeTxn t = some txn)
    (hhalf : HalfAborted σ t txn τ) (hrec : σ.HasRecord txn slot) {r : Nat} (hr : r ≠ t) :
    τ.headTimestamp slot ≠ some (.txnId r) := by
  unfold headTimestamp
  rw [hhalf.chain_eq]
  cases hchain : (σ.tuples slot).chain with
  | nil => simp
  | cons a rest =>
    have ha : a ∈ (σ.tuples slot).chain := by simp [hchain]
    simp only [head?_cons, Option.map_some, ne_eq, Option.some.injEq]
    intro hts
    rcases Versions.own_or_past hcons hactive hrec ha with ⟨hmem, hown⟩ | ⟨hmem, c, hc, -⟩
    · have hsame : τ.undo a = σ.undo a → False := fun hsame => by
        rw [hsame, hown] at hts
        exact hr (Timestamp.txnId.inj hts).symm
      rcases hhalf.published with hundo | ⟨c, -, -, -, hundo⟩
      · exact hsame (by rw [hundo])
      · rcases hundo a hmem with heq | hc
        · exact hsame heq
        · simp [hts] at hc
    · rw [hhalf.outside a hmem, hc] at hts
      cases hts

/-- The walk of a reader for whom the records look as before the abort. -/
theorem seen_eq (hcons : Consistent pending σ) (hhalf : HalfAborted σ t txn τ) {r : Nat}
    (hhead : τ.headTimestamp slot ≠ some (.txnId r))
    (hnew : ∀ a ∈ (σ.tuples slot).chain, τ.tooNew r a = σ.tooNew r a) :
    τ.seen r (.txnId r) slot = undoAll (σ.deltas ((σ.foreignVersions t slot).filter (σ.tooNew r)))
        (undoAll (σ.deltas (σ.ownVersions t slot)) (τ.tuples slot).view) := by
  have hwalk : (τ.tuples slot).chain.takeWhile (τ.tooNew r) =
      σ.ownVersions t slot ++ (σ.foreignVersions t slot).filter (σ.tooNew r) := by
    have hown : (σ.ownVersions t slot).filter (σ.tooNew r) = σ.ownVersions t slot := by
      rw [filter_eq_self]
      intro a ha
      have hts : (σ.undo a).timestamp = .txnId t := by simpa using (mem_filter.mp ha).2
      simp [tooNew, hts]
    rw [hhalf.chain_eq, SortedPrefix.takeWhile_congr hnew,
      SortedPrefix.takeWhile_eq_filter (hcons.readable slot r)]
    conv_lhs => rw [← hcons.own_append_foreign t slot]
    rw [filter_append, hown]
  unfold seen
  rw [if_neg hhead, hwalk, map_append, undoAll_append]
  simp only [hhalf.delta]
  rfl

end HalfAborted

theorem Consistent.mem_own_iff (hcons : Consistent pending σ) (hactive : σ.activeTxn t = some txn)
    (slot : TupleSlot) (delta : UndoDelta V) :
    delta ∈ σ.deltas (σ.ownVersions t slot) ↔ delta ∈ σ.installedDeltas txn slot := by
  obtain ⟨ht, hid⟩ := activeTxn_eq_some_iff.mp hactive
  simp only [deltas, installedDeltas, ownVersions, List.mem_map,
    mem_filter, Bool.and_eq_true, decide_eq_true_eq]
  constructor
  · rintro ⟨a, ⟨ha, hts⟩, rfl⟩
    exact ⟨a, ⟨hcons.mem_buffer_of_chain hactive ha hts, hcons.chain_record ha⟩, rfl⟩
  · rintro ⟨a, ⟨ha, hslot, hsome⟩, rfl⟩
    have hmem := hcons.installed_of_active ht hid ha hsome
    rw [hslot] at hmem
    exact ⟨a, ⟨hmem, (hcons.buffer_timestamp ht ha).trans hid⟩, rfl⟩

/-- Undoing a part of the records once more, after all of them. -/
theorem FlipSafe.replay (hsafe : FlipSafe σ txn) (hcons : Consistent pending σ)
    (hactive : σ.activeTxn t = some txn) {replayed : List (UndoDelta V)}
    (hsub : ∀ d ∈ replayed, d ∈ σ.deltas (σ.ownVersions t slot)) (view : TupleView V) :
    let restored := undoAll (σ.deltas (σ.ownVersions t slot)) view
    (undoAll replayed restored).visible = restored.visible ∧
      (restored.visible = true → (undoAll replayed restored).attrs = restored.attrs) := by
  intro restored
  have hmem := hcons.mem_own_iff hactive slot
  by_cases hins : UndoDelta.insert ∈ σ.installedDeltas txn slot
  · -- the tuple was not there before the transaction and is hidden in either view
    have hdel := hsafe.inserted slot hins
    have hfalse : ∀ d ∈ σ.deltas (σ.ownVersions t slot), ∀ v, d.visibility = some v →
        v = false := by
      intro d hd v hv
      cases d with
      | update before => cases hv
      | insert => exact (Option.some.inj hv).symm
      | delete => exact absurd ((hmem _).mp hd) hdel
    have hhidden : restored.visible = false :=
      undoAll_visible_of_mem hfalse ((hmem _).mpr hins) rfl view
    exact ⟨undoAll_replay_visible hfalse hsub view, fun hvis => by simp [hhidden] at hvis⟩
  · have htrue : ∀ d ∈ σ.deltas (σ.ownVersions t slot), ∀ v, d.visibility = some v → v = true := by
      intro d hd v hv
      cases d with
      | update before => cases hv
      | insert => exact absurd ((hmem _).mp hd) hins
      | delete => exact (Option.some.inj hv).symm
    have hagree : Overwrite.Agree ((σ.deltas (σ.ownVersions t slot)).map UndoDelta.overwrite) := by
      intro o ho p hp k v w hv hw
      obtain ⟨d, hd, rfl⟩ := List.mem_map.mp ho
      obtain ⟨e, he, rfl⟩ := List.mem_map.mp hp
      exact hsafe.updated slot hins _ (List.mem_map_of_mem ((hmem d).mp hd)) _
        (List.mem_map_of_mem ((hmem e).mp he)) k v w hv hw
    exact ⟨undoAll_replay_visible htrue hsub view, fun _ => undoAll_replay_attrs hagree hsub view⟩

namespace HalfAborted

theorem refl (σ : State V) (t : Nat) (txn : TransactionContext V) : HalfAborted σ t txn σ :=
  ⟨fun _ => Or.inl rfl, fun _ => rfl, fun _ _ => rfl, .inl rfl⟩

section Written

variable {r : Nat} {slot : TupleSlot}

/-- What the others see in a slot that the transaction wrote, before it aborts. -/
theorem seen_before (hcons : Consistent pending σ) (hactive : σ.activeTxn t = some txn)
    (hrec : σ.HasRecord txn slot) (hr : r ≠ t) :
    σ.seen r (.txnId r) slot = undoAll (σ.deltas ((σ.foreignVersions t slot).filter (σ.tooNew r)))
        (undoAll (σ.deltas (σ.ownVersions t slot)) (σ.tuples slot).view) :=
  (refl σ t txn).seen_eq hcons ((refl σ t txn).head_ne hcons hactive hrec hr) (fun _ _ => rfl)

section

variable (href : Refines cfg h σ) (hactive : σ.activeTxn t = some txn)
include href hactive

/-- A slot that is free after the rollback was inserted by the transaction, so
that nobody else has seen a tuple there. -/
theorem allocated_eq (hhalf : HalfAborted σ t txn τ) (hrec : σ.HasRecord txn slot) (hr : r ≠ t)
    (hvis : (σ.seen r (.txnId r) slot).visible = true) :
    (τ.tuples slot).allocated = (σ.tuples slot).allocated := by
  have hcons := href.engine.consistent
  obtain ⟨hview, hfree⟩ :=
    href.versions.restored_spec hcons href.disciplined hactive hrec
  rcases hhalf.restored slot with hsame | hrestored
  · rw [hsame]
  · rw [hrestored, (href.versions.own hactive hrec).2]
    by_contra hne
    have hnot : (σ.restored txn slot).allocated = false := by simpa using hne
    rw [seen_before hcons hactive hrec hr, hfree hnot, ← hview] at hvis
    simp [deltas, Tuple.view, Tuple.visible, hnot] at hvis

/-- A reader for whom all records of the transaction are too new undoes all of
them, on the old tuple or on the restored one. -/
theorem sameReads_early (hhalf : HalfAborted σ t txn τ) (hrec : σ.HasRecord txn slot)
    (hr : r ≠ t) (hnew : ∀ a ∈ (σ.tuples slot).chain, τ.tooNew r a = σ.tooNew r a) :
    SameReads σ τ r (.txnId r) slot := by
  have hcons := href.engine.consistent
  have hseen : τ.seen r (.txnId r) slot = σ.seen r (.txnId r) slot := by
    rw [hhalf.seen_eq hcons (hhalf.head_ne hcons hactive hrec hr) hnew,
      seen_before hcons hactive hrec hr]
    rcases hhalf.restored slot with hsame | hrestored
    · rw [hsame]
    · rw [hrestored, (href.versions.restored_spec hcons href.disciplined hactive hrec).1,
        undoAll_idem]
  exact .of_seen (by rw [hseen]) (fun _ => by rw [hseen]) (hhalf.allocated_eq href hactive hrec hr)

/-- A reader that began after the abort time was checked out undoes those
records that do not carry it yet, on the restored tuple. -/
theorem sameReads_late (hsafe : FlipSafe σ txn) (hhalf : HalfAborted σ t txn τ)
    (hrec : σ.HasRecord txn slot) (hr : r ≠ t) (hrestored : τ.tuples slot = σ.restored txn slot)
    (hold : ∀ a ∈ (σ.tuples slot).chain, ∀ d, (σ.undo a).timestamp = .time d → d < r) :
    SameReads σ τ r (.txnId r) slot := by
  have hcons := href.engine.consistent
  have hview := (href.versions.restored_spec hcons href.disciplined hactive hrec).1
  have hforeign : ∀ a ∈ σ.foreignVersions t slot, σ.tooNew r a = false ∧ τ.tooNew r a = false := by
    intro a ha
    obtain ⟨hchain, hother⟩ := mem_filter.mp ha
    rcases Versions.own_or_past hcons hactive hrec hchain with ⟨-, hown⟩ | ⟨hmem, d, hd, -⟩
    · simp [hown] at hother
    · have hlt := hold a hchain d hd
      simp only [tooNew, hhalf.outside a hmem, hd, Timestamp.newerThan_time_time,
        decide_eq_false_iff_not, and_self]
      omega
  have hbef : σ.seen r (.txnId r) slot =
      undoAll (σ.deltas (σ.ownVersions t slot)) (σ.tuples slot).view := by
    have hnone : (σ.foreignVersions t slot).filter (σ.tooNew r) = [] :=
      filter_eq_nil_iff.mpr (fun a ha => by simp [(hforeign a ha).1])
    rw [seen_before hcons hactive hrec hr, hnone]
    rfl
  have hpart : ∀ d ∈ ((τ.tuples slot).chain.takeWhile (τ.tooNew r)).map
      (fun a => (τ.undo a).delta), d ∈ σ.deltas (σ.ownVersions t slot) := by
    intro d hd
    obtain ⟨a, ha, rfl⟩ := List.mem_map.mp hd
    have hnew := mem_takeWhile_imp ha
    have hchain := takeWhile_subset _ ha
    rw [hhalf.chain_eq, ← hcons.own_append_foreign t slot] at hchain
    rw [hhalf.delta]
    rcases mem_append.mp hchain with hown | hother
    · exact List.mem_map_of_mem hown
    · rw [(hforeign a hother).2] at hnew
      cases hnew
  obtain ⟨hvis, hattrs⟩ := hsafe.replay hcons hactive hpart (σ.tuples slot).view
  have hafter : τ.seen r (.txnId r) slot = undoAll (((τ.tuples slot).chain.takeWhile
      (τ.tooNew r)).map (fun a => (τ.undo a).delta))
      (undoAll (σ.deltas (σ.ownVersions t slot)) (σ.tuples slot).view) := by
    unfold seen
    rw [if_neg (hhalf.head_ne hcons hactive hrec hr), ← hview, ← hrestored]
  rw [← hafter, ← hbef] at hvis hattrs
  exact .of_seen hvis hattrs (hhalf.allocated_eq href hactive hrec hr)

end

end Written

/-- In the middle of an abort every other transaction reads as before it. -/
theorem sameReads (href : Refines cfg h σ) (hactive : σ.activeTxn t = some txn)
    (hsafe : FlipSafe σ txn) (hhalf : HalfAborted σ t txn τ) {r : Nat}
    {reader : TransactionContext V} (hr : r ≠ t) (hreader : τ.activeTxn r = some reader)
    (slot : TupleSlot) : SameReads σ τ r (.txnId r) slot := by
  have hcons := href.engine.consistent
  by_cases hrec : σ.HasRecord txn slot
  · rcases hhalf.published with hundo | ⟨c, hrestored, hpast, hne, hundo⟩
    · exact hhalf.sameReads_early href hactive hrec hr (fun a _ => by simp [tooNew, hundo])
    · rcases Nat.lt_or_gt_of_ne (hne r reader hr hreader) with hlt | hgt
      · refine hhalf.sameReads_early href hactive hrec hr (fun a ha => ?_)
        rcases Versions.own_or_past hcons hactive hrec ha with ⟨hmem, hown⟩ | ⟨hmem, -⟩
        · rcases hundo a hmem with heq | hc
          · simp [tooNew, heq]
          · simp [tooNew, hc, hown, hlt]
        · simp [tooNew, hhalf.outside a hmem]
      · exact hhalf.sameReads_late href hactive hsafe hrec hr (by rw [hrestored])
          (fun a ha d hd => (hpast slot a ha d hd).trans hgt)
  · have htuple : τ.tuples slot = σ.tuples slot := by
      rcases hhalf.restored slot with hsame | hrestored
      · exact hsame
      · rw [hrestored, Versions.restored_eq href.disciplined hactive hrec]
    exact .congr htuple (fun a ha => hhalf.outside a
      (fun hmem => hrec ⟨a, hmem, hcons.chain_record ha⟩)) r _

end HalfAborted

structure Published (σ : State V) (t : Nat) (txn : TransactionContext V) (τ : State V) (c : Nat)
    (front : List Nat) : Prop where
  tuples : τ.tuples = σ.restored txn
  undo : ∀ a, τ.undo a = if a ∈ front then { σ.undo a with timestamp := .time c } else σ.undo a
  past : ∀ slot, ∀ a ∈ (σ.tuples slot).chain, ∀ d, (σ.undo a).timestamp = .time d → d < c
  lt : c < τ.time
  ne : ∀ r x, r ≠ t → τ.activeTxn r = some x → r ≠ c

/-- The data of a state at each point of an abort that started in `σ`. -/
def Aborter.Valid (σ : State V) (t : Nat) (txn : TransactionContext V) (τ : State V) :
    Aborter → Prop
  | .rollback rest slotsRolledBack => τ.undo = σ.undo ∧ ∃ front, txn.undoBuffer = front ++ rest ∧
      front.foldl (State.rollbackRecord txn.finishTime) (σ, []) =
        ({ σ with tuples := τ.tuples }, slotsRolledBack)
  | .publish c rest => ∃ front, txn.undoBuffer = front ++ rest ∧ Published σ t txn τ c front
  | .done => ∃ c, Published σ t txn τ c txn.undoBuffer

theorem State.rollsBack_append {front : List Nat} (hroll : σ.rollsBack front slot = true)
    (rest : List Nat) : σ.rollsBack (front ++ rest) slot = true := by
  unfold rollsBack at hroll ⊢
  rw [find?_append]
  cases hfind : front.find? (fun a => decide ((σ.undo a).slot = slot)) with
  | none => simp [hfind] at hroll
  | some a => simpa [hfind] using hroll

theorem Published.halfAborted {c : Nat} {front : List Nat} (hpub : Published σ t txn τ c front)
    (hsub : front ⊆ txn.undoBuffer) : HalfAborted σ t txn τ where
  restored slot := Or.inr (by rw [hpub.tuples])
  delta a := by
    rw [hpub.undo]
    split_ifs <;> rfl
  outside a ha := by rw [hpub.undo, if_neg (fun hmem => ha (hsub hmem))]
  published := by
    refine Or.inr ⟨c, hpub.tuples, hpub.past, hpub.ne, fun a _ => ?_⟩
    rw [hpub.undo]
    split_ifs
    · exact .inr rfl
    · exact .inl rfl

theorem Aborter.Valid.halfAborted {pc : Aborter} (hvalid : pc.Valid σ t txn τ) :
    HalfAborted σ t txn τ := by
  cases pc with
  | rollback rest slots =>
    obtain ⟨hundo, front, hbuf, hfold⟩ := hvalid
    refine ⟨fun slot => ?_, fun a => by rw [hundo], fun a _ => by rw [hundo], .inl hundo⟩
    have htup : τ.tuples slot =
        if σ.rollsBack front slot = true then σ.rolledBack txn.finishTime slot
        else σ.tuples slot := by
      have hstate : σ.rollbackRecords txn.finishTime front = { σ with tuples := τ.tuples } :=
        congrArg Prod.fst hfold
      rw [rollbackRecords_eq] at hstate
      exact (congrFun (congrArg tuples hstate) slot).symm
    rw [htup]
    split_ifs with hroll
    · right
      rw [restored, hbuf, if_pos (rollsBack_append hroll rest)]
    · exact .inl rfl
  | publish c rest =>
    obtain ⟨front, hbuf, hpub⟩ := hvalid
    exact hpub.halfAborted (by simp [hbuf])
  | done =>
    obtain ⟨c, hpub⟩ := hvalid
    exact hpub.halfAborted (List.Subset.refl _)

/-- The state that the others would be in if the abort had not started, with a
timestamp checked out in its place. -/
structure Shadow (cfg : Config) (h : List (Event V)) (σ : State V) (t : Nat) (τ : State V)
    (k : List (Event V)) (ρ : State V) : Prop where
  refines : Refines cfg k ρ
  contract : MustAbortContract k
  snapshot : ∀ r slot, snapshot k r slot = snapshot h r slot
  undo : ρ.undo = σ.undo
  tuples : ρ.tuples = σ.tuples
  time : ρ.time = τ.time
  others : ∀ r, r ≠ t → ρ.activeTxn r = τ.activeTxn r

structure MidAbort (cfg : Config) (h : List (Event V)) (σ : State V) (t : Nat)
    (txn : TransactionContext V) (τ : State V) (pc : Aborter) : Prop where
  shadow : ∃ k ρ, Shadow cfg h σ t τ k ρ
  le : σ.time ≤ τ.time
  valid : pc.Valid σ t txn τ

namespace MidAbort

theorem start (href : Refines cfg h σ) (hcontr : MustAbortContract h) :
    MidAbort cfg h σ t txn σ (.rollback txn.undoBuffer []) where
  shadow := ⟨h, σ, href, hcontr, fun _ _ => rfl, rfl, rfl, rfl, fun _ _ => rfl⟩
  le := le_rfl
  valid := ⟨rfl, [], rfl, rfl⟩

theorem beginTransaction {pc : Aborter} (hmid : MidAbort cfg h σ t txn τ pc) :
    MidAbort cfg h σ t txn τ.beginTransaction pc := by
  obtain ⟨⟨k, ρ, href, hcontr, hsnapshot, hundo, htup, htime, hoth⟩, hle, hvalid⟩ := hmid
  have hcontr' : MustAbortContract (k ++ [.begin ρ.time]) := by
    refine pairwise_append.mpr ⟨hcontr, by simp, ?_⟩
    intro e _ f hf u _
    obtain rfl := mem_singleton.mp hf
    simp [Event.writer]
  have hactive : ∀ {υ : State V} {r x}, υ.beginTransaction.activeTxn r = some x →
      r = υ.time ∨ υ.activeTxn r = some x := by
    intro υ r x hr
    obtain ⟨hx, hid⟩ := State.activeTxn_eq_some_iff.mp hr
    by_cases hnew : r = υ.time
    · exact .inl hnew
    · refine Or.inr (State.activeTxn_eq_some_iff.mpr ⟨?_, hid⟩)
      simpa [State.beginTransaction, hnew] using hx
  refine ⟨⟨k ++ [.begin ρ.time], ρ.beginTransaction, href.step hcontr' (.begin ρ), hcontr',
    ?_, hundo, htup, ?_, ?_⟩, ?_, ?_⟩
  · intro r slot
    rw [Terrier.snapshot, committedBefore_snoc_of_none rfl (fun _ _ _ => rfl),
      writesOf_snoc_of_none k _ rfl, ← hsnapshot, Terrier.snapshot]
  · simp [State.beginTransaction, htime]
  · intro r hr
    have hr := hoth r hr
    simp only [State.activeTxn, State.beginTransaction, htime] at hr ⊢
    by_cases hnew : r = τ.time
    · simp [hnew]
    · simpa [hnew] using hr
  · exact hle.trans (Nat.le_succ _)
  · have hpublished : ∀ {c front}, Published σ t txn τ c front →
        Published σ t txn τ.beginTransaction c front := by
      intro c front hpub
      refine ⟨hpub.tuples, hpub.undo, hpub.past, hpub.lt.trans (Nat.lt_succ_self _), ?_⟩
      intro r x hr hx
      rcases hactive hx with rfl | hold
      · exact hpub.lt.ne'
      · exact hpub.ne r x hr hold
    cases pc with
    | rollback rest slots => exact hvalid
    | publish c rest =>
      obtain ⟨front, hbuf, hpub⟩ := hvalid
      exact ⟨front, hbuf, hpublished hpub⟩
    | done =>
      obtain ⟨c, hpub⟩ := hvalid
      exact ⟨c, hpublished hpub⟩

theorem rollbackRecord_same (finishTime : Timestamp) (slots : List TupleSlot) (a : Nat) :
    (State.rollbackRecord finishTime (τ, slots) a).1 =
      { τ with tuples := (rollbackRecord finishTime (τ, slots) a).1.tuples } := by
  simp only [rollbackRecord, rollback]
  split_ifs
  · rfl
  · split <;> rfl

theorem rollbackRecord_congr (hundo : τ.undo = σ.undo) (finishTime : Timestamp)
    (slots : List TupleSlot) (a : Nat) :
    State.rollbackRecord finishTime ({ σ with tuples := τ.tuples }, slots) a =
      ({ σ with tuples := (rollbackRecord finishTime (τ, slots) a).1.tuples },
        (rollbackRecord finishTime (τ, slots) a).2) := by
  have hchain := rollbackChain_congr
    (show undo { σ with tuples := τ.tuples } = τ.undo from hundo.symm) finishTime
  simp only [rollbackRecord, rollback, hundo]
  split_ifs
  · rfl
  · cases (σ.undo a).table with
    | none => rfl
    | some table => simp only [setTuple, hchain]

theorem logAbort_frame (cfg : Config) (τ : State V) (t : Nat) (done : TransactionContext V) :
    let υ := (τ.logAbort cfg t done).pushCompleted t
    υ.undo = τ.undo ∧ υ.tuples = τ.tuples ∧ υ.time = τ.time ∧
      ∀ r, r ≠ t → υ.activeTxn r = τ.activeTxn r := by
  simp only [logAbort]
  split_ifs
  · exact ⟨rfl, rfl, rfl, fun r hr => by
      simp [activeTxn, pushCompleted, addBuffersToFlushQueue, setTxn, hr]⟩
  · exact ⟨rfl, rfl, rfl, fun r hr => by
      simp [activeTxn, pushCompleted, removeTransactions, setTxn, hr]⟩

theorem abortStep (hcons : Consistent pending σ) {pc : Aborter}
    (hmid : MidAbort cfg h σ t txn τ pc) :
    MidAbort cfg h σ t txn (abortStep cfg t txn τ pc).1 (abortStep cfg t txn τ pc).2 := by
  obtain ⟨⟨k, ρ, hshadow⟩, hle, hvalid⟩ := hmid
  cases pc with
  | rollback rest slots =>
    obtain ⟨hundo, front, hbuf, hfold⟩ := hvalid
    cases rest with
    | nil =>
      refine ⟨⟨k, ρ.checkOutTimestamp, ?_⟩, hle.trans (Nat.le_succ _), [], rfl, ?_⟩
      · exact { hshadow with
          refines := hshadow.refines.checkOutTimestamp
          time := congrArg (· + 1) hshadow.time
          others := hshadow.others }
      · refine ⟨?_, by simp [hundo, Terrier.abortStep, checkOutTimestamp], ?_,
          Nat.lt_succ_self _, ?_⟩
        · have hstate : σ.rollbackRecords txn.finishTime txn.undoBuffer =
              { σ with tuples := τ.tuples } := by
            rw [hbuf, append_nil]
            exact congrArg Prod.fst hfold
          rw [rollbackRecords_eq] at hstate
          exact (congrArg tuples hstate).symm
        · intro slot a ha d hd
          rcases hcons.chain_timestamp ha with ⟨u, y, -, -, hts⟩ | ⟨c, hc, hlt⟩
          · simp [hts] at hd
          · obtain rfl : c = d := by simpa [hc] using hd
            exact hlt.trans_le hle
        · intro r x hr hx
          have hx : ρ.activeTxn r = some x := (hshadow.others r hr).trans hx
          have hlt := hshadow.refines.engine.consistent.txn_lt (activeTxn_eq_some_iff.mp hx).1
          rw [hshadow.time] at hlt
          exact hlt.ne
    | cons a rest =>
      have hsame := rollbackRecord_same (τ := τ) txn.finishTime slots a
      change MidAbort cfg h σ t txn (rollbackRecord txn.finishTime (τ, slots) a).1
        (.rollback rest (rollbackRecord txn.finishTime (τ, slots) a).2)
      refine ⟨⟨k, ρ, ?_⟩, ?_, ?_, front ++ [a], by simp [hbuf], ?_⟩
      · rw [hsame]
        exact { hshadow with }
      · rw [hsame]
        exact hle
      · rw [hsame]
        exact hundo
      · rw [foldl_append, hfold]
        exact rollbackRecord_congr hundo txn.finishTime slots a
  | publish c rest =>
    obtain ⟨front, hbuf, hpub⟩ := hvalid
    cases rest with
    | nil =>
      obtain ⟨hundo, htup, htime, hactive⟩ := logAbort_frame cfg τ t
        { txn with finishTime := .time c, aborted := true }
      refine ⟨⟨k, ρ, { hshadow with time := ?_, others := ?_ }⟩, ?_, c, ?_⟩
      · exact hshadow.time.trans htime.symm
      · exact fun r hr => (hshadow.others r hr).trans (hactive r hr).symm
      · exact hle.trans htime.ge
      · rw [append_nil] at hbuf
        subst hbuf
        refine ⟨htup.trans hpub.tuples, fun a => ?_, hpub.past, hpub.lt.trans_eq htime.symm,
          fun r x hr hx => hpub.ne r x hr ((hactive r hr).symm.trans hx)⟩
        exact (congrFun hundo a).trans (hpub.undo a)
    | cons a rest =>
      refine ⟨⟨k, ρ, { hshadow with }⟩, hle, front ++ [a], by simp [hbuf], ?_⟩
      refine ⟨hpub.tuples, fun b => ?_, hpub.past, hpub.lt, hpub.ne⟩
      have hb := hpub.undo b
      simp only [Terrier.abortStep, storeTimestamp]
      by_cases hba : b = a
      · subst hba
        have hfields := hpub.undo b
        simp only [Function.update_self, mem_append, mem_singleton, or_true, if_true]
        rw [hfields]
        split_ifs <;> rfl
      · simp only [Function.update_of_ne hba, hb, mem_append, mem_singleton, hba, or_false]
  | done => exact ⟨⟨k, ρ, hshadow⟩, hle, hvalid⟩

end MidAbort

/-- An aborting transaction is never seen, provided its records agree: at every point of the abort
`Select` and `IsVisible` of any other transaction give its snapshot. -/
theorem abort_unseen {junk : TupleSlot → ColId → Option V} (hrun : Run cfg junk h σ)
    (hcontract : MustAbortContract h) (hactive : σ.activeTxn t = some txn) (hsafe : FlipSafe σ txn)
    (moves : List AbortMove) {r : Nat} {reader : TransactionContext V} (hr : r ≠ t)
    (hreader : (interleave cfg t txn σ moves).1.activeTxn r = some reader) (slot : TupleSlot) :
    (∀ outBuffer, cfg.ValidColumns slot.table outBuffer →
      (((interleave cfg t txn σ moves).1.selectIntoBuffer r reader.finishTime slot
          outBuffer).1 = true ↔ (snapshot h r slot).isSome) ∧
        ∀ row, snapshot h r slot = some row →
          ((interleave cfg t txn σ moves).1.selectIntoBuffer r reader.finishTime slot
            outBuffer).2 = outBuffer.entries.map (fun entry => (entry.1, row entry.1))) ∧
      ((interleave cfg t txn σ moves).1.isVisible r reader.finishTime slot = true ↔
        (snapshot h r slot).isSome) := by
  have href := hrun.refines hcontract
  have hmid : MidAbort cfg h σ t txn (interleave cfg t txn σ moves).1
      (interleave cfg t txn σ moves).2 :=
    interleave_invariant (I := MidAbort cfg h σ t txn)
      (fun _ _ hmid => hmid.abortStep href.engine.consistent)
      (fun _ _ hmid => hmid.beginTransaction) (MidAbort.start href hcontract) moves
  obtain ⟨⟨k, ρ, hshadow⟩, -, hvalid⟩ := hmid
  have hρ : ρ.activeTxn r = some reader := (hshadow.others r hr).trans hreader
  have hid := (State.activeTxn_eq_some_iff.mp hρ).2
  have hreads := hvalid.halfAborted.sameReads href hactive hsafe hr hreader slot
  have hshadowed : SameReads σ ρ r (.txnId r) slot :=
    .congr (by rw [hshadow.tuples]) (fun a _ => by rw [hshadow.undo]) r _
  rw [hid]
  constructor
  · intro outBuffer hcols
    have hspec := hshadow.refines.selectIntoBuffer hρ hcols
    rw [hid, hshadow.snapshot] at hspec
    obtain ⟨hflag, hbuffer⟩ := hreads.select outBuffer
    obtain ⟨hflag', hbuffer'⟩ := hshadowed.select outBuffer
    rw [hflag, ← hflag']
    refine ⟨hspec.1, fun row hrow => ?_⟩
    have hvisible := hspec.1.mpr (by simp [hrow])
    rw [hflag'] at hvisible
    rw [hbuffer hvisible, ← hbuffer' hvisible]
    exact hspec.2 row hrow
  · have hspec := hshadow.refines.isVisible hρ slot
    rw [hid, hshadow.snapshot, hshadowed.isVisible] at hspec
    rw [hreads.isVisible]
    exact hspec

/-- A transaction that made one write leaves nothing to disagree. -/
theorem FlipSafe.of_single {a : Nat} (hbuf : txn.undoBuffer = [a]) : FlipSafe σ txn := by
  have hone : ∀ slot, ∀ d ∈ σ.installedDeltas txn slot, d = (σ.undo a).delta := by
    intro slot d hd
    obtain ⟨b, hb, rfl⟩ := List.mem_map.mp hd
    have hb := (mem_filter.mp hb).1
    rw [hbuf, mem_singleton] at hb
    rw [hb]
  constructor
  · intro slot hins hdel
    have hsame := (hone slot _ hins).trans (hone slot _ hdel).symm
    cases hsame
  · intro slot _ o ho p hp k v w hv hw
    obtain ⟨d, hd, rfl⟩ := List.mem_map.mp ho
    obtain ⟨e, he, rfl⟩ := List.mem_map.mp hp
    rw [hone slot d hd] at hv
    rw [hone slot e he, hv] at hw
    exact Option.some.inj hw

def overwrittenOnce : List (Action Nat) :=
  [.begin, .insert 0 0 (oneValue (some 10)), .commit 0, .begin,
    .update 2 ⟨0, 0, 0⟩ (oneValue (some 11))]

def overwrittenTwice : List (Action Nat) :=
  overwrittenOnce ++ [.update 2 ⟨0, 0, 0⟩ (oneValue (some 12))]

def insertedAndDeleted : List (Action Nat) :=
  [.begin, .insert 0 0 (oneValue (some 10)), .delete 0 ⟨0, 0, 0⟩]

theorem overwrittenOnce_runs : (execute oneColumn overwrittenOnce
    (State.init (fun _ _ => none))).isSome = true := by
  decide

theorem overwrittenTwice_runs : (execute oneColumn overwrittenTwice
    (State.init (fun _ _ => none))).isSome = true := by
  decide

theorem insertedAndDeleted_runs : (execute oneColumn insertedAndDeleted
    (State.init (fun _ _ => none))).isSome = true := by
  decide

/-- With one update the restored value is read while the timestamps are being
stored. -/
theorem abort_unseen_after_one_update :
    ∃ (h : List (Event Nat)) (σ : State Nat) (txn reader : TransactionContext Nat),
      Run oneColumn (fun _ _ => none) h σ ∧ σ.activeTxn 2 = some txn ∧
      (interleave oneColumn 2 txn σ [.abort, .abort, .begin, .abort]).1.activeTxn 4 = some reader ∧
      ((interleave oneColumn 2 txn σ [.abort, .abort, .begin, .abort]).1.isVisible 4
        reader.finishTime ⟨0, 0, 0⟩ = true ↔ (snapshot h 4 ⟨0, 0, 0⟩).isSome) := by
  have hrun := execute_run overwrittenOnce_runs
  have hcontract : MustAbortContract ((execute oneColumn overwrittenOnce
      (State.init (fun _ _ => none))).get overwrittenOnce_runs).2 := by decide
  exact ⟨_, _, _, _, hrun, rfl, rfl,
    (abort_unseen hrun hcontract rfl (FlipSafe.of_single (a := 1) rfl)
      [.abort, .abort, .begin, .abort] (by decide) rfl ⟨0, 0, 0⟩).2⟩

/-- With the abort time stored in the first of two records only, a transaction that begins now
reads 11, which nobody committed. And a tuple that was inserted and deleted by the aborting
transaction appears. -/
theorem abort_seen_half_published :
    (∃ (h : List (Event Nat)) (σ : State Nat) (txn reader : TransactionContext Nat),
      Run oneColumn (fun _ _ => none) h σ ∧ MustAbortContract h ∧ σ.activeTxn 2 = some txn ∧
      (interleave oneColumn 2 txn σ [.abort, .abort, .abort, .abort, .begin]).1.activeTxn 4 =
        some reader ∧
      (interleave oneColumn 2 txn σ [.abort, .abort, .abort, .abort, .begin]).1.selectIntoBuffer 4
        reader.finishTime ⟨0, 0, 0⟩ (oneValue none) = (true, [(1, some 11)]) ∧
      (snapshot h 4 ⟨0, 0, 0⟩).map (fun row => row 1) = some (some 10)) ∧
    (∃ (h : List (Event Nat)) (σ : State Nat) (txn reader : TransactionContext Nat),
      Run oneColumn (fun _ _ => none) h σ ∧ MustAbortContract h ∧ σ.activeTxn 0 = some txn ∧
      (interleave oneColumn 0 txn σ [.abort, .abort, .abort, .abort, .begin]).1.activeTxn 2 =
        some reader ∧
      (interleave oneColumn 0 txn σ [.abort, .abort, .abort, .abort, .begin]).1.isVisible 2
        reader.finishTime ⟨0, 0, 0⟩ = true ∧
      snapshot h 2 ⟨0, 0, 0⟩ = none) := by
  refine ⟨⟨_, _, _, _, execute_run overwrittenTwice_runs, by decide, rfl, rfl, rfl, rfl⟩,
    ⟨_, _, _, _, execute_run insertedAndDeleted_runs, by decide, rfl, rfl, rfl, rfl⟩⟩

end Terrier
