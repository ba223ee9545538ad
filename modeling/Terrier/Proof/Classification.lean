import Terrier.Recovery.SlotMap

/-!
When recovery tells inserts from updates. A redo record puts its slot into the map, and a delete
record takes its slot out unless it is from `pg_attribute` or `pg_index`. Updates are always
recognised; an insert is when its slot was taken out since it was last written, and a slot whose
block came from a dropped table was not.
-/

namespace Terrier

open List Function

def SlotMap.domain (m : SlotMap) (slot : SlotAddress) : Bool :=
  (m.tupleSlotMap slot).isSome

namespace Change

/-- The slots in the map after a record. -/
def mark (d : SlotAddress → Bool) : Change → SlotAddress → Bool
  | redo _ _ slot => Function.update d slot true
  | delete _ table slot =>
    if table = indexTableOid ∨ table = columnTableOid then d else Function.update d slot false

def writes (slot : SlotAddress) : Change → Prop
  | redo _ _ written => written = slot
  | delete _ _ _ => False

def retires (slot : SlotAddress) : Change → Prop
  | redo _ _ _ => False
  | delete _ table deleted =>
    deleted = slot ∧ table ≠ indexTableOid ∧ table ≠ columnTableOid

def classifyOn (d : SlotAddress → Bool) : Change → List Bool
  | redo _ _ slot => [!d slot]
  | delete _ _ _ => []

def classifyAll : (SlotAddress → Bool) → List Change → List Bool
  | _, [] => []
  | d, c :: changes => c.classifyOn d ++ classifyAll (c.mark d) changes

variable (d : SlotAddress → Bool)

theorem classifyAll_append (first second : List Change) : classifyAll d (first ++ second) =
      classifyAll d first ++ classifyAll (first.foldl mark d) second := by
  induction first generalizing d with
  | nil => rfl
  | cons c rest ih => simp [classifyAll, ih]

theorem mark_eq_true (c : Change) (slot : SlotAddress) :
    c.mark d slot = true ↔ c.writes slot ∨ d slot = true ∧ ¬ c.retires slot := by
  cases c with
  | redo db table written =>
    by_cases h : slot = written
    · subst h; simp [mark, writes]
    · simp [mark, writes, retires, update_of_ne h, Ne.symm h]
  | delete db table deleted =>
    by_cases htable : table = indexTableOid ∨ table = columnTableOid
    · have hkept : ¬ (table ≠ indexTableOid ∧ table ≠ columnTableOid) := by tauto
      simp [mark, writes, retires, htable, hkept]
    · have hretired : table ≠ indexTableOid ∧ table ≠ columnTableOid := by tauto
      by_cases h : slot = deleted
      · subst h; simp [mark, writes, retires, hretired]
      · simp [mark, writes, retires, htable, update_of_ne h, Ne.symm h]

/-- A slot is in the map after some records when one of them wrote it, or it was
there before, and it was not retired since. -/
theorem foldl_mark_eq_true (changes : List Change) (slot : SlotAddress) :
    changes.foldl mark d slot = true ↔ (d slot = true ∧ ∀ c ∈ changes, ¬ c.retires slot) ∨
        ∃ before first middle, changes = before ++ first :: middle ∧ first.writes slot ∧
          ∀ c ∈ middle, ¬ c.retires slot := by
  induction changes generalizing d with
  | nil => simp
  | cons c rest ih =>
    rw [foldl_cons, ih, mark_eq_true]
    constructor
    · rintro (⟨hwr | ⟨hd, hc⟩, hrest⟩ | ⟨before, first, middle, rfl, hfirst, hmiddle⟩)
      · exact .inr ⟨[], c, rest, rfl, hwr, hrest⟩
      · exact .inl ⟨hd, by simpa using ⟨hc, hrest⟩⟩
      · exact .inr ⟨c :: before, first, middle, rfl, hfirst, hmiddle⟩
    · rintro (⟨hd, hall⟩ | ⟨before, first, middle, heq, hfirst, hmiddle⟩)
      · rw [forall_mem_cons] at hall
        exact .inl ⟨.inr ⟨hd, hall.1⟩, hall.2⟩
      · cases before with
        | nil =>
          obtain ⟨rfl, rfl⟩ := List.cons.inj heq
          exact .inl ⟨.inl hfirst, hmiddle⟩
        | cons b before =>
          obtain ⟨rfl, rfl⟩ := List.cons.inj heq
          exact .inr ⟨before, first, middle, rfl, hfirst, hmiddle⟩

end Change

namespace SlotMap

variable (m : SlotMap)

@[simp] theorem domain_insert (slot : SlotAddress) :
    (m.insert slot).domain = Function.update m.domain slot true := by
  funext other
  by_cases h : other = slot
  · subst h; simp [domain, insert]
  · simp [domain, insert, h]

@[simp] theorem domain_erase (slot : SlotAddress) :
    (m.erase slot).domain = Function.update m.domain slot false := by
  funext other
  by_cases h : other = slot
  · subst h; simp [domain, erase]
  · simp [domain, erase, h]

@[simp] theorem domain_processed (n : Nat) : domain { m with processed := n } = m.domain := rfl

theorem isInsertRecord_eq (slot : SlotAddress) : m.isInsertRecord slot = !m.domain slot := by
  cases h : m.tupleSlotMap slot <;> simp [isInsertRecord, domain, h]

theorem classify_eq (c : Change) : m.classify c = c.classifyOn m.domain := by
  cases c <;> simp [classify, Change.classifyOn, isInsertRecord_eq]

theorem update_domain_of_mapped {slot : SlotAddress} (h : m.domain slot = true) :
    Function.update m.domain slot true = m.domain := by
  rw [← h, update_eq_self]

@[simp] theorem domain_getTupleSlotMapping (slot : SlotAddress) :
    (m.getTupleSlotMapping slot).domain = Function.update m.domain slot true := by
  cases hmap : m.domain slot with
  | true =>
    simp [getTupleSlotMapping, isInsertRecord_eq, hmap, update_domain_of_mapped]
  | false =>
    rw [getTupleSlotMapping, if_pos (by simp [isInsertRecord_eq, hmap])]
    funext other
    by_cases h : other = slot
    · subst h; simp [domain]
    · simp [domain, h]

@[simp] theorem domain_replayRedoRecord (slot : SlotAddress) :
    (m.replayRedoRecord slot).domain = Function.update m.domain slot true := by
  cases hmap : m.domain slot with
  | true => simp [replayRedoRecord, isInsertRecord_eq, hmap, update_domain_of_mapped]
  | false => simp [replayRedoRecord, isInsertRecord_eq, hmap]

@[simp] theorem domain_replayDeleteRecord (slot : SlotAddress) :
    (m.replayDeleteRecord slot).domain = Function.update m.domain slot false := by
  simp [replayDeleteRecord]

/-- A record whose handling says nothing of the next one leaves the slots it should. Otherwise the
next one is an insert, and both are accounted for one after the other. -/
def Handled (d : SlotAddress → Bool) (record : Change) (next : Option Change)
    (result : SlotMap × Bool) : Prop :=
  if result.2 then
    ∃ n, next = some n ∧ n.classifyOn d = n.classifyOn (record.mark d) ∧
      result.1.domain = n.mark (record.mark d)
  else result.1.domain = record.mark d

theorem renamedTo_eq_some {m : SlotMap} {sameOid : Nat → Bool} {db table : Nat}
    {next : Option Change} {nextSlot : SlotAddress}
    (h : m.renamedTo sameOid db table next = some nextSlot) :
    next = some (.redo db table nextSlot) ∧ m.domain nextSlot = false := by
  rcases next with - | ⟨nextDb, nextTable, slot⟩ | ⟨nextDb, nextTable, slot⟩
  · cases h
  · rw [renamedTo] at h
    split at h
    case isTrue hguard =>
      obtain ⟨rfl, rfl, hins, -⟩ := hguard
      cases h
      exact ⟨rfl, by simpa [isInsertRecord_eq] using hins⟩
    case isFalse => cases h
  · cases h

theorem renameOrDrop_handled (m : SlotMap) (sameOid : Nat → Bool) (next : Option Change)
    (db table : Nat) (slot : SlotAddress)
    (htable : ¬ (table = indexTableOid ∨ table = columnTableOid)) :
    Handled m.domain (.delete db table slot) next (m.renameOrDrop sameOid next db table slot) := by
  have hmark : (Change.delete db table slot).mark m.domain =
      Function.update m.domain slot false := by
    simp [Change.mark, htable]
  cases hrenamed : (m.getTupleSlotMapping slot).renamedTo sameOid db table next with
  | none => simp [renameOrDrop, hrenamed, Handled, hmark]
  | some nextSlot =>
    obtain ⟨hnext, hunmap⟩ := renamedTo_eq_some hrenamed
    -- The deleted slot is in the map by now, so the new one is another.
    have hne : nextSlot ≠ slot := by
      rintro rfl
      simp at hunmap
    simp only [renameOrDrop, hrenamed, Handled, if_true]
    refine ⟨_, hnext, ?_, ?_⟩
    · simp [Change.classifyOn, hmark, hne]
    · rw [hmark, domain_erase, domain_insert, domain_getTupleSlotMapping, Change.mark,
        update_comm hne, update_idem]

theorem processRecord_handled (m : SlotMap) (sameOid : Nat → Bool) (next : Option Change)
    (record : Change) : Handled m.domain record next (m.processRecord sameOid next record) := by
  cases record with
  | redo db table slot =>
    cases hmap : m.domain slot with
    | false =>
      by_cases htable : table = databaseTableOid
      · simp [processRecord, isSpecialCaseCatalogRecord, isInsertRecord_eq, hmap, htable,
          processSpecialCaseCatalogRecord, Change.table, processSpecialCasePGDatabaseRecord,
          Handled, Change.mark]
      · simp [processRecord, isSpecialCaseCatalogRecord, isInsertRecord_eq, hmap, htable,
          Handled, Change.mark]
    | true =>
      by_cases htable : table = classTableOid
      · have hclass : classTableOid ≠ databaseTableOid := by decide
        simp [processRecord, isSpecialCaseCatalogRecord, isInsertRecord_eq, hmap, htable,
          processSpecialCaseCatalogRecord, Change.table, processSpecialCasePGClassRecord,
          hclass, Handled, Change.mark, update_domain_of_mapped]
      · simp [processRecord, isSpecialCaseCatalogRecord, isInsertRecord_eq, hmap, htable,
          Handled, Change.mark]
  | delete db table slot =>
    by_cases hdatabase : table = databaseTableOid
    · subst hdatabase
      have h := renameOrDrop_handled m sameOid next db databaseTableOid slot (by decide)
      simpa [processRecord, isSpecialCaseCatalogRecord, processSpecialCaseCatalogRecord,
        Change.table, processSpecialCasePGDatabaseRecord] using h
    by_cases hclass : table = classTableOid
    · subst hclass
      have h := renameOrDrop_handled m sameOid next db classTableOid slot (by decide)
      simpa [processRecord, isSpecialCaseCatalogRecord, processSpecialCaseCatalogRecord,
        Change.table, processSpecialCasePGClassRecord, hdatabase] using h
    by_cases hleft : table = indexTableOid ∨ table = columnTableOid
    · simp [processRecord, isSpecialCaseCatalogRecord, processSpecialCaseCatalogRecord,
        Change.table, hdatabase, hclass, hleft, Handled, Change.mark]
    · simp [processRecord, isSpecialCaseCatalogRecord, hdatabase, hclass, hleft, Handled,
        Change.mark]

theorem processChanges_spec (sameOid : Nat → Bool) (skip : Bool) (changes : List Change)
    (m : SlotMap) :
    (processChanges sameOid skip changes m).1.domain =
        (changes.drop skip.toNat).foldl Change.mark m.domain ∧
      (processChanges sameOid skip changes m).2 =
        Change.classifyAll m.domain (changes.drop skip.toNat) := by
  induction changes generalizing skip m with
  | nil => cases skip <;> exact ⟨rfl, rfl⟩
  | cons record rest ih =>
    cases skip with
    | true => simpa [processChanges] using ih false { m with processed := m.processed + 1 }
    | false =>
      have hhandled := processRecord_handled m sameOid rest.head? record
      rcases hres : m.processRecord sameOid rest.head? record with ⟨next, extra⟩
      rw [hres] at hhandled
      obtain ⟨hdomain, htrace⟩ := ih extra { next with processed := m.processed + 1 }
      simp only [processChanges, hres, classify_eq, hdomain, htrace, domain_processed]
      cases extra with
      | false =>
        have hnext : next.domain = record.mark m.domain := by simpa [Handled] using hhandled
        simp [hnext, Change.classifyAll]
      | true =>
        obtain ⟨n, hhead, hsame, hnext⟩ : ∃ n, rest.head? = some n ∧
              n.classifyOn m.domain = n.classifyOn (record.mark m.domain) ∧
              next.domain = n.mark (record.mark m.domain) := by
          simpa [Handled] using hhandled
        obtain ⟨tail, rfl⟩ := head?_eq_some_iff.mp hhead
        simp [hnext, Change.classifyAll, hsame, classify_eq]

theorem processTransactions_spec (sameOid : Nat → Bool) (log : List (List Change)) (m : SlotMap) :
    (processTransactions sameOid log m).2 = Change.classifyAll m.domain log.flatten := by
  induction log generalizing m with
  | nil => rfl
  | cons changes rest ih =>
    obtain ⟨hdomain, htrace⟩ := processChanges_spec sameOid false changes m
    rw [flatten_cons, Change.classifyAll_append]
    simp only [processTransactions, ih]
    simpa [htrace] using congrArg (Change.classifyAll · rest.flatten) hdomain

end SlotMap

namespace LoggedChange

/-- What a redo record should be taken for. -/
def tag (c : LoggedChange) : List Bool :=
  match c.change with
  | .redo _ _ _ => [c.isInsert]
  | .delete _ _ _ => []

def inserts (slot : SlotAddress) (c : LoggedChange) : Prop :=
  c.change.writes slot ∧ c.isInsert = true

end LoggedChange

/-- Between a redo record and a later insert into its slot, a delete record
that replay does not pass over freed the slot. -/
def RetiredBeforeReuse (log : List LoggedChange) : Prop :=
  ∀ slot before first middle second after, log = before ++ first :: middle ++ second :: after →
    first.change.writes slot → second.inserts slot → ∃ c ∈ middle, c.change.retires slot

/-- `P` holds of each redo record of a log and of whether its slot is in the map
when it is reached. -/
def WritesSee (P : LoggedChange → Bool → Prop) : (SlotAddress → Bool) → List LoggedChange → Prop
  | _, [] => True
  | d, c :: log => (∀ slot, c.change.writes slot → P c (d slot)) ∧ WritesSee P (c.change.mark d) log

def UpdatesMapped : (SlotAddress → Bool) → List LoggedChange → Prop :=
  WritesSee fun c mapped => c.isInsert = false → mapped = true

def InsertsUnmapped : (SlotAddress → Bool) → List LoggedChange → Prop :=
  WritesSee fun c mapped => c.isInsert = true → mapped = false

variable {P : LoggedChange → Bool → Prop}

variable (d : SlotAddress → Bool)

theorem WritesSee.append (first second : List LoggedChange) : WritesSee P d (first ++ second) ↔
      WritesSee P d first ∧ WritesSee P ((first.map (·.change)).foldl Change.mark d) second := by
  induction first generalizing d with
  | nil => simp [WritesSee]
  | cons c rest ih => simp [WritesSee, ih, and_assoc]

theorem WritesSee.iff_split (log : List LoggedChange) : WritesSee P d log ↔
      ∀ before c after slot, log = before ++ c :: after → c.change.writes slot →
        P c ((before.map (·.change)).foldl Change.mark d slot) := by
  induction log generalizing d with
  | nil => simp [WritesSee]
  | cons head rest ih =>
    rw [WritesSee, ih]
    constructor
    · rintro ⟨hhead, hrest⟩ before c after slot heq hwr
      cases before with
      | nil =>
        obtain ⟨rfl, -⟩ := List.cons.inj heq
        exact hhead slot hwr
      | cons b before =>
        obtain ⟨rfl, rfl⟩ := List.cons.inj heq
        exact hrest before c after slot rfl hwr
    · intro h
      refine ⟨fun slot hwr => h [] head rest slot rfl hwr, ?_⟩
      intro before c after slot heq hwr
      exact h (head :: before) c after slot (by rw [heq]; rfl) hwr

/-- Recovery sees a log as it was meant when every insert finds its slot free. -/
theorem classifyAll_eq_tags_iff (log : List LoggedChange) (h : UpdatesMapped d log) :
    Change.classifyAll d (log.map (·.change)) = log.flatMap LoggedChange.tag ↔
      InsertsUnmapped d log := by
  induction log generalizing d with
  | nil => exact ⟨fun _ => trivial, fun _ => rfl⟩
  | cons c rest ih =>
    obtain ⟨hhead, hrest⟩ := h
    have ih := ih _ hrest
    obtain ⟨change, isInsert⟩ := c
    cases change with
    | redo db table slot =>
      have hmap := hhead slot rfl
      simp only [map_cons, flatMap_cons, Change.classifyAll, Change.classifyOn,
        LoggedChange.tag, cons_append, nil_append, List.cons.injEq, ih]
      refine and_congr_left fun _ => ?_
      simp only [Change.writes, forall_eq']
      cases isInsert <;> cases hd : d slot <;> simp_all
    | delete db table slot =>
      have hquiet : ∀ s, ¬ (Change.delete db table slot).writes s := fun s hs => hs
      simpa [Change.classifyAll, Change.classifyOn, LoggedChange.tag, InsertsUnmapped,
        WritesSee, hquiet] using ih

theorem insertsUnmapped_iff (log : List LoggedChange) :
    InsertsUnmapped (fun _ => false) log ↔ RetiredBeforeReuse log := by
  rw [InsertsUnmapped, WritesSee.iff_split]
  constructor
  · intro h slot before first middle second after heq hfirst hsnd
    by_contra hnone
    have hunmap := h (before ++ first :: middle) second after slot heq hsnd.1 hsnd.2
    have hmap := (Change.foldl_mark_eq_true (fun _ => false)
      ((before ++ first :: middle).map (·.change)) slot).mpr <| .inr
        ⟨before.map (·.change), first.change, middle.map (·.change), by simp, hfirst,
          by simpa using hnone⟩
    exact Bool.false_ne_true (hunmap.symm.trans hmap)
  · intro h before c after slot heq hwr hins
    by_contra hmap
    rw [Bool.not_eq_false, Change.foldl_mark_eq_true] at hmap
    rcases hmap with ⟨hfalse, -⟩ | ⟨earlier, first, middle, hsplit, hfirst, hmiddle⟩
    · cases hfalse
    · obtain ⟨earlier, tail, rfl, rfl, htail⟩ := map_eq_append_iff.mp hsplit
      obtain ⟨first, middle, rfl, rfl, rfl⟩ := map_eq_cons_iff.mp htail
      obtain ⟨retiring, hmem, hretires⟩ :=
        h slot earlier first middle c after (by simpa using heq) hfirst ⟨hwr, hins⟩
      exact hmiddle _ (List.mem_map_of_mem hmem) hretires

namespace BlockTables

def Covered (s : BlockTables) (d : SlotAddress → Bool) : Prop :=
  ∀ slot, s.live slot = true → d slot = true

variable {d : SlotAddress → Bool}

theorem Covered.step {s next : BlockTables} {op : TableOp} {logged : List LoggedChange}
    (h : s.Covered d) (hstep : s.step op = some (next, logged)) :
    UpdatesMapped d logged ∧
      next.Covered ((logged.map (·.change)).foldl Change.mark d) := by
  cases op with
  | newBlock table block =>
    rw [BlockTables.step] at hstep
    split at hstep
    case h_1 => cases hstep
    case h_2 => cases hstep; exact ⟨trivial, h⟩
  | insert db table slot =>
    obtain ⟨-, hstep⟩ := Option.ite_none_right_eq_some.mp hstep
    cases hstep
    refine ⟨⟨by simp, trivial⟩, fun other hlive => ?_⟩
    by_cases hother : other = slot
    · subst hother; simp [Change.mark]
    · have := h other (by simpa [hother] using hlive)
      simpa [Change.mark, hother] using this
  | update db table slot =>
    obtain ⟨hguard, hstep⟩ := Option.ite_none_right_eq_some.mp hstep
    cases hstep
    have hmap := h slot hguard.2
    refine ⟨⟨by simpa [Change.writes] using hmap, trivial⟩, fun other hlive => ?_⟩
    exact (Change.mark_eq_true d (.redo db table slot) other).mpr
      (.inr ⟨h other hlive, fun hr => hr⟩)
  | delete db table slot =>
    obtain ⟨-, hstep⟩ := Option.ite_none_right_eq_some.mp hstep
    cases hstep
    refine ⟨⟨by simp [Change.writes], trivial⟩, fun other hlive => ?_⟩
    have hother : other ≠ slot := by
      rintro rfl
      simp at hlive
    have hkept := h other (by simpa [hother] using hlive)
    exact (Change.mark_eq_true d (.delete db table slot) other).mpr
      (.inr ⟨hkept, fun hr => hother hr.1.symm⟩)
  | destroy table =>
    cases hstep
    exact ⟨trivial, fun slot hlive => h slot (Bool.and_eq_true_iff.mp hlive).1⟩

variable {s last : BlockTables}

theorem Covered.execute {ops : List TableOp} {log : List LoggedChange} (h : s.Covered d)
    (hrun : s.execute ops = some (last, log)) :
    UpdatesMapped d log ∧ last.Covered ((log.map (·.change)).foldl Change.mark d) := by
  induction ops generalizing s d log with
  | nil => cases hrun; exact ⟨trivial, h⟩
  | cons op ops ih =>
    rw [BlockTables.execute] at hrun
    split at hrun
    case h_1 => cases hrun
    case h_2 reached logged hstep =>
      split at hrun <;> cases hrun
      case h_2 later hrest =>
        obtain ⟨hlog, hnext⟩ := h.step hstep
        obtain ⟨hlater, hlast⟩ := ih hnext hrest
        exact ⟨(WritesSee.append _ _ _).mpr ⟨hlog, hlater⟩, by simpa using hlast⟩

theorem Covered.executeAll {txns : List (List TableOp)} {log : List (List LoggedChange)}
    (h : s.Covered d) (hrun : s.executeAll txns = some (last, log)) :
    UpdatesMapped d log.flatten := by
  induction txns generalizing s d log with
  | nil => cases hrun; exact trivial
  | cons ops txns ih =>
    rw [BlockTables.executeAll] at hrun
    split at hrun
    case h_1 => cases hrun
    case h_2 reached logged hfirst =>
      split at hrun <;> cases hrun
      case h_2 later hrest =>
        obtain ⟨hlog, hnext⟩ := h.execute hfirst
        exact (WritesSee.append _ _ _).mpr ⟨hlog, ih hnext hrest⟩

end BlockTables

/-- Recovery takes every redo record for what it was, exactly for those logs in
which a slot is freed by a delete record before it is inserted into again. -/
theorem classified_as_logged_iff (sameOid : Nat → Bool) (reuseLimit : Nat)
    (txns : List (List TableOp)) (last : BlockTables) (log : List (List LoggedChange))
    (hrun : (BlockTables.init reuseLimit).executeAll txns = some (last, log)) :
    (SlotMap.processTransactions sameOid (log.map (·.map (·.change))) SlotMap.init).2 =
        log.flatten.flatMap LoggedChange.tag ↔
      RetiredBeforeReuse log.flatten := by
  have hmapped : UpdatesMapped (fun _ => false) log.flatten :=
    BlockTables.Covered.executeAll (fun _ hlive => hlive) hrun
  have hflat : (log.map (·.map (·.change))).flatten = log.flatten.map (·.change) :=
    map_flatten.symm
  rw [SlotMap.processTransactions_spec, hflat, ← insertsUnmapped_iff]
  exact classifyAll_eq_tags_iff _ _ hmapped

/-- Table 1001 is dropped after its tuple was deleted, and table 1002 gets its
block. Block 0 is one of `pg_class`. -/
def emptiedBeforeDrop : List (List TableOp) :=
  [[.newBlock classTableOid 0, .newBlock 1001 1, .insert 15 classTableOid ⟨0, 0⟩,
      .insert 15 1001 ⟨1, 0⟩],
    [.delete 15 1001 ⟨1, 0⟩],
    [.delete 15 classTableOid ⟨0, 0⟩],
    [.destroy 1001, .newBlock 1002 1, .insert 15 classTableOid ⟨0, 1⟩, .insert 15 1002 ⟨1, 0⟩]]

theorem classified_as_logged_emptied :
    ∃ last log, (BlockTables.init 1).executeAll emptiedBeforeDrop = some (last, log) ∧
      log.flatten.flatMap LoggedChange.tag = [true, true, true, true] ∧
      RetiredBeforeReuse log.flatten :=
  ⟨_, _, rfl, by decide,
    (classified_as_logged_iff (fun _ => false) 1 emptiedBeforeDrop _ _ rfl).mp (by decide)⟩

def droppedWithTuple : List (List TableOp) :=
  [[.newBlock classTableOid 0, .newBlock 1001 1, .insert 15 classTableOid ⟨0, 0⟩,
      .insert 15 1001 ⟨1, 0⟩],
    [.delete 15 classTableOid ⟨0, 0⟩],
    [.destroy 1001, .newBlock 1002 1, .insert 15 classTableOid ⟨0, 1⟩, .insert 15 1002 ⟨1, 0⟩]]

/-- The first tuple of the new table is replayed as an update of a tuple of the
dropped one. -/
theorem insert_replayed_as_update :
    ∃ last log, (BlockTables.init 1).executeAll droppedWithTuple = some (last, log) ∧
      log.flatten.flatMap LoggedChange.tag = [true, true, true, true] ∧
      (SlotMap.processTransactions (fun _ => false) (log.map (·.map (·.change)))
        SlotMap.init).2 = [true, true, true, false] :=
  ⟨_, _, rfl, by decide, by decide⟩

end Terrier
