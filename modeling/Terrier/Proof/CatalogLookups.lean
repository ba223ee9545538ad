import Terrier.Catalog.DatabaseCatalog
import Terrier.Lib.Runs

/-!
Lookups in a history of the catalog. A lookup of a procedure takes the lock as a schema change
does, so it can be left out only where its transaction has the lock. The other lookups never
touch the lock or a transaction, but three of them have no result where a row is missing.
-/

namespace Terrier.Catalog

open Runs

variable {α β : Type} {c : DatabaseCatalog} {t : Nat}

/-- A function comes to its end with a result of the kind given and leaves the catalog alone. -/
def Reads (c : DatabaseCatalog) (m : CatalogM α) (p : α → Prop) : Prop :=
  ∃ a, m c = some (a, c) ∧ p a

theorem Reads.bind {m : CatalogM α} {f : α → CatalogM β} {p : α → Prop} {q : β → Prop}
    (hm : Reads c m p) (hf : ∀ a, p a → Reads c (f a) q) : Reads c (m >>= f) q := by
  obtain ⟨a, ha, hp⟩ := hm
  obtain ⟨b, hb, hq⟩ := hf a hp
  have heq : (m >>= f) c = (m c).bind fun r => f r.1 r.2 := rfl
  exact ⟨b, by rw [heq, ha, Option.bind_some, hb], hq⟩

theorem reads_pure {p : α → Prop} {a : α} (h : p a) : Reads c (pure a) p :=
  ⟨a, rfl, h⟩

theorem Reads.discard {m : CatalogM α} (h : Reads c m fun _ => True) :
    Reads c (discard m) fun _ => True :=
  h.bind (q := fun _ => True) fun _ _ => reads_pure trivial

theorem reads_mapM {f : α → CatalogM β} {p : β → Prop} {xs : List α}
    (h : ∀ x ∈ xs, Reads c (f x) p) : Reads c (xs.mapM f) fun ys => ∀ y ∈ ys, p y := by
  induction xs with
  | nil => exact reads_pure (by simp)
  | cons x xs ih =>
    obtain ⟨hx, hxs⟩ := List.forall_mem_cons.mp h
    rw [List.mapM_cons]
    refine hx.bind fun y hy => (ih hxs).bind fun ys hys => reads_pure ?_
    exact List.forall_mem_cons.mpr ⟨hy, hys⟩

theorem reads_scanKey (index : CatalogIndex) (key : Key) :
    Reads c (scanKey t index key) (· = c.visible t index (· == key)) :=
  ⟨_, rfl, rfl⟩

theorem reads_select (table : CatalogTable) (slot : TupleSlot) :
    Reads c (select t table slot) (· = c.row t table slot) :=
  ⟨_, rfl, rfl⟩

theorem reads_findRow (index : CatalogIndex) (key : Key) (table : CatalogTable) :
    Reads c (findRow t index key table) fun _ => True := by
  refine (reads_scanKey index key).bind fun slots _ => ?_
  cases slots with
  | nil => exact reads_pure trivial
  | cons slot slots => exact (reads_select table slot).bind fun _ _ => reads_pure trivial

theorem reads_findOid (index : CatalogIndex) (key : Key) (table : CatalogTable) :
    Reads c (findOid t index key table) fun _ => True := by
  refine (reads_findRow index key table).bind fun found _ => ?_
  cases found <;> exact reads_pure trivial

theorem reads_getClassOidKind (ns : Nat) (name : Name) :
    Reads c (getClassOidKind t ns name) fun _ => True := by
  refine (reads_findRow _ _ _).bind fun found _ => ?_
  cases found <;> exact reads_pure trivial

/-- The slot that the unique index of `pg_class` has for an oid. -/
def DatabaseCatalog.classSlot (c : DatabaseCatalog) (t oid : Nat) : Option TupleSlot :=
  (c.visible t .classesOid (· == [.oid oid])).head?

/-- A transaction sees the class and finds the address of a schema there. -/
def DatabaseCatalog.hasSchema (c : DatabaseCatalog) (t oid : Nat) : Bool :=
  decide (∃ slot ∈ c.classSlot t oid, c.row t .classes slot relSchema ≠ 0)

theorem reads_classSlot {oid : Nat} {slot : TupleSlot} (h : slot ∈ c.classSlot t oid) :
    Reads c (scanKey t .classesOid [.oid oid] >>= first) (· = slot) := by
  refine (reads_scanKey _ _).bind fun slots hslots => ⟨slot, ?_, rfl⟩
  rw [hslots]
  exact congrArg (Option.map fun slot => (slot, c)) h

theorem reads_getClassColumnKind {oid : Nat} {slot : TupleSlot} (column : ColId)
    (h : slot ∈ c.classSlot t oid) :
    Reads c (getClassColumnKind t column oid) (·.1 = c.row t .classes slot column) := by
  rw [getClassColumnKind, ← bind_assoc]
  refine (reads_classSlot h).bind fun found hfound => (reads_select _ _).bind fun pr hpr => ?_
  exact reads_pure (by rw [hpr, hfound])

theorem reads_deref {address : Nat} (h : address ≠ 0) : Reads c (deref address) fun _ => True :=
  ⟨address, if_neg h, trivial⟩

theorem reads_getSchema {oid : Nat} (h : c.hasSchema t oid = true) :
    Reads c (getSchema t oid) fun _ => True := by
  obtain ⟨slot, hslot, hschema⟩ := of_decide_eq_true h
  refine (reads_getClassColumnKind relSchema hslot).bind fun found hfound => ?_
  exact reads_deref (hfound ▸ hschema)

/-- Every index of the table has a class with a schema. -/
theorem reads_getIndexes {table : Nat} (h : ∀ slot ∈ c.visible t .indexesTable
      (· == [.oid table]), c.hasSchema t (c.row t .indexes slot oidColumn) = true) :
    Reads c (getIndexes t table) fun _ => True := by
  have hoids : Reads c (getIndexOids t table)
      fun oids => ∀ oid ∈ oids, c.hasSchema t oid = true := by
    refine (reads_scanKey _ _).bind fun slots hslots => reads_mapM fun slot hslot => ?_
    refine (reads_select _ _).bind fun pr hpr => reads_pure ?_
    rw [hpr]
    exact h slot (hslots ▸ hslot)
  refine hoids.bind fun oids hoids => ?_
  refine (reads_mapM (p := fun slot => c.row t .classes slot relSchema ≠ 0)
    fun oid hoid => ?_).bind fun slots hslots => ?_
  · obtain ⟨slot, hslot, hschema⟩ := of_decide_eq_true (hoids oid hoid)
    obtain ⟨found, hfound, rfl⟩ := reads_classSlot hslot
    exact ⟨_, hfound, hschema⟩
  · obtain ⟨objects, hobjects, -⟩ := reads_mapM (p := fun _ => True) fun slot hslot =>
      (reads_select .classes slot).bind fun pr hpr =>
        (reads_deref (hpr ▸ hslots slot hslot)).bind fun _ _ => reads_pure trivial
    exact ⟨objects, hobjects, trivial⟩

theorem reads_running (h : (c.storage.activeTxn t).isSome) :
    Reads c (running t) (·.finishTime = .txnId t) := by
  obtain ⟨txn, htxn⟩ := Option.isSome_iff_exists.mp h
  exact ⟨txn, by rw [running, htxn]; rfl, (State.activeTxn_eq_some_iff.mp htxn).2⟩

theorem reads_tryLock (hrunning : (c.storage.activeTxn t).isSome)
    (hlock : c.writeLock = .txnId t) : Reads c (tryLock t) (· = true) := by
  refine (reads_running hrunning).bind fun txn htxn => ?_
  have hget : Reads c (get : CatalogM DatabaseCatalog) (· = c) := ⟨c, rfl, rfl⟩
  refine hget.bind fun _ hc => ?_
  rw [hc, if_pos (hlock.trans htxn.symm)]
  exact reads_pure rfl

/-- Where a lookup comes to its end and takes nothing. -/
def DatabaseCatalog.isHarmless (c : DatabaseCatalog) (t : Nat) : Lookup → Bool
  | .table oid => (c.classSlot t oid).isSome
  | .schema table => c.hasSchema t table
  | .indexes table => (c.visible t .indexesTable (· == [.oid table])).all fun slot =>
      c.hasSchema t (c.row t .indexes slot oidColumn)
  | .procOid _ _ _ => decide (c.writeLock = .txnId t)
  | _ => true

theorem reads_call {lookup : Lookup} (hrunning : (c.storage.activeTxn t).isSome)
    (h : c.isHarmless t lookup = true) : Reads c (lookUp t lookup) fun _ => True := by
  cases lookup with
  | namespaceOid name => exact (reads_findOid _ _ _).discard
  | tableOid ns name | indexOid ns name =>
    exact ((reads_getClassOidKind ns name).bind fun _ _ => reads_pure trivial).discard
  | table oid =>
    obtain ⟨slot, hslot⟩ := Option.isSome_iff_exists.mp h
    exact ((reads_getClassColumnKind relPtr hslot).bind fun _ _ => reads_pure trivial).discard
  | schema table => exact (reads_getSchema h).discard
  | indexes table => exact (reads_getIndexes (List.all_eq_true.mp h)).discard
  | languageOid name => exact (reads_findOid _ _ _).discard
  | procOid ns name argTypes =>
    refine Reads.discard ((reads_tryLock hrunning (of_decide_eq_true h)).bind fun _ hlocked => ?_)
    rw [hlocked, if_pos rfl]
    exact reads_findOid _ _ _

def Call.isLookupOf (readers : Nat → Bool) : Call → Bool
  | .lookup t _ => readers t
  | _ => false

/-- The lookups of the readers are made in running transactions and are harmless. -/
def Call.isAllowed (readers : Nat → Bool) (c : DatabaseCatalog) : Call → Bool
  | .lookup t asked => !readers t || (c.storage.activeTxn t).isSome && c.isHarmless t asked
  | _ => true

def after (cfg : Config) (c : DatabaseCatalog) (call : Call) : Option DatabaseCatalog :=
  (step cfg call c).map Prod.snd

theorem step_lookup (cfg : Config) {readers : Nat → Bool} {call : Call}
    (hlookup : call.isLookupOf readers = true) (h : call.isAllowed readers c = true) :
    step cfg call c = some ([], c) := by
  cases call with
  | lookup t lookup =>
    rw [Call.isAllowed, show readers t = true from hlookup, Bool.not_true, Bool.false_or,
      Bool.and_eq_true] at h
    obtain ⟨results, hstep, hresults⟩ : Reads c (step cfg (.lookup t lookup)) (· = []) :=
      (reads_running h.1).bind fun _ _ =>
        (reads_call h.1 h.2).bind fun _ _ => reads_pure rfl
    rw [hstep, hresults]
  | _ => cases hlookup

theorem run_cons (cfg : Config) (call : Call) (history : List Call) (c : DatabaseCatalog) :
    run cfg (call :: history) c = (step cfg call c).bind fun p =>
      (run cfg history p.2).bind fun q => some (p.1 ++ q.1, q.2) :=
  rfl

/-- Harmless lookups can be removed from a history: the results of the schema changes are the
same, and so is everything in the catalog, the marks of the transactions among it. -/
theorem run_filter_lookups (cfg : Config) (readers : Nat → Bool) (c : DatabaseCatalog)
    (history : List Call)
    (h : Along (after cfg) (fun c call => call.isAllowed readers c) c history = true) :
    run cfg (history.filter fun call => !call.isLookupOf readers) c = run cfg history c := by
  induction history generalizing c with
  | nil => rfl
  | cons call history ih =>
    rw [Along, Bool.and_eq_true] at h
    obtain ⟨hhead, htail⟩ := h
    cases hremoved : call.isLookupOf readers with
    | true =>
      have hstep := step_lookup cfg hremoved hhead
      rw [after, hstep] at htail
      rw [List.filter_cons_of_neg (by simp [hremoved]), run_cons, hstep, ih c htail]
      simp
    | false =>
      rw [List.filter_cons_of_pos (by simp [hremoved]), run_cons, run_cons]
      cases hstep : step cfg call c with
      | none => rfl
      | some p =>
        rw [after, hstep] at htail
        rw [Option.bind_some, Option.bind_some, ih p.2 htail]

/-- Nothing is in the tables yet and no transaction has begun. -/
def emptyCatalog : DatabaseCatalog :=
  ⟨State.init fun _ _ => none, fun _ => [], fun _ => [], .time 0, fun _ => none, 1001, 0⟩

def catalogConfig : Config := ⟨fun _ => 7, fun _ => 8, fun _ => by decide, fun _ _ => 64, true⟩

/-- A transaction makes a table with an index and looks up a procedure meanwhile. Later one reads
the table and its indexes while another makes a language. -/
def mixedHistory : List Call :=
  [.begin, .change 0 (.createTable 15 [97] [[120]]), .lookup 0 (.procOid 15 [102] []),
    .change 0 (.createIndex 15 [105] 1001 [[120]]), .commit 0, .begin, .begin,
    .change 3 (.createLanguage [99]), .lookup 2 (.tableOid 15 [97]),
    .lookup 2 (.table 1001), .lookup 2 (.schema 1001), .lookup 2 (.indexes 1001)]

theorem mixedHistory_unchanged :
    (run catalogConfig mixedHistory emptyCatalog).map Prod.fst =
        some [(0, 1001), (0, 1002), (3, 1003)] ∧
      run catalogConfig (mixedHistory.filter fun call => !call.isLookupOf fun _ => true)
        emptyCatalog = run catalogConfig mixedHistory emptyCatalog :=
  ⟨by decide +kernel, run_filter_lookups catalogConfig (fun _ => true) emptyCatalog mixedHistory
    (by decide +kernel)⟩

/-- The results of the schema changes, and whether a transaction is marked in the end. -/
def outcome (t : Nat) (history : List Call) : Option (List (Nat × Nat) × Bool) :=
  (run catalogConfig history emptyCatalog).map fun p =>
    (p.1, (p.2.storage.txns t).any (·.mustAbort))

def newNamespace : Call := .change 1 (.createNamespace [110])

def procLookup : Call := .lookup 0 (.procOid 15 [102] [])

/-- A transaction that looks up a procedure keeps another one from changing the schema, and is
marked itself if it comes second. A table that is not there cannot be looked up. -/
theorem lookup_refuses_change :
    outcome 1 [.begin, .begin, newNamespace] = some ([(1, 1001)], false) ∧
      outcome 1 [.begin, .begin, procLookup, newNamespace] = some ([(1, invalidOid)], true) ∧
      outcome 0 [.begin, .begin, newNamespace, procLookup] = some ([(1, 1001)], true) ∧
      outcome 0 [.begin, .lookup 0 (.table 7)] = none := by
  decide +kernel

end Terrier.Catalog
