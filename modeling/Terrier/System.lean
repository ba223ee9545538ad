import Terrier.Storage.GarbageCollector
import Terrier.Log.LogSerializer

/-!
The engine as a state machine. Every operation of a transaction, a pass of the garbage collector
and a call of the log serializer is one atomic step. Each step leaves an event; the list of
events is the history.
-/

namespace Terrier

variable {V : Type}

inductive Action (V : Type) where
  | begin
  | insert (t : Nat) (table : Nat) (redo : ProjectedRow V)
  | update (t : Nat) (slot : TupleSlot) (redo : ProjectedRow V)
  | delete (t : Nat) (slot : TupleSlot)
  | select (t : Nat) (slot : TupleSlot) (outBuffer : ProjectedRow V)
  | commit (t : Nat)
  | abort (t : Nat)
  | performGarbageCollection
  | process

inductive WriteOp (V : Type) where
  | insert (redo : ProjectedRow V)
  | update (redo : ProjectedRow V)
  | delete

def WriteOp.logRecord (op : WriteOp V) (t : Nat) (slot : TupleSlot) : LogRecord V :=
  match op with
  | .insert redo => .redo t slot redo
  | .update redo => .redo t slot redo
  | .delete => .delete t slot

inductive Event (V : Type) where
  | begin (t : Nat)
  | write (t : Nat) (slot : TupleSlot) (op : WriteOp V) (result : Bool)
  | select (t : Nat) (slot : TupleSlot) (visible : Bool) (outBuffer : List (ColId × Option V))
  | commit (t : Nat) (commitTime : Nat)
  | abort (t : Nat) (abortTime : Nat)
  | performGarbageCollection
  | process

/-- `Insert` wants every column of the table except the version pointer. -/
def Config.InsertColumns (cfg : Config) (table : Nat) (redo : ProjectedRow V) : Prop :=
  redo.columnIds = List.range' 1 (cfg.numColumns table - 1)

/-- `Update` and `Select` want at least one column, all of them in the layout. -/
def Config.ValidColumns (cfg : Config) (table : Nat) (row : ProjectedRow V) : Prop :=
  row.columnIds ≠ [] ∧ ∀ c ∈ row.columnIds, c < cfg.numColumns table

instance (cfg : Config) (table : Nat) (redo : ProjectedRow V) :
    Decidable (cfg.InsertColumns table redo) :=
  inferInstanceAs (Decidable (_ = _))

instance (cfg : Config) (table : Nat) (row : ProjectedRow V) :
    Decidable (cfg.ValidColumns table row) :=
  inferInstanceAs (Decidable (_ ∧ _))

/-- One step. `none` means a broken assertion of the source: the transaction is not running, the
columns do not fit the layout, or a transaction that must abort tries to commit. -/
def step (cfg : Config) (σ : State V) : Action V → Option (State V × Event V)
  | .begin => some (σ.beginTransaction, .begin σ.time)
  | .insert t table redo =>
    match σ.activeTxn t with
    | none => none
    | some txn =>
      if cfg.InsertColumns table redo then
        match σ.sqlInsert cfg t txn table redo with
        | none => none
        | some (next, slot) => some (next, .write t slot (.insert redo) true)
      else
        none
  | .update t slot redo =>
    match σ.activeTxn t with
    | none => none
    | some txn =>
      if cfg.ValidColumns slot.table redo then
        let (next, result) := σ.sqlUpdate cfg t txn slot redo
        some (next, .write t slot (.update redo) result)
      else
        none
  | .delete t slot =>
    match σ.activeTxn t with
    | none => none
    | some txn =>
      let (next, result) := σ.sqlDelete cfg t txn slot
      some (next, .write t slot .delete result)
  | .select t slot outBuffer =>
    match σ.activeTxn t with
    | none => none
    | some txn =>
      if cfg.ValidColumns slot.table outBuffer then
        let (visible, buffer) := σ.selectIntoBuffer t txn.finishTime slot outBuffer
        some (σ, .select t slot visible buffer)
      else
        none
  | .commit t =>
    match σ.activeTxn t with
    | none => none
    | some txn =>
      if txn.mustAbort then none else some (σ.commit cfg t txn, .commit t σ.time)
  | .abort t =>
    match σ.activeTxn t with
    | none => none
    | some txn => some (σ.abort cfg t txn, .abort t σ.time)
  | .performGarbageCollection => some (σ.performGarbageCollection, .performGarbageCollection)
  | .process => some (σ.process, .process)

/-- What an accepted write does to its slot: the delta of its undo record, the
new content of the tuple, and the tables afterwards. The cases carry what the
operation has checked. -/
inductive Write (cfg : Config) (σ : State V) (t : Nat) (txn : TransactionContext V)
    (slot : TupleSlot) : WriteOp V → UndoDelta V → Tuple V → (Nat → DataTable) → Prop where
  | insert {redo : ProjectedRow V} {tables : Nat → DataTable}
      (hcols : cfg.InsertColumns slot.table redo)
      (hslot : (σ.tables slot.table).insertHead slot.block = slot.offset)
      (htables : ∀ table block, (tables table).insertHead block =
        if table = slot.table ∧ block = slot.block then slot.offset + 1
        else (σ.tables table).insertHead block) :
      Write cfg σ t txn slot (.insert redo) .insert
        ⟨true, true, ProjectedRow.storeAttrs redo.entries (σ.tuples slot).attrs, []⟩ tables
  | update {redo : ProjectedRow V} (hcols : cfg.ValidColumns slot.table redo)
      (hrefuses : σ.refuses t txn slot = false) :
      Write cfg σ t txn slot (.update redo)
        (.update (.ofColumns redo.projectionList (σ.tuples slot).attrs))
        { σ.tuples slot with
          attrs := ProjectedRow.storeAttrs redo.entries (σ.tuples slot).attrs } σ.tables
  | delete (hrefuses : σ.refuses t txn slot = false) :
      Write cfg σ t txn slot .delete .delete { σ.tuples slot with notNull := false } σ.tables

def State.written (cfg : Config) (σ : State V) (t : Nat) (txn : TransactionContext V)
    (slot : TupleSlot) (op : WriteOp V) (delta : UndoDelta V) (tuple : Tuple V)
    (tables : Nat → DataTable) : State V :=
  let (staged, segments) := txn.stage cfg (op.logRecord t slot)
  State.install
    (State.addBuffersToFlushQueue { σ with tables := tables } segments) t staged slot delta tuple

def State.refused (cfg : Config) (σ : State V) (t : Nat) (txn : TransactionContext V)
    (slot : TupleSlot) (op : WriteOp V) (delta : UndoDelta V) : State V :=
  let (staged, segments) := txn.stage cfg (op.logRecord t slot)
  ((σ.addBuffersToFlushQueue segments).reject t staged slot delta).setMustAbort t

def TransactionContext.afterWrite (cfg : Config) (txn : TransactionContext V)
    (record : LogRecord V) (a : Nat) (mustAbort : Bool) : TransactionContext V :=
  { (txn.stage cfg record).1 with
    undoBuffer := txn.undoBuffer ++ [a], mustAbort := mustAbort }

section WriteFrame

variable (cfg : Config) (σ : State V) (t : Nat) (txn : TransactionContext V) (slot : TupleSlot)
  (op : WriteOp V) (delta : UndoDelta V) (tuple : Tuple V) (tables : Nat → DataTable)

theorem State.txns_written : (σ.written cfg t txn slot op delta tuple tables).txns =
    Function.update σ.txns t
      (some (txn.afterWrite cfg (op.logRecord t slot) σ.nextUndo txn.mustAbort)) := rfl

theorem State.txns_refused : (σ.refused cfg t txn slot op delta).txns = Function.update σ.txns t
      (some (txn.afterWrite cfg (op.logRecord t slot) σ.nextUndo true)) := by
  simp only [refused, reject, newUndo, setMustAbort, Function.update_self, setTxn,
    Function.update_idem]
  rfl

theorem State.tuples_written : (σ.written cfg t txn slot op delta tuple tables).tuples =
    Function.update σ.tuples slot { tuple with chain := σ.nextUndo :: tuple.chain } := rfl

theorem State.undo_written : (σ.written cfg t txn slot op delta tuple tables).undo =
    Function.update σ.undo σ.nextUndo ⟨delta, txn.finishTime, some slot.table, slot⟩ := rfl

/-- Apart from a record that is in no chain, a refused write leaves the tables
as they are. -/
theorem State.refused_eq : σ.refused cfg t txn slot op delta =
    { σ with
      txns := Function.update σ.txns t
        (some (txn.afterWrite cfg (op.logRecord t slot) σ.nextUndo true))
      undo := Function.update σ.undo σ.nextUndo ⟨delta, txn.finishTime, none, slot⟩
      nextUndo := σ.nextUndo + 1
      flushQueue := σ.flushQueue ++ (txn.stage cfg (op.logRecord t slot)).2 } := by
  rw [← txns_refused cfg σ t txn slot op delta]
  simp only [refused, reject, newUndo, setMustAbort, Function.update_self, setTxn,
    addBuffersToFlushQueue]
  rfl

theorem State.undo_refused : (σ.refused cfg t txn slot op delta).undo =
    Function.update σ.undo σ.nextUndo ⟨delta, txn.finishTime, none, slot⟩ := by
  rw [refused_eq]

theorem State.tuples_refused : (σ.refused cfg t txn slot op delta).tuples = σ.tuples := by
  rw [refused_eq]

theorem State.time_refused : (σ.refused cfg t txn slot op delta).time = σ.time := by
  rw [refused_eq]

theorem State.cachedOldestTxnStartTime_refused :
    (σ.refused cfg t txn slot op delta).cachedOldestTxnStartTime = σ.cachedOldestTxnStartTime := by
  rw [refused_eq]

end WriteFrame

inductive Transition (cfg : Config) : State V → Event V → State V → Prop where
  | begin (σ : State V) : Transition cfg σ (.begin σ.time) σ.beginTransaction
  | write {σ : State V} {t : Nat} {txn : TransactionContext V} {slot : TupleSlot}
      {op : WriteOp V} {delta : UndoDelta V} {tuple : Tuple V} {tables : Nat → DataTable}
      (hactive : σ.activeTxn t = some txn)
      (hwrite : Write cfg σ t txn slot op delta tuple tables) :
      Transition cfg σ (.write t slot op true) (σ.written cfg t txn slot op delta tuple tables)
  | refuse {σ : State V} {t : Nat} {txn : TransactionContext V} {slot : TupleSlot}
      {op : WriteOp V} {delta : UndoDelta V}
      (hactive : σ.activeTxn t = some txn) (hrefuses : σ.refuses t txn slot = true) :
      Transition cfg σ (.write t slot op false) (σ.refused cfg t txn slot op delta)
  | select {σ : State V} {t : Nat} {txn : TransactionContext V} {slot : TupleSlot}
      {outBuffer : ProjectedRow V}
      (hactive : σ.activeTxn t = some txn) (hcols : cfg.ValidColumns slot.table outBuffer) :
      Transition cfg σ (.select t slot (σ.selectIntoBuffer t txn.finishTime slot outBuffer).1
          (σ.selectIntoBuffer t txn.finishTime slot outBuffer).2) σ
  | commit {σ : State V} {t : Nat} {txn : TransactionContext V}
      (hactive : σ.activeTxn t = some txn) (hmust : txn.mustAbort = false) :
      Transition cfg σ (.commit t σ.time) (σ.commit cfg t txn)
  | abort {σ : State V} {t : Nat} {txn : TransactionContext V}
      (hactive : σ.activeTxn t = some txn) :
      Transition cfg σ (.abort t σ.time) (σ.abort cfg t txn)
  | performGarbageCollection (σ : State V) :
      Transition cfg σ .performGarbageCollection σ.performGarbageCollection
  | process (σ : State V) : Transition cfg σ .process σ.process

theorem sqlInsert_spec (cfg : Config) (σ : State V) (t : Nat) (txn : TransactionContext V)
    (table : Nat) (redo : ProjectedRow V) (hcols : cfg.InsertColumns table redo) :
    ∃ slot delta tuple tables, slot.table = table ∧
      Write cfg σ t txn slot (.insert redo) delta tuple tables ∧
      σ.sqlInsert cfg t txn table redo =
        some (σ.written cfg t txn slot (.insert redo) delta tuple tables, slot) := by
  obtain ⟨next, block, hfind, hheads⟩ :=
    DataTable.findSlot_spec (cfg.numSlots_pos table) (σ.tables table)
  refine ⟨⟨table, block, (σ.tables table).insertHead block⟩, .insert, _,
    Function.update σ.tables table next, rfl, .insert hcols rfl ?_, ?_⟩
  · intro other b
    by_cases hother : other = table
    · subst hother
      simp [hheads]
    · simp [hother]
  · simp only [State.sqlInsert, State.allocateSlot, hfind]
    rfl

theorem refuses_staged (cfg : Config) (σ : State V) (t : Nat) (txn : TransactionContext V)
    (slot : TupleSlot) (record : LogRecord V) (segments : List (List (LogRecord V))) :
    (σ.addBuffersToFlushQueue segments).refuses t (txn.stage cfg record).1 slot =
      σ.refuses t txn slot := rfl

theorem sqlUpdate_spec (cfg : Config) (σ : State V) (t : Nat) (txn : TransactionContext V)
    (slot : TupleSlot) (redo : ProjectedRow V) (hcols : cfg.ValidColumns slot.table redo) :
    (σ.refuses t txn slot = true ∧ ∃ delta, σ.sqlUpdate cfg t txn slot redo =
      (σ.refused cfg t txn slot (.update redo) delta, false)) ∨
    ∃ delta tuple, Write cfg σ t txn slot (.update redo) delta tuple σ.tables ∧
      σ.sqlUpdate cfg t txn slot redo =
        (σ.written cfg t txn slot (.update redo) delta tuple σ.tables, true) := by
  cases href : σ.refuses t txn slot with
  | true =>
    refine Or.inl ⟨rfl, .update (.ofColumns redo.projectionList (fun _ => none)), ?_⟩
    simp only [State.sqlUpdate, State.update, refuses_staged, href, if_true]
    rfl
  | false =>
    refine Or.inr ⟨_, _, .update hcols href, ?_⟩
    simp only [State.sqlUpdate, State.update, refuses_staged, href]
    rfl

theorem sqlDelete_spec (cfg : Config) (σ : State V) (t : Nat) (txn : TransactionContext V)
    (slot : TupleSlot) :
    (σ.refuses t txn slot = true ∧ ∃ delta, σ.sqlDelete cfg t txn slot =
      (σ.refused cfg t txn slot .delete delta, false)) ∨
    ∃ delta tuple, Write cfg σ t txn slot .delete delta tuple σ.tables ∧
      σ.sqlDelete cfg t txn slot =
        (σ.written cfg t txn slot .delete delta tuple σ.tables, true) := by
  cases href : σ.refuses t txn slot with
  | true =>
    refine Or.inl ⟨rfl, .delete, ?_⟩
    simp only [State.sqlDelete, State.delete, refuses_staged, href, if_true]
    rfl
  | false =>
    refine Or.inr ⟨_, _, .delete href, ?_⟩
    simp only [State.sqlDelete, State.delete, refuses_staged, href]
    rfl

variable {cfg : Config} {σ σ' : State V} {I : List (Event V) → State V → Prop} {h : List (Event V)}
  {junk : TupleSlot → ColId → Option V} {as : List (Action V)}

theorem step_transition {a : Action V} {e : Event V} (h : step cfg σ a = some (σ', e)) :
    Transition cfg σ e σ' := by
  cases a with
  | begin =>
    cases h
    exact .begin σ
  | insert t table redo =>
    simp only [step] at h
    split at h
    · cases h
    next txn hact =>
      split_ifs at h with hcols
      obtain ⟨slot, delta, tuple, tables, -, hwrite, hins⟩ :=
        sqlInsert_spec cfg σ t txn table redo hcols
      rw [hins] at h
      cases h
      exact .write hact hwrite
  | update t slot redo =>
    simp only [step] at h
    split at h
    · cases h
    next txn hact =>
      split_ifs at h with hcols
      rcases sqlUpdate_spec cfg σ t txn slot redo hcols with
        ⟨href, delta, hupdate⟩ | ⟨delta, tuple, hwrite, hupdate⟩ <;>
        rw [hupdate] at h <;>
        cases h
      · exact .refuse hact href
      · exact .write hact hwrite
  | delete t slot =>
    simp only [step] at h
    split at h
    · cases h
    next txn hact =>
      rcases sqlDelete_spec cfg σ t txn slot with
        ⟨href, delta, hdel⟩ | ⟨delta, tuple, hwrite, hdel⟩ <;>
        rw [hdel] at h <;>
        cases h
      · exact .refuse hact href
      · exact .write hact hwrite
  | select t slot outBuffer =>
    simp only [step] at h
    split at h
    · cases h
    next txn hact =>
      split_ifs at h with hcols
      cases h
      exact .select hact hcols
  | commit t =>
    simp only [step] at h
    split at h
    · cases h
    next txn hact =>
      split_ifs at h with hmust
      cases h
      exact .commit hact (by simpa using hmust)
  | abort t =>
    simp only [step] at h
    split at h
    · cases h
    next txn hact =>
      cases h
      exact .abort hact
  | performGarbageCollection =>
    cases h
    exact .performGarbageCollection σ
  | process =>
    cases h
    exact .process σ

inductive Steps (cfg : Config) : State V → List (Event V) → State V → Prop where
  | nil (σ : State V) : Steps cfg σ [] σ
  | snoc {σ σ' σ'' : State V} {h : List (Event V)} {a : Action V} {e : Event V}
      (hsteps : Steps cfg σ h σ') (hstep : step cfg σ' a = some (σ'', e)) :
      Steps cfg σ (h ++ [e]) σ''

/-- A run of the engine from its start, on blocks with arbitrary contents. -/
def Run (cfg : Config) (junk : TupleSlot → ColId → Option V) (h : List (Event V))
    (σ : State V) : Prop :=
  Steps cfg (State.init junk) h σ

/-- What holds at first and is kept by every transition holds along a run. -/
theorem Steps.invariant (hkeep : ∀ h σ e σ', I h σ → Transition cfg σ e σ' → I (h ++ [e]) σ')
    {h₀ : List (Event V)} (hbase : I h₀ σ) (hsteps : Steps cfg σ h σ') : I (h₀ ++ h) σ' := by
  induction hsteps with
  | nil => simpa using hbase
  | snoc hsteps hstep ih =>
    rw [← List.append_assoc]
    exact hkeep _ _ _ _ ih (step_transition hstep)

theorem Run.invariant (hinit : I [] (State.init junk))
    (hkeep : ∀ h σ e σ', I h σ → Transition cfg σ e σ' → I (h ++ [e]) σ')
    (hrun : Run cfg junk h σ) : I h σ := by
  simpa using Steps.invariant hkeep hinit hrun

def execute (cfg : Config) : List (Action V) → State V → Option (State V × List (Event V))
  | [], σ => some (σ, [])
  | a :: as, σ =>
    match step cfg σ a with
    | none => none
    | some (next, e) =>
      match execute cfg as next with
      | none => none
      | some (last, es) => some (last, e :: es)

theorem Steps.append {σ'' : State V} {k : List (Event V)} (hfirst : Steps cfg σ h σ')
    (hsnd : Steps cfg σ' k σ'') : Steps cfg σ (h ++ k) σ'' := by
  induction hsnd with
  | nil => simpa using hfirst
  | snoc hsteps hstep ih =>
    rw [← List.append_assoc]
    exact .snoc ih hstep

theorem execute_steps (hexec : execute cfg as σ = some (σ', h)) : Steps cfg σ h σ' := by
  induction as generalizing σ h with
  | nil =>
    obtain ⟨rfl, rfl⟩ := Prod.mk.inj (Option.some.inj hexec)
    exact .nil σ
  | cons a as ih =>
    simp only [execute] at hexec
    split at hexec
    · cases hexec
    next next e hstep =>
      split at hexec
      · cases hexec
      next last es hrest =>
        cases hexec
        exact Steps.append (.snoc (.nil σ) hstep) (ih hrest)

theorem execute_run (hexec : (execute cfg as (State.init junk)).isSome = true) :
    Run cfg junk ((execute cfg as (State.init junk)).get hexec).2
      ((execute cfg as (State.init junk)).get hexec).1 :=
  execute_steps (Option.some_get hexec).symm

/-- Tables with one column beside the version pointer, for runs on fixed inputs. -/
def oneColumn : Config where
  numColumns := fun _ => 2
  numSlots := fun _ => 4
  numSlots_pos := fun _ => by decide
  redoRecordSize := fun _ _ => 56
  logging := true

/-- A row of such a table. -/
def oneValue (value : Option Nat) : ProjectedRow Nat where
  entries := [(1, value)]
  sorted := by simp
  noVersionPointer := by simp [versionPointerColumnId]

end Terrier
