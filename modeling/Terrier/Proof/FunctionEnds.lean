import Terrier.Proof.BytecodeRoundTrip
import Terrier.Proof.GeneratedCode

/-!
Compiled functions do not run off their end. The points of the generated code correspond to
positions in the bytes of the module. What can go wrong is the generation itself, which asks an
empty block for its last statement, and a function literal, whose body becomes part of the
function around it.
-/

namespace Terrier.Tpl

open ControlFlow (Closed Outcome)
open List Option

namespace EmitCall

variable {ι : Type}

theorem placed_append (position : Nat) (calls rest : List (EmitCall ι)) :
    placed position (calls ++ rest) =
      placed position calls ++ placed (position + (calls.map size).sum) rest := by
  induction calls generalizing position with
  | nil => rfl
  | cons call calls ih =>
    cases call with
    | bind label =>
      rw [cons_append, placed, placed, ih, map_cons, sum_cons, size, Nat.zero_add]
    | emit emission =>
      rw [cons_append, placed, placed, ih, map_cons, sum_cons, size, cons_append, Nat.add_assoc]

variable [DecidableEq ι] {label : ι} {calls : List (EmitCall ι)}

theorem boundAt_isSome_of_mem (h : bind label ∈ calls) (position : Nat) :
    (boundAt label position calls).isSome = true := by
  induction calls generalizing position with
  | nil => cases h
  | cons call calls ih =>
    cases call with
    | emit emission =>
      apply ih
      simpa using h
    | bind other =>
      rw [boundAt]
      split
      · rfl
      · next hne =>
          apply ih
          rw [mem_cons] at h
          obtain h | h := h
          · cases h
            exact absurd rfl hne
          · exact h

theorem targets_eq {rest : List (EmitCall ι)} {e : BytecodeEmitter ι}
    (hrun : runAll (calls ++ bind label :: rest) = some e) :
    targets (calls ++ bind label :: rest) label = (calls.map size).sum := by
  rw [runAll, foldlM_append] at hrun
  obtain ⟨before, hbef, hrest⟩ := bind_eq_some_iff.1 hrun
  obtain ⟨after, hbind, -⟩ := bind_eq_some_iff.1 hrest
  have hemitted := emitted_of_runAll hbef
  have hunbound := (hemitted.renders.bind hbind).2.1
  have hnone := hemitted.bindings label
  rw [if_neg (by simp [hunbound])] at hnone
  rw [targets, boundAt_append, hnone, none_or, boundAt, if_pos rfl, Nat.zero_add, getD_some]

end EmitCall

def codeSize (code : TplCode) : Nat :=
  (code.map fun item => (emitCall item).size).sum

def offsetOf (code : TplCode) (i : Nat) : Nat :=
  codeSize (code.take i)

theorem codeSize_eq (code : TplCode) :
    codeSize code = ((code.map emitCall).map EmitCall.size).sum := by
  rw [List.map_map]
  rfl

theorem codeSize_append (code rest : TplCode) :
    codeSize (code ++ rest) = codeSize code + codeSize rest := by
  rw [codeSize, map_append, sum_append]
  rfl

variable {emission : Emission Label}

section Offsets

variable {code : TplCode} {i j : Nat} {item : ControlFlow.Item Label PlainEmission Test Bool}

theorem offsetOf_succ (h : code[i]? = some item) :
    offsetOf code (i + 1) = offsetOf code i + (emitCall item).size := by
  rw [offsetOf, offsetOf, take_add_one, h, codeSize_append]
  rfl

theorem offsetOf_mono (h : i ≤ j) : offsetOf code i ≤ offsetOf code j := by
  obtain ⟨n, rfl⟩ := Nat.exists_eq_add_of_le h
  rw [offsetOf, offsetOf, take_add, codeSize_append]
  exact Nat.le_add_right _ _

theorem offsetOf_length (code : TplCode) : offsetOf code code.length = codeSize code := by
  rw [offsetOf, take_length]

theorem size_pos (h : emitCall item = .emit emission) : 0 < (emitCall item).size := by
  rw [h]
  exact Nat.lt_of_lt_of_le (by decide) (Nat.le_add_right _ _)

theorem offsetOf_inj {item' : ControlFlow.Item Label PlainEmission Test Bool}
    {emission' : Emission Label} (hi : code[i]? = some item) (hj : code[j]? = some item')
    (hemit : emitCall item = .emit emission) (hemit' : emitCall item' = .emit emission')
    (h : offsetOf code i = offsetOf code j) : i = j := by
  have hsize := size_pos hemit
  have hsize' := size_pos hemit'
  rcases Nat.lt_trichotomy i j with hlt | heq | hlt
  · have hle : offsetOf code (i + 1) ≤ offsetOf code j := offsetOf_mono hlt
    rw [offsetOf_succ hi] at hle
    omega
  · exact heq
  · have hle : offsetOf code (j + 1) ≤ offsetOf code i := offsetOf_mono hlt
    rw [offsetOf_succ hj] at hle
    omega

theorem offsetOf_lt (hi : i < code.length) (hnot : ∀ label, code[i]? ≠ some (.bind label)) :
    offsetOf code i < codeSize code := by
  have hitem : code[i]? = some (code.get ⟨i, hi⟩) := getElem?_eq_getElem hi
  generalize code.get ⟨i, hi⟩ = item at hitem
  have hpos : 0 < (emitCall item).size := by
    cases item with
    | bind label => exact absurd hitem (hnot label)
    | _ => exact size_pos rfl
  calc offsetOf code i < offsetOf code (i + 1) := by
        rw [offsetOf_succ hitem]
        exact Nat.lt_add_of_pos_right hpos
    _ ≤ offsetOf code code.length := offsetOf_mono hi
    _ = codeSize code := offsetOf_length code

end Offsets

structure Located (calls : List (EmitCall Label)) (e : BytecodeEmitter Label) (start : Nat)
    (code : TplCode) : Prop where
  emitted : EmitCall.Emitted calls e
  fits : ∀ emission, .emit emission ∈ calls → emission.instruction.Fits
  bound : ∀ emission label, .emit emission ∈ calls →
    .jump label ∈ emission.instruction.operands → (EmitCall.boundAt label 0 calls).isSome = true
  items : ∀ i item emission, code[i]? = some item → emitCall item = .emit emission →
    (start + offsetOf code i, emission.instruction) ∈ EmitCall.placed 0 calls
  binds : ∀ i label, code[i]? = some (.bind label) →
    EmitCall.targets calls label = start + offsetOf code i
  closed : Closed code

theorem Vm.interpretJump_eq_none {bytes : List UInt8} {ip : Nat} {op : Bytecode}
    (hop : opcodeAt bytes ip = some op) (hjump : Bytecodes.isJump op = false)
    (frame : LocalVar → Bool) : interpretJump bytes frame ip = none := by
  obtain ⟨word, hword, hop⟩ := bind_eq_some_iff.1 hop
  have hread : BytecodeIterator.read32 bytes ip = some word := hword
  simp only [interpretJump, hread, hop, bind_eq_bind, bind_some]
  split
  · cases hjump
  · cases hjump
  · cases hjump
  · rfl

variable {item : ControlFlow.Item Label PlainEmission Test Bool} {i : Nat}

namespace Located

variable {calls : List (EmitCall Label)} {e : BytecodeEmitter Label} {start : Nat}
  {code : TplCode} (h : Located calls e start code)

include h

theorem opcodeAt_eq (hitem : code[i]? = some item) (hemit : emitCall item = .emit emission) :
    Vm.opcodeAt e.bytecode (start + offsetOf code i) = some emission.instruction.bytecode :=
  (EmitCall.iterator_at_placed h.emitted h.fits h.bound (h.items i item emission hitem hemit) _).1

theorem step_plain {instruction : PlainEmission} (hitem : code[i]? = some (.plain instruction))
    (frame : LocalVar → Bool) (ip : Nat) :
    Vm.Step e.bytecode frame (start + offsetOf code i) ip ↔ ip = start + offsetOf code (i + 1) := by
  have hop := h.opcodeAt_eq hitem rfl
  have hadvance := (EmitCall.iterator_at_placed h.emitted h.fits h.bound
    (h.items i _ _ hitem rfl) e.bytecode.length).2
  have hnext : start + offsetOf code (i + 1) =
      start + offsetOf code i + instruction.emission.instruction.size := by
    rw [offsetOf_succ hitem, ← Nat.add_assoc]
    rfl
  constructor
  · intro hstep
    cases hstep with
    | jump hjump =>
      rw [Vm.interpretJump_eq_none hop instruction.not_jump] at hjump
      cases hjump
    | next _ _ _ hadvance' =>
      rw [hadvance] at hadvance'
      cases hadvance'
      exact hnext.symm
  · rintro rfl
    rw [hnext]
    exact .next hop instruction.not_jump instruction.not_return hadvance

variable {j : Nat} {label : Label}

theorem step_target (hitem : code[i]? = some item) (hemit : emitCall item = .emit emission)
    (hlabel : .jump label ∈ emission.instruction.operands)
    (hjump : Bytecodes.isJump emission.instruction.bytecode = true)
    (hj : code[j]? = some (.bind label)) (frame : LocalVar → Bool) (ip : Nat) :
    Vm.Step e.bytecode frame (start + offsetOf code i) ip ↔
      ip = start + offsetOf code (if emission.instruction.taken frame then j else i + 1) := by
  have hop := h.opcodeAt_eq hitem hemit
  have hnext : offsetOf code (i + 1) = offsetOf code i + emission.instruction.size := by
    rw [offsetOf_succ hitem, hemit]
    rfl
  have hlands := EmitCall.jump_at_placed h.emitted h.fits h.bound
    (h.items i item emission hitem hemit) hlabel frame
  rw [h.binds j label hj] at hlands
  have hlands : Vm.interpretJump e.bytecode frame (start + offsetOf code i) =
      some ((start + offsetOf code
        (if emission.instruction.taken frame then j else i + 1) : Nat) : Int) := by
    rw [hlands]
    split
    · rfl
    · rw [hnext]
      push_cast
      rw [add_assoc]
  constructor
  · intro hstep
    cases hstep with
    | jump hstep =>
      rw [hlands] at hstep
      exact (Int.ofNat.inj (Option.some.inj hstep)).symm
    | next hop' hnot _ _ =>
      rw [hop] at hop'
      cases hop'
      rw [hjump] at hnot
      cases hnot
  · rintro rfl
    exact .jump hlands

/-- A branch goes either way, as the test is in the frame. -/
theorem step_branch {test : Test} (hitem : code[i]? = some (.branch test label))
    (hj : code[j]? = some (.bind label)) (frame : LocalVar → Bool) (ip : Nat) :
    Vm.Step e.bytecode frame (start + offsetOf code i) ip ↔
      ip = start + offsetOf code (if frame test.cond = test.jumpIf then j else i + 1) := by
  have hjump : Bytecodes.isJump test.bytecode = true := by
    rw [Test.bytecode]
    split <;> rfl
  have htaken : (Emission.conditionalJump test.bytecode test.cond label).instruction.taken frame =
      decide (frame test.cond = test.jumpIf) := by
    rw [Test.bytecode]
    cases test.jumpIf <;> cases hframe : frame test.cond <;>
      simp [Instruction.taken, Emission.instruction, hframe]
  rw [h.step_target hitem rfl (by simp [Emission.instruction]) hjump hj, htaken]
  simp only [decide_eq_true_eq]

theorem opcodeAt_ret {result : Bool} (hitem : code[i]? = some (.ret result)) :
    Vm.opcodeAt e.bytecode (start + offsetOf code i) = some .return ∧
      ∀ frame ip, ¬ Vm.Step e.bytecode frame (start + offsetOf code i) ip := by
  have hop : Vm.opcodeAt e.bytecode (start + offsetOf code i) = some .return :=
    h.opcodeAt_eq hitem rfl
  refine ⟨hop, fun frame ip hstep => ?_⟩
  cases hstep with
  | jump hjump =>
    rw [Vm.interpretJump_eq_none hop rfl] at hjump
    cases hjump
  | next hop' _ hreturn _ =>
    rw [hop] at hop'
    exact hreturn (Option.some.inj hop').symm

/-- Every point but the end, a return and a place where a label is bound has a next point in every
frame, and the interpreter goes to such points only. -/
theorem step_point (hi : i < code.length) (hnot : ∀ label, code[i]? ≠ some (.bind label)) :
    (∃ result, code[i]? = some (.ret result)) ∨
      ((∀ frame, ∃ ip, Vm.Step e.bytecode frame (start + offsetOf code i) ip) ∧
        (∀ frame ip, Vm.Step e.bytecode frame (start + offsetOf code i) ip →
          ∃ j, ControlFlow.Step code i j ∧ ip = start + offsetOf code j) ∧
        Vm.opcodeAt e.bytecode (start + offsetOf code i) ≠ some .return) := by
  have hitem : code[i]? = some (code.get ⟨i, hi⟩) := getElem?_eq_getElem hi
  have hmem : code.get ⟨i, hi⟩ ∈ code := List.get_mem code ⟨i, hi⟩
  generalize code.get ⟨i, hi⟩ = item at hitem hmem
  cases item with
  | ret result => exact .inl ⟨result, hitem⟩
  | bind label => exact absurd hitem (hnot label)
  | plain instruction =>
    refine .inr ⟨fun frame => ⟨_, (h.step_plain hitem frame _).2 rfl⟩, ?_, ?_⟩
    · intro frame ip hstep
      exact ⟨i + 1, .plain hitem, (h.step_plain hitem frame ip).1 hstep⟩
    · rw [h.opcodeAt_eq hitem rfl]
      exact fun heq => instruction.not_return (Option.some.inj heq)
  | jump label =>
    obtain ⟨j, hj⟩ := mem_iff_getElem?.1 (h.closed _ hmem label rfl)
    have hsteps := h.step_target hitem rfl (mem_singleton_self _) rfl hj
    refine .inr ⟨fun frame => ⟨_, (hsteps frame _).2 rfl⟩, ?_, ?_⟩
    · intro frame ip hstep
      exact ⟨j, .jump hitem hj, (hsteps frame ip).1 hstep⟩
    · rw [h.opcodeAt_eq hitem rfl]
      exact fun heq => Bytecode.noConfusion (Option.some.inj heq)
  | branch test label =>
    obtain ⟨j, hj⟩ := mem_iff_getElem?.1 (h.closed _ hmem label rfl)
    have hsteps := h.step_branch hitem hj
    refine .inr ⟨fun frame => ⟨_, (hsteps frame _).2 rfl⟩, ?_, ?_⟩
    · intro frame ip hstep
      refine ⟨_, ?_, (hsteps frame ip).1 hstep⟩
      split
      · exact .taken hitem hj
      · exact .passed hitem
    · rw [h.opcodeAt_eq hitem rfl]
      intro heq
      have hbc : test.bytecode = .return := Option.some.inj heq
      rw [Test.bytecode] at hbc
      split at hbc <;> cases hbc

theorem reaches_of_step (hstep : ControlFlow.Step code i j) :
    Vm.Reaches e.bytecode (start + offsetOf code i) (start + offsetOf code j) := by
  cases hstep with
  | plain hitem => exact .single ⟨fun _ => true, (h.step_plain hitem _ _).2 rfl⟩
  | bind hitem =>
    rw [offsetOf_succ hitem]
    exact .refl
  | jump hitem hj =>
    exact .single ⟨fun _ => true, (h.step_target hitem rfl (mem_singleton_self _) rfl hj _ _).2 rfl⟩
  | @taken _ test label hitem hj =>
    refine .single ⟨fun _ => test.jumpIf, (h.step_branch hitem hj _ _).2 ?_⟩
    rw [if_pos rfl]
  | @passed test label hitem =>
    obtain ⟨j, hj⟩ := mem_iff_getElem?.1 (h.closed _ (mem_of_getElem? hitem) label rfl)
    refine .single ⟨fun _ => !test.jumpIf, (h.step_branch hitem hj _ _).2 ?_⟩
    rw [if_neg (by simp)]

theorem reaches_of_reach (hreach : Relation.ReflTransGen (ControlFlow.Step code) i j) :
    Vm.Reaches e.bytecode (start + offsetOf code i) (start + offsetOf code j) := by
  induction hreach with
  | refl => exact .refl
  | tail _ hstep ih => exact ih.trans (h.reaches_of_step hstep)

end Located

variable {code : TplCode}

/-- From a point the labels that are bound there are passed. -/
theorem exists_past_binds (hi : i ≤ code.length) :
    ∃ j ≤ code.length, Relation.ReflTransGen (ControlFlow.Step code) i j ∧
      offsetOf code j = offsetOf code i ∧ ∀ label, code[j]? ≠ some (.bind label) := by
  induction hn : code.length - i generalizing i with
  | zero =>
    refine ⟨i, hi, .refl, rfl, fun label hlabel => ?_⟩
    have := (List.getElem?_eq_some_iff.1 hlabel).1
    omega
  | succ n ih =>
    by_cases hbind : ∃ label, code[i]? = some (.bind label)
    · obtain ⟨label, hlabel⟩ := hbind
      obtain ⟨j, hj, hreach, hoff, hnot⟩ := ih (i := i + 1) (by omega) (by omega)
      refine ⟨j, hj, .head (.bind hlabel) hreach, ?_, hnot⟩
      rw [hoff, offsetOf_succ hlabel]
      rfl
    · exact ⟨i, hi, .refl, rfl, fun label hlabel => hbind ⟨label, hlabel⟩⟩

/-- Every path from the start of the function stays in its range and goes on until it ends at a
return; in a function that returns a value, the return is that of a statement with a value. -/
structure FunctionEnds (bytes : List UInt8) (start : Nat) (code : TplCode) (returnsNil : Bool) :
    Prop where
  inside : ∀ ip, Vm.Reaches bytes start ip → start ≤ ip ∧ ip < start + codeSize code
  goesOn : ∀ ip, Vm.Reaches bytes start ip → Vm.opcodeAt bytes ip = some .return ∨
    ∀ frame, ∃ next, Vm.Step bytes frame ip next
  valued : returnsNil = false → ∀ ip, Vm.Reaches bytes start ip →
    Vm.opcodeAt bytes ip = some .return →
    ∃ i, code[i]? = some (.ret true) ∧ ip = start + offsetOf code i

namespace Located

variable {calls : List (EmitCall Label)} {e : BytecodeEmitter Label} {start : Nat}
  {code : TplCode} (h : Located calls e start code)

include h

/-- The interpreter is always at a point that is reached in the code, before an item that is not
a label. -/
theorem exists_point (hfall : ¬ ControlFlow.Leaves code 0 .fall) {ip : Nat}
    (hreaches : Vm.Reaches e.bytecode start ip) :
    ∃ i < code.length, Relation.ReflTransGen (ControlFlow.Step code) 0 i ∧
      ip = start + offsetOf code i ∧ ∀ label, code[i]? ≠ some (.bind label) := by
  -- A point that is reached is not the end, and labels can be passed there.
  have hpoint {i : Nat} (hi : i ≤ code.length)
      (hreach : Relation.ReflTransGen (ControlFlow.Step code) 0 i) :
      ∃ j < code.length, Relation.ReflTransGen (ControlFlow.Step code) 0 j ∧
        start + offsetOf code i = start + offsetOf code j ∧
        ∀ label, code[j]? ≠ some (.bind label) := by
    obtain ⟨j, hj, hreach', hoff, hnot⟩ := exists_past_binds hi
    refine ⟨j, Nat.lt_of_le_of_ne hj ?_, hreach.trans hreach', by rw [hoff], hnot⟩
    rintro rfl
    exact hfall (ControlFlow.leaves_of_reach (hreach.trans hreach')
      (ControlFlow.leaves_length.2 rfl))
  induction hreaches with
  | refl => exact hpoint (Nat.zero_le _) .refl
  | tail _ hstep ih =>
    obtain ⟨frame, hstep⟩ := hstep
    obtain ⟨i, hi, hreach, rfl, hnot⟩ := ih
    obtain ⟨result, hret⟩ | ⟨-, hnext, -⟩ := h.step_point hi hnot
    · exact absurd hstep ((h.opcodeAt_ret hret).2 frame _)
    · obtain ⟨j, hj, rfl⟩ := hnext frame _ hstep
      exact hpoint hj.le (hreach.tail hj)

theorem functionEnds_iff (hfall : ¬ ControlFlow.Leaves code 0 .fall) (returnsNil : Bool) :
    FunctionEnds e.bytecode start code returnsNil ↔
      returnsNil = true ∨ ¬ ControlFlow.Leaves code 0 (.ret false) := by
  have hstart : start + offsetOf code 0 = start := by
    rfl
  constructor
  · intro hends
    cases returnsNil with
    | true => exact .inl rfl
    | false =>
      refine .inr fun hleaves => ?_
      obtain ⟨j, hreach, hret⟩ := ControlFlow.exists_ret_of_leaves hleaves
      have hreaches := h.reaches_of_reach hreach
      obtain ⟨i, hi, hoff⟩ := hends.valued rfl _ hreaches (h.opcodeAt_ret hret).1
      obtain rfl := offsetOf_inj hret hi rfl rfl (Nat.add_left_cancel hoff)
      rw [hret] at hi
      cases hi
  · intro hvalued
    constructor
    · intro ip hreaches
      obtain ⟨i, hi, -, rfl, hnot⟩ := h.exists_point hfall hreaches
      have hlt := offsetOf_lt hi hnot
      omega
    · intro ip hreaches
      obtain ⟨i, hi, -, rfl, hnot⟩ := h.exists_point hfall hreaches
      obtain ⟨result, hret⟩ | ⟨hsteps, -, -⟩ := h.step_point hi hnot
      · exact .inl (h.opcodeAt_ret hret).1
      · exact .inr hsteps
    · intro hnil ip hreaches hop
      obtain ⟨i, hi, hreach, rfl, hnot⟩ := h.exists_point hfall hreaches
      obtain ⟨result, hret⟩ | ⟨-, -, hother⟩ := h.step_point hi hnot
      · cases result with
        | true => exact ⟨i, hret, rfl⟩
        | false =>
          have hleaves := ControlFlow.leaves_of_reach hreach ⟨0, .ret hret⟩
          obtain hreturns | hnever := hvalued
          · rw [hnil] at hreturns
            cases hreturns
          · exact absurd hleaves hnever
      · exact absurd hop hother

end Located

def fileCalls (codes : List TplCode) : List (EmitCall Label) :=
  codes.flatten.map emitCall

def startOf (codes : List TplCode) (k : Nat) : Nat :=
  codeSize (codes.take k).flatten

theorem fileCalls_split {codes : List TplCode} {k : Nat} (hcode : codes[k]? = some code)
    (hitem : code[i]? = some item) :
    ∃ before after, fileCalls codes = before ++ emitCall item :: after ∧
      (before.map EmitCall.size).sum = startOf codes k + offsetOf code i := by
  have hsplit {α : Type} {list : List α} {n : Nat} {a : α} (h : list[n]? = some a) :
      list = list.take n ++ a :: list.drop (n + 1) := by
    obtain ⟨hn, rfl⟩ := List.getElem?_eq_some_iff.1 h
    rw [← drop_eq_getElem_cons hn, take_append_drop]
  refine ⟨((codes.take k).flatten ++ code.take i).map emitCall,
    (code.drop (i + 1) ++ (codes.drop (k + 1)).flatten).map emitCall, ?_, ?_⟩
  · calc fileCalls codes = fileCalls (codes.take k ++
            (code.take i ++ item :: code.drop (i + 1)) :: codes.drop (k + 1)) := by
          rw [← hsplit hitem, ← hsplit hcode]
      _ = _ := by
          simp only [fileCalls, flatten_append, flatten_cons, map_append,
            map_cons, append_assoc, cons_append]
  · rw [← codeSize_eq, codeSize_append]
    rfl

section File

variable {codes : List TplCode} {e : BytecodeEmitter Label}

theorem fits_fileCalls (h : .emit emission ∈ fileCalls codes) : emission.instruction.Fits := by
  obtain ⟨item, -, hitem⟩ := List.mem_map.1 h
  cases item with
  | plain instruction =>
    cases hitem
    exact instruction.fits
  | jump label =>
    cases hitem
    exact .cons (.jump label) .nil
  | branch test label =>
    cases hitem
    have hbc : test.bytecode = .jumpIfTrue ∨ test.bytecode = .jumpIfFalse := by
      rw [Test.bytecode]
      split
      · exact .inl rfl
      · exact .inr rfl
    obtain hbc | hbc := hbc <;> rw [hbc] <;>
      exact .cons (.local test.cond) (.cons (.jump label) .nil)
  | ret result =>
    cases hitem
    exact .nil
  | bind label => cases hitem

theorem bound_fileCalls (hemitted : EmitCall.Emitted (fileCalls codes) e)
    (hclose : ∀ code ∈ codes, Closed code) {label : Label} (h : .emit emission ∈ fileCalls codes)
    (hlabel : .jump label ∈ emission.instruction.operands) :
    (EmitCall.boundAt label 0 (fileCalls codes)).isSome = true := by
  obtain ⟨item, hmem, hitem⟩ := List.mem_map.1 h
  obtain ⟨code, hcode, hmem⟩ := mem_flatten.1 hmem
  have htarget : item.target? = some label := by
    cases item with
    | plain instruction =>
      cases hitem
      have hjump := Emission.isJump_of_mem (hemitted.asserted _ h) hlabel
      rw [instruction.not_jump] at hjump
      cases hjump
    | jump other | branch test other =>
      cases hitem
      simp only [Emission.instruction, mem_cons, Operand.jump.injEq, reduceCtorEq,
        not_mem_nil, or_false, false_or] at hlabel
      rw [hlabel]
      rfl
    | ret result =>
      cases hitem
      cases hlabel
    | bind other => cases hitem
  apply EmitCall.boundAt_isSome_of_mem
  have hbind := hclose code hcode item hmem label htarget
  exact List.mem_map.2 ⟨_, mem_flatten.2 ⟨code, hcode, hbind⟩, rfl⟩

theorem located_fileCalls (hrun : EmitCall.runAll (fileCalls codes) = some e)
    (hclose : ∀ code ∈ codes, Closed code) {k : Nat} {code : TplCode}
    (hcode : codes[k]? = some code) : Located (fileCalls codes) e (startOf codes k) code where
  emitted := EmitCall.emitted_of_runAll hrun
  fits _ := fits_fileCalls
  bound _ _ := bound_fileCalls (EmitCall.emitted_of_runAll hrun) hclose
  items i item emission hitem hemit := by
    obtain ⟨before, after, hcalls, hsize⟩ := fileCalls_split hcode hitem
    rw [hcalls, EmitCall.placed_append, Nat.zero_add, hsize, hemit]
    exact mem_append_right _ mem_cons_self
  binds i label hitem := by
    obtain ⟨before, after, hcalls, hsize⟩ := fileCalls_split hcode hitem
    rw [← hsize, hcalls]
    rw [hcalls] at hrun
    exact EmitCall.targets_eq hrun
  closed := hclose code (mem_of_getElem? hcode)

end File

namespace Visitors

variable {v : Visitors} {nilType : List Nat → Expr → Bool} {k : Nat} {functions : List TplFunction}

theorem visitFile_getElem? {codes : List TplCode} (h : v.visitFile k functions = some codes) :
    codes.length = functions.length ∧ ∀ i function, functions[i]? = some function →
      v.supports (k + i) function = true ∧
        codes[i]? = some (v.visitStmt [k + i] function.body) := by
  induction functions generalizing k codes with
  | nil =>
    cases h
    exact ⟨rfl, fun i function hfun => by cases hfun⟩
  | cons function functions ih =>
    obtain ⟨code, hcode, h⟩ := bind_eq_some_iff.1 h
    obtain ⟨rest, hrest, h⟩ := bind_eq_some_iff.1 h
    cases h
    obtain ⟨hlen, hfunctions⟩ := ih hrest
    refine ⟨congrArg (· + 1) hlen, fun i other hother => ?_⟩
    cases i with
    | zero =>
      cases hother
      rw [visitFunctionDecl] at hcode
      split at hcode
      · next hsupports =>
          cases hcode
          exact ⟨hsupports, rfl⟩
      · cases hcode
    | succ i =>
      have := hfunctions i other hother
      rw [Nat.add_assoc, Nat.add_comm 1] at this
      exact this

theorem exists_visitFile (k : Nat) (functions : List TplFunction)
    (h : ∀ i function, functions[i]? = some function → v.supports (k + i) function = true) :
    ∃ codes, v.visitFile k functions = some codes := by
  induction functions generalizing k with
  | nil => exact ⟨[], rfl⟩
  | cons function functions ih =>
    have hfirst : v.supports k function = true := h 0 function rfl
    obtain ⟨rest, hrest⟩ := ih (k + 1) fun i other hother => by
      rw [Nat.add_assoc, Nat.add_comm 1]
      exact h (i + 1) other hother
    simp [visitFile, visitFunctionDecl, hfirst, hrest]

theorem accepted_of_visitFile {sources : List TplFunction}
    (h : Sema.visitFile nilType k sources = some functions) {function : TplFunction}
    (hfun : functions[i]? = some function) :
    ∃ path body, Sema.visitFunction nilType path function.returnsNil body = some function.body := by
  induction sources generalizing k functions i with
  | nil =>
    cases h
    cases hfun
  | cons source sources ih =>
    obtain ⟨body, hbody, h⟩ := bind_eq_some_iff.1 h
    obtain ⟨rest, hrest, h⟩ := bind_eq_some_iff.1 h
    cases h
    cases i with
    | zero =>
      cases hfun
      exact ⟨[k], source.body, hbody⟩
    | succ i => exact ih hrest hfun

end Visitors

def FileEnds (v : Visitors) (functions : List TplFunction) (e : BytecodeEmitter Label) : Prop :=
  ∃ codes, v.visitFile 0 functions = some codes ∧
    ∀ k function code, functions[k]? = some function → codes[k]? = some code →
      FunctionEnds e.bytecode (startOf codes k) code function.returnsNil

/-- Visitors that emit nothing but control flow. -/
def silentVisitors : Visitors where
  visited _ _ := []
  visited_nodup _ _ := nodup_nil
  straight _ _ _ := []
  destination _ _ := ⟨0⟩
  assign _ _ := []
  fails _ _ := false

/-- A loop that is left by a return on either branch of a test, and a return behind it. -/
def searchLoop : TplFunction where
  returnsNil := false
  body := .block [.for none (some (.boolLit true)) none (.block
        [.if (.boolLit true) (.block [.return (some (.boolLit true))])
          (some (.block [.return (some (.boolLit false))]))]),
      .return (some (.boolLit false))]

/-- The generator asks whether the empty block is terminating. -/
def emptyThen : TplFunction where
  returnsNil := true
  body := .block [.if (.boolLit true) (.block []) (some (.block [.return none])), .return none]

end Terrier.Tpl
