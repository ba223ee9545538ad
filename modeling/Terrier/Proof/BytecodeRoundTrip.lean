import Terrier.Execution.Vm
import Terrier.Proof.EmittedImage

/-!
Emitter, iterator and interpreter agree on instructions, operands and the targets of jumps. Some
methods emit an unsigned number where the table has a signed one, which the iterator shows as it
was emitted exactly when its highest bit is clear.
-/

namespace Terrier.Tpl

open Bytecodes OperandType LocalVar Fixups BytecodeEmitter

open Fixups (render references)
open LittleEndian (At)
open List

variable {ι : Type} {operand : Operand ι}

namespace Operand

def value (target : ι → Nat) (position : Nat) : Operand ι → OperandValue
  | int8 value => .integer value.toInt
  | int16 value => .integer value.toInt
  | int32 value => .integer value.toInt
  | int64 value => .integer value.toInt
  | uint16 value => .integer value.toNat
  | uint32 value => .integer value.toNat
  | uint64 value => .integer value.toNat
  | float bits => .float bits
  | double bits => .double bits
  | .local var => .local var
  | locals params => .locals params
  | jump label => .jumpOffset (target label - position)

/-- What is read back where the table has the given type. -/
def seen (type : OperandType) (target : ι → Nat) (position : Nat) (operand : Operand ι) :
    OperandValue :=
  match type, operand with
  | .imm4, uint32 value => .integer value.toInt32.toInt
  | .imm8, uint64 value => .integer value.toInt64.toInt
  | _, operand => operand.value target position

/-- An unsigned number in the place of a signed one is below half of its range. -/
def InRange : OperandType → Operand ι → Prop
  | .imm4, uint32 value => value.toNat < 2 ^ 31
  | .imm8, uint64 value => value.toNat < 2 ^ 63
  | _, _ => True

theorem toInt32_eq_iff (value : UInt32) :
    value.toInt32.toInt = value.toNat ↔ value.toNat < 2 ^ 31 := by
  have hlt := value.toNat_lt
  have hsigned : value.toInt32.toInt = if 2 * value.toNat < 2 ^ 32 then (value.toNat : Int)
      else value.toNat - 2 ^ 32 := BitVec.toInt_eq_toNat_cond value.toBitVec
  rw [hsigned]
  split <;> omega

theorem toInt64_eq_iff (value : UInt64) :
    value.toInt64.toInt = value.toNat ↔ value.toNat < 2 ^ 63 := by
  have hlt := value.toNat_lt
  have hsigned : value.toInt64.toInt = if 2 * value.toNat < 2 ^ 64 then (value.toNat : Int)
      else value.toNat - 2 ^ 64 := BitVec.toInt_eq_toNat_cond value.toBitVec
  rw [hsigned]
  split <;> omega

theorem seen_eq_iff {type : OperandType} (h : Fits type operand) (target : ι → Nat)
    (position : Nat) :
    operand.seen type target position = operand.value target position ↔ operand.InRange type := by
  cases h with
  | unsigned32 value => simpa [seen, Operand.value, InRange] using toInt32_eq_iff value
  | unsigned64 value => simpa [seen, Operand.value, InRange] using toInt64_eq_iff value
  | _ => simp [seen, InRange]

end Operand

namespace Instruction

/-- No unsigned operand in the place of a signed one has its highest bit set. -/
def InRange (instruction : Instruction ι) : Prop :=
  ∀ pair ∈ (Bytecodes.getOperandTypes instruction.bytecode).zip instruction.operands,
    pair.2.InRange pair.1

/-- Whether the interpreter takes the jump. -/
def taken (frame : LocalVar → Bool) : Instruction ι → Bool
  | ⟨.jump, _⟩ => true
  | ⟨.jumpIfTrue, .local cond :: _⟩ => frame cond
  | ⟨.jumpIfFalse, .local cond :: _⟩ => !frame cond
  | _ => false

end Instruction

variable {emission : Emission ι} {label : ι} {params : List LocalVar}

namespace Emission

/-- The methods that choose the bytecode themselves, or assert that it takes what they emit. The
others rely on their callers. -/
def checked : Emission ι → Bool
  | deref .. | derefN .. | assign .. | assignImm1 .. | assignImm2 .. | assignImm4 ..
  | assignImm4F .. | assignImm8F .. | assignImm8 .. | lea .. | leaScaled .. | call .. | .return
  | emit .. | threadStateContainerIterate .. | threadStateContainerReset .. | parallelTableScan ..
  | filterManagerInsertFlavor .. | aggHashTableLookup .. | aggHashTableProcessBatch ..
  | aggHashTableMovePartitions .. | aggHashTableParallelPartitionedScan ..
  | joinHashTableIterHasNext .. => true
  | _ => false

theorem fitsAll_locals (vars : List LocalVar) :
    Operand.FitsAll (vars.map fun _ => OperandType.local)
      (vars.map (Operand.local : LocalVar → Operand ι)) := by
  induction vars with
  | nil => exact .nil
  | cons var vars ih => exact .cons (.local var) ih

theorem fits_of_checked (hcheck : emission.checked = true) (hasserts : emission.asserts = true) :
    emission.instruction.Fits := by
  cases emission with
  | deref bytecode dest src | assign bytecode dest src =>
    simp only [asserts, mem_cons, not_mem_nil, or_false, decide_eq_true_eq] at hasserts
    obtain rfl | rfl | rfl | rfl := hasserts <;> exact .cons (.local dest) (.cons (.local src) .nil)
  | emit bytecode operands =>
    have htypes : getOperandTypes bytecode = operands.map fun _ => .local := by
      simpa [asserts] using hasserts
    rw [Instruction.Fits, instruction, htypes]
    exact fitsAll_locals operands
  | _ => first | exact Bool.noConfusion hcheck | (unfold Instruction.Fits; repeat constructor)

theorem params_lt (hasserts : emission.asserts = true)
    (h : .locals params ∈ emission.instruction.operands) : params.length < 2 ^ 16 := by
  cases emission with
  | call funcId args =>
    simp only [instruction, mem_cons, reduceCtorEq, Operand.locals.injEq, false_or,
      not_mem_nil, or_false] at h
    simp only [asserts, decide_eq_true_eq] at hasserts
    subst h
    omega
  | emit bytecode operands => simp [instruction] at h
  | _ => simp [instruction] at h

theorem isJump_of_mem (hasserts : emission.asserts = true)
    (h : .jump label ∈ emission.instruction.operands) :
    Bytecodes.isJump emission.instruction.bytecode = true := by
  cases emission with
  | jump bytecode other | conditionalJump bytecode cond other => exact hasserts
  | _ => simp [instruction] at h

end Emission

namespace BytecodeIterator

open BytecodeEmitter (scalar)

variable {bytes : List UInt8} {address : Nat}

theorem read8_eq {value : UInt8} (h : At bytes (scalar 1 value.toNat) address) :
    read8 bytes address = some value := by
  rw [read8, h.read?_eq (by simpa using value.toNat_lt), Option.map_some, UInt8.ofNat_toNat]

theorem read16_eq {value : UInt16} (h : At bytes (scalar 2 value.toNat) address) :
    read16 bytes address = some value := by
  rw [read16, h.read?_eq (by simpa using value.toNat_lt), Option.map_some, UInt16.ofNat_toNat]

theorem read32_eq {value : UInt32} (h : At bytes (scalar 4 value.toNat) address) :
    read32 bytes address = some value := by
  rw [read32, h.read?_eq (by simpa using value.toNat_lt), Option.map_some, UInt32.ofNat_toNat]

theorem read64_eq {value : UInt64} (h : At bytes (scalar 8 value.toNat) address) :
    read64 bytes address = some value := by
  rw [read64, h.read?_eq (by simpa using value.toNat_lt), Option.map_some, UInt64.ofNat_toNat]

theorem readLocals_eq
    (h : At bytes (params.flatMap fun param => scalar 4 param.encode.toNat) address) :
    readLocals bytes params.length address = some params := by
  induction params generalizing address with
  | nil => rfl
  | cons param params ih =>
    rw [flatMap_cons] at h
    have hfirst := read32_eq h.left
    have hrest := h.right
    rw [scalar, LittleEndian.length_encode] at hrest
    simp [readLocals, hfirst, OperandType.size, ih hrest, LocalVar.decode, LocalVar.encode]

def Resolved (fill : Nat → ι → List UInt8) (target : ι → Nat) (position : Nat) (label : ι) : Prop :=
  ∃ distance : Int32, fill position label = scalar 4 distance.toUInt32.toNat ∧
    distance.toInt = target label - position

variable {fill : Nat → ι → List UInt8} {target : ι → Nat} {it : BytecodeIterator} {index : Nat}

theorem getOperand_eq {type : OperandType}
    (haddress : it.operandAddress index = some (type, address)) (hfits : operand.Fits type)
    (hat : At it.bytecodes (Fixups.field fill address operand.piece) address)
    (hres : ∀ label, operand = .jump label → Resolved fill target address label) :
    it.getOperand index = some (operand.seen type target address) := by
  cases hfits with
  | int8 value =>
    have hread : read8 _ _ = some value.toUInt8 := read8_eq hat
    simp [getOperand, getImmediateOperand, haddress, hread, Operand.seen, Operand.value]
  | int16 value =>
    have hread : read16 _ _ = some value.toUInt16 := read16_eq hat
    simp [getOperand, getImmediateOperand, haddress, hread, Operand.seen, Operand.value]
  | int32 value =>
    have hread : read32 _ _ = some value.toUInt32 := read32_eq hat
    simp [getOperand, getImmediateOperand, haddress, hread, Operand.seen, Operand.value]
  | int64 value =>
    have hread : read64 _ _ = some value.toUInt64 := read64_eq hat
    simp [getOperand, getImmediateOperand, haddress, hread, Operand.seen, Operand.value]
  | float bits =>
    have hread : read32 _ _ = some bits := read32_eq hat
    simp [getOperand, getFloatImmediateOperand, haddress, hread, Operand.seen, Operand.value]
  | double bits =>
    have hread : read64 _ _ = some bits := read64_eq hat
    simp [getOperand, getFloatImmediateOperand, haddress, hread, Operand.seen, Operand.value]
  | uint16 value =>
    have hread : read16 _ _ = some value := read16_eq hat
    simp [getOperand, getUnsignedImmediateOperand, haddress, hread, Operand.seen, Operand.value]
  | uint32 value =>
    have hread : read32 _ _ = some value := read32_eq hat
    simp [getOperand, getUnsignedImmediateOperand, haddress, hread, Operand.seen, Operand.value]
  | functionId id =>
    have hread : read16 _ _ = some id := read16_eq hat
    simp [getOperand, getFunctionIdOperand, haddress, hread, Operand.seen, Operand.value]
  | «local» var =>
    have hread : read32 _ _ = some var.encode := read32_eq hat
    simp [getOperand, getLocalOperand, haddress, hread, Operand.seen, Operand.value, decode, encode]
  | jump label =>
    obtain ⟨distance, hfill, hdis⟩ := hres label rfl
    have hfield : At it.bytecodes (fill address label) address := hat
    rw [hfill] at hfield
    have hread : read32 _ _ = some distance.toUInt32 := read32_eq hfield
    simp [getOperand, getJumpOffsetOperand, haddress, hread, Operand.seen, Operand.value, hdis]
  | unsigned32 value =>
    have hread : read32 _ _ = some value := read32_eq hat
    simp [getOperand, getImmediateOperand, haddress, hread, Operand.seen]
  | unsigned64 value =>
    have hread : read64 _ _ = some value := read64_eq hat
    simp [getOperand, getImmediateOperand, haddress, hread, Operand.seen]

theorem getLocalCountOperand_eq (haddress : it.operandAddress index = some (.localCount, address))
    (hat : At it.bytecodes (Operand.locals params : Operand ι).image address)
    (hparams : params.length < 2 ^ 16) : it.getLocalCountOperand index = some params := by
  have hcount : read16 _ _ = some (UInt16.ofNat params.length) := read16_eq hat.left
  have hlen : (UInt16.ofNat params.length).toNat = params.length :=
    UInt16.toNat_ofNat_of_lt hparams
  have hat := hat.right
  rw [scalar, LittleEndian.length_encode] at hat
  rw [getLocalCountOperand, haddress]
  simp only [Option.bind_eq_bind, Option.bind_some, hcount, hlen]
  exact readLocals_eq hat

theorem operandSize_eq {type : OperandType}
    (haddress : it.operandAddress index = some (type, address)) (hfits : operand.Fits type) :
    it.operandSize index = some operand.size ∧ operand.size = type.size := by
  cases hfits <;> simp [operandSize, haddress, Operand.size, OperandType.size]

end BytecodeIterator

namespace Operand

/-- The values of operands that stand one behind the other. -/
def values (target : ι → Nat) : Nat → List (Operand ι) → List OperandValue
  | _, [] => []
  | position, operand :: operands =>
    operand.value target position :: values target (position + operand.size) operands

def seenAll (target : ι → Nat) : List OperandType → Nat → List (Operand ι) → List OperandValue
  | type :: types, position, operand :: operands =>
    operand.seen type target position :: seenAll target types (position + operand.size) operands
  | _, _, _ => []

theorem seenAll_eq_iff {types : List OperandType} {operands : List (Operand ι)}
    (h : FitsAll types operands) (target : ι → Nat) (position : Nat) :
    seenAll target types position operands = values target position operands ↔
      ∀ pair ∈ types.zip operands, pair.2.InRange pair.1 := by
  induction h generalizing position with
  | nil => simp [seenAll, values]
  | locals params => simp [seenAll, values, seen, InRange]
  | cons first rest ih => simp [seenAll, values, seen_eq_iff first, ih]

end Operand

variable {position : Nat} {instruction : Instruction ι}

namespace BytecodeIterator

variable {fill : Nat → ι → List UInt8} {target : ι → Nat} {it : BytecodeIterator}
  (hfill : ∀ position label, (fill position label).length = 4)

section

variable [DecidableEq ι]
include hfill

theorem operands_eq {types : List OperandType} {operands : List (Operand ι)}
    (hfits : Operand.FitsAll types operands)
    (hparams : ∀ params, .locals params ∈ operands → params.length < 2 ^ 16) {k : Nat}
    (haddress : ∀ i type, types[i]? = some type → it.operandAddress (k + i) =
      some (type, position + ((types.take i).map OperandType.size).sum))
    (hat : At it.bytecodes (render 4 fill position (operands.map Operand.piece)) position)
    (hres : ∀ label, ∀ q ∈ references 4 label position (operands.map Operand.piece),
      Resolved fill target q label) :
    (List.range' k types.length).mapM it.getOperand =
        some (Operand.seenAll target types position operands) ∧
      (List.range' k types.length).mapM it.operandSize = some (operands.map Operand.size) := by
  induction hfits generalizing k position with
  | nil => exact ⟨rfl, rfl⟩
  | locals params =>
    have haddr : it.operandAddress k = some (.localCount, position) := haddress 0 _ rfl
    have hread := getLocalCountOperand_eq (ι := ι) haddr hat.left (hparams params (by simp))
    constructor
    · simp [getOperand, haddr, hread, Operand.seenAll, Operand.seen, Operand.value]
    · simp [operandSize, haddr, hread, OperandType.size, Operand.size, Nat.mul_comm]
  | @cons type operand types operands first rest ih =>
    have haddr : it.operandAddress k = some (type, position) := haddress 0 type rfl
    have hsize := operandSize_eq haddr first
    rw [map_cons, render] at hat
    have hfirst : it.getOperand k = some (operand.seen type target position) := by
      apply getOperand_eq haddr first hat.left
      rintro label rfl
      exact hres label position (by simp [Operand.piece, references])
    have hat' := hat.right
    rw [Fixups.length_field hfill, Operand.size_piece] at hat'
    have haddress' : ∀ i next, types[i]? = some next → it.operandAddress (k + 1 + i) =
        some (next, position + operand.size + ((types.take i).map OperandType.size).sum) := by
      intro i next hnext
      have := haddress (i + 1) next hnext
      rw [take_succ_cons, map_cons, sum_cons, ← hsize.2] at this
      rw [Nat.add_assoc k, Nat.add_comm 1, this, Nat.add_assoc]
    have hres' : ∀ label, ∀ q ∈ references 4 label (position + operand.size)
        (operands.map Operand.piece), Resolved fill target q label := by
      intro label q hq
      have happend := Fixups.references_append 4 label position [operand.piece]
        (operands.map Operand.piece)
      rw [Fixups.size, Fixups.size, Operand.size_piece, Nat.add_zero] at happend
      apply hres label q
      rw [map_cons, ← singleton_append, happend]
      exact mem_append_right _ hq
    have hrest := ih (fun params h => hparams params (mem_cons_of_mem _ h)) haddress' hat' hres'
    rw [length_cons, range'_succ]
    constructor
    · simp [hfirst, hrest.1, Operand.seenAll]
    · simp [hsize.1, hrest.2]

theorem instruction_eq (it : BytecodeIterator)
    (hpos : it.currOffset = position) (hfits : instruction.Fits)
    (hparams : ∀ params, .locals params ∈ instruction.operands → params.length < 2 ^ 16)
    (hat : At it.bytecodes (render 4 fill position instruction.pieces) position)
    (hres : ∀ label, ∀ q ∈ references 4 label position instruction.pieces,
      Resolved fill target q label) :
    it.currentBytecode = some instruction.bytecode ∧
      (List.range (Bytecodes.numOperands instruction.bytecode)).mapM it.getOperand =
        some (Operand.seenAll target (Bytecodes.getOperandTypes instruction.bytecode)
          (position + Bytecodes.bytecodeSize) instruction.operands) ∧
      it.advance = some { it with currOffset := position + instruction.size } := by
  rw [Instruction.pieces, render] at hat
  have hopcode := read32_eq hat.left
  have hcur : it.currentBytecode = some instruction.bytecode := by
    rw [currentBytecode, hpos, hopcode]
    exact Bytecodes.fromByte_toByte _
  have hops := hat.right
  have hlen (value : Nat) :
      (BytecodeEmitter.scalar Bytecodes.bytecodeSize value).length = Bytecodes.bytecodeSize :=
    LittleEndian.length_encode _ _
  rw [Fixups.length_field hfill, Fixups.Piece.size, hlen] at hops
  rw [Instruction.pieces] at hres
  simp only [references, hlen] at hres
  have haddress : ∀ i type, (Bytecodes.getOperandTypes instruction.bytecode)[i]? = some type →
      it.operandAddress (0 + i) = some (type, position + Bytecodes.bytecodeSize +
        (((Bytecodes.getOperandTypes instruction.bytecode).take i).map OperandType.size).sum) := by
    intro i type htype
    simp [operandAddress, hcur, hpos, Bytecodes.getNthOperandType, htype,
      Bytecodes.getNthOperandOffset, Nat.add_assoc]
  obtain ⟨hvals, hsizes⟩ := operands_eq hfill hfits hparams haddress hops hres
  rw [← range_eq_range'] at hvals hsizes
  refine ⟨hcur, hvals, ?_⟩
  simp [advance, currentBytecodeSize, hcur, Bytecodes.numOperands, hsizes, hpos, Instruction.size]

end

end BytecodeIterator

variable {calls : List (EmitCall ι)}

namespace EmitCall

def visitsFrom (target : ι → Nat) (position : Nat) (calls : List (EmitCall ι)) : List Visit :=
  (placed position calls).map fun (offset, instruction) =>
    ⟨offset, instruction.bytecode,
      Operand.values target (offset + Bytecodes.bytecodeSize) instruction.operands⟩

def seenFrom (target : ι → Nat) (position : Nat) (calls : List (EmitCall ι)) : List Visit :=
  (placed position calls).map fun (offset, instruction) =>
    ⟨offset, instruction.bytecode,
      Operand.seenAll target (Bytecodes.getOperandTypes instruction.bytecode)
        (offset + Bytecodes.bytecodeSize) instruction.operands⟩

theorem exists_emission {entry : Nat × Instruction ι} (h : entry ∈ placed position calls) :
    ∃ emission, emit emission ∈ calls ∧ emission.instruction = entry.2 := by
  induction calls generalizing position with
  | nil => cases h
  | cons call calls ih =>
    cases call with
    | bind label =>
      obtain ⟨emission, hmem, heq⟩ := ih h
      exact ⟨emission, mem_cons_of_mem _ hmem, heq⟩
    | emit emission =>
      rw [placed, mem_cons] at h
      obtain rfl | h := h
      · exact ⟨emission, mem_cons_self, rfl⟩
      · obtain ⟨other, hmem, heq⟩ := ih h
        exact ⟨other, mem_cons_of_mem _ hmem, heq⟩

theorem exists_placed (h : emit emission ∈ calls) (position : Nat) :
    ∃ offset, (offset, emission.instruction) ∈ placed position calls := by
  induction calls generalizing position with
  | nil => cases h
  | cons call calls ih =>
    rw [mem_cons] at h
    obtain rfl | h := h
    · exact ⟨position, mem_cons_self⟩
    · cases call with
      | bind label => exact ih h position
      | emit other =>
        obtain ⟨offset, hoff⟩ := ih h (position + other.instruction.size)
        exact ⟨offset, mem_cons_of_mem _ hoff⟩

theorem seenFrom_eq_iff (hfits : ∀ emission, emit emission ∈ calls → emission.instruction.Fits)
    (target : ι → Nat) (position : Nat) :
    seenFrom target position calls = visitsFrom target position calls ↔
      ∀ emission, emit emission ∈ calls → emission.instruction.InRange := by
  rw [seenFrom, visitsFrom, map_inj_left]
  constructor
  · intro h emission hemit
    obtain ⟨offset, hoff⟩ := exists_placed hemit position
    have hvisit := h _ hoff
    simp only [Visit.mk.injEq, true_and] at hvisit
    exact (Operand.seenAll_eq_iff (hfits emission hemit) _ _).1 hvisit
  · intro h entry hentry
    obtain ⟨emission, hemit, heq⟩ := exists_emission hentry
    have hvals := (Operand.seenAll_eq_iff (hfits emission hemit) target
      (entry.1 + bytecodeSize)).2 (h emission hemit)
    rw [heq] at hvals
    simp only [hvals]

variable [DecidableEq ι] {fill : Nat → ι → List UInt8} {target : ι → Nat} {bytes : List UInt8}

theorem walk_eq (hfill : ∀ position label, (fill position label).length = 4)
    (hfits : ∀ emission, emit emission ∈ calls → emission.instruction.Fits)
    (hasserts : ∀ emission, emit emission ∈ calls → emission.asserts = true)
    {fuel : Nat} (hfuel : (placed position calls).length < fuel)
    (hat : At bytes (render 4 fill position (allPieces calls)) position)
    (hlen : bytes.length = position + Fixups.size 4 (allPieces calls))
    (hres : ∀ label, ∀ q ∈ references 4 label position (allPieces calls),
      BytecodeIterator.Resolved fill target q label) :
    (BytecodeIterator.new bytes position bytes.length).walk fuel =
      some (seenFrom target position calls) := by
  induction calls generalizing position fuel with
  | nil =>
    obtain _ | fuel := fuel
    · cases hfuel
    · have hdone : bytes.length ≤ position := by
        rw [hlen]
        exact Nat.le_refl _
      simp [BytecodeIterator.walk, BytecodeIterator.new, BytecodeIterator.done, hdone,
        seenFrom, placed]
  | cons call calls ih =>
    have hfits' := fun emission h => hfits emission (mem_cons_of_mem _ h)
    have hasserts' := fun emission h => hasserts emission (mem_cons_of_mem _ h)
    cases call with
    | bind label => exact ih hfits' hasserts' hfuel hat hlen hres
    | emit emission =>
      obtain _ | fuel := fuel
      · cases hfuel
      · have hpieces : allPieces (emit emission :: calls) =
            emission.instruction.pieces ++ allPieces calls := rfl
        have hsize := emission.instruction.size_pieces
        rw [hpieces, render_append] at hat
        rw [hpieces, size_append, hsize] at hlen
        obtain ⟨hcur, hops, hadvance⟩ := BytecodeIterator.instruction_eq hfill
          (BytecodeIterator.new bytes position bytes.length) rfl
          (hfits emission mem_cons_self)
          (fun _ => Emission.params_lt (hasserts emission mem_cons_self)) hat.left
          (fun label q hq => hres label q (by
            rw [hpieces, references_append]
            exact mem_append_left _ hq))
        have hat' := hat.right
        rw [length_render hfill, hsize] at hat'
        have hrest := ih hfits' hasserts' (Nat.lt_of_succ_lt_succ hfuel) hat'
          (by rw [hlen, Nat.add_assoc]) (fun label q hq => hres label q (by
            rw [hpieces, references_append, hsize]
            exact mem_append_right _ hq))
        have hpend : position < bytes.length := by
          rw [hlen, Instruction.size, bytecodeSize]
          omega
        have hdone : (BytecodeIterator.new bytes position bytes.length).done = false :=
          decide_eq_false (Nat.not_le_of_lt hpend)
        rw [BytecodeIterator.walk, hdone, hcur]
        simp only [Option.bind_eq_bind, Option.bind_some, hops, hadvance]
        rw [BytecodeIterator.new] at hrest ⊢
        simp [hrest, seenFrom, placed]

/-- An instruction stands in the bytes where the calls place it, and its references are among
those of the calls. -/
theorem at_placed (hfill : ∀ position label, (fill position label).length = 4) {offset : Nat}
    (hat : At bytes (render 4 fill position (allPieces calls)) position)
    (h : (offset, instruction) ∈ placed position calls) :
    At bytes (render 4 fill offset instruction.pieces) offset ∧
      ∀ label, ∀ q ∈ references 4 label offset instruction.pieces,
        q ∈ references 4 label position (allPieces calls) := by
  induction calls generalizing position with
  | nil => cases h
  | cons call calls ih =>
    cases call with
    | bind label => exact ih hat h
    | emit emission =>
      have hpieces : allPieces (emit emission :: calls) =
          emission.instruction.pieces ++ allPieces calls := rfl
      rw [hpieces, render_append] at hat
      rw [placed, mem_cons] at h
      obtain h | h := h
      · cases h
        refine ⟨hat.left, fun label q hq => ?_⟩
        rw [hpieces, references_append]
        exact mem_append_left _ hq
      · have hat' := hat.right
        rw [length_render hfill, Instruction.size_pieces] at hat'
        obtain ⟨hplace, hrefs⟩ := ih hat' h
        refine ⟨hplace, fun label q hq => ?_⟩
        rw [hpieces, references_append, Instruction.size_pieces]
        exact mem_append_right _ (hrefs label q hq)

def targets (calls : List (EmitCall ι)) (label : ι) : Nat :=
  (boundAt label 0 calls).getD 0

omit [DecidableEq ι] in
theorem exists_jump (h : .reference label ∈ allPieces calls) :
    ∃ emission, emit emission ∈ calls ∧ .jump label ∈ emission.instruction.operands := by
  rw [allPieces, mem_flatMap] at h
  obtain ⟨call, hcall, hpiece⟩ := h
  cases call with
  | bind other => cases hpiece
  | emit emission =>
    rw [pieces, Instruction.pieces, mem_cons, mem_map] at hpiece
    obtain hpiece | ⟨operand, hop, hpiece⟩ := hpiece
    · cases hpiece
    · cases operand with
      | jump other =>
        cases hpiece
        exact ⟨emission, hcall, hop⟩
      | _ => cases hpiece

theorem Emitted.resolved {e : BytecodeEmitter ι} (h : Emitted calls e)
    (hbound : ∀ emission label, emit emission ∈ calls →
      .jump label ∈ emission.instruction.operands → (boundAt label 0 calls).isSome = true)
    {q : Nat} (hq : q ∈ references 4 label 0 (allPieces calls)) :
    BytecodeIterator.Resolved (BytecodeEmitter.fill e.labels) (targets calls) q label := by
  obtain ⟨emission, hemit, hjump⟩ := exists_jump (mem_of_mem_references hq)
  have hsome := hbound emission label hemit hjump
  have hbinding := h.bindings label
  cases hlabel : (e.labels label).bound with
  | false =>
    rw [hbinding, hlabel] at hsome
    cases hsome
  | true =>
    rw [if_pos hlabel] at hbinding
    have hnear := h.renders.near label hlabel q hq
    refine ⟨Int32.ofInt ((e.labels label).offset - q), ?_, ?_⟩
    · rw [fill, if_pos hlabel]
    · rw [targets, hbinding, Option.getD_some]
      simp only [maxDelta] at hnear
      apply Int32.toInt_ofInt_of_le <;> omega

end EmitCall

namespace Vm

open BytecodeIterator (read32_eq Resolved)

variable {fill : Nat → ι → List UInt8} {target : ι → Nat} {bytes : List UInt8}

theorem jumpFrom_eq {address : Nat} (hat : At bytes (fill address label) address)
    (hres : Resolved fill target address label) (taken : Bool) :
    jumpFrom bytes address taken = some (if taken then (target label : Int) else address + 4) := by
  obtain ⟨distance, hfield, hdis⟩ := hres
  rw [hfield] at hat
  have hread := read32_eq hat
  cases taken <;> simp [jumpFrom, hread, hdis]

variable [DecidableEq ι]

theorem interpretJump_eq
    (hjump : Bytecodes.isJump instruction.bytecode = true) (hfits : instruction.Fits)
    (hlabel : .jump label ∈ instruction.operands)
    (hat : At bytes (render 4 fill position instruction.pieces) position)
    (hres : ∀ label, ∀ q ∈ references 4 label position instruction.pieces,
      Resolved fill target q label)
    (frame : LocalVar → Bool) :
    interpretJump bytes frame position = some (if instruction.taken frame then
      (target label : Int) else position + instruction.size) := by
  obtain ⟨bytecode, operands⟩ := instruction
  have hopcode := read32_eq hat.left
  have hbc : bytecode = .jump ∨ bytecode = .jumpIfFalse ∨ bytecode = .jumpIfTrue := by
    simpa [isJump, or_assoc] using hjump
  obtain rfl | hconditional := hbc
  · have hfits : Operand.FitsAll [.jumpOffset] operands := hfits
    obtain _ | _ | ⟨first, rest⟩ := hfits
    cases first with
    | jump other =>
      cases rest
      obtain rfl : label = other := by simpa using hlabel
      have hfield : At bytes (fill (position + 4) label) (position + 4) := hat.right.left
      have hmem : position + 4 ∈ references 4 label position
          (Instruction.pieces ⟨.jump, [.jump label]⟩) := by
        show position + 4 ∈ references 4 label (position + 4) [.reference label]
        simp [references]
      have hlands := jumpFrom_eq hfield (hres label _ hmem) true
      simp [interpretJump, hopcode, fromByte_toByte, bytecodeSize, hlands, Instruction.taken]
  · have hfits : Operand.FitsAll [.local, .jumpOffset] operands := by
      obtain rfl | rfl := hconditional <;> exact hfits
    obtain _ | _ | ⟨first, rest⟩ := hfits
    obtain _ | _ | ⟨second, rest⟩ := rest
    cases first with
    | «local» cond =>
      cases second with
      | jump other =>
        cases rest
        obtain rfl : label = other := by simpa using hlabel
        have hcond : BytecodeIterator.read32 bytes (position + 4) = some cond.encode :=
          read32_eq hat.right.left
        have hfield : At bytes (fill (position + 8) label) (position + 8) :=
          hat.right.right.left
        have hmem : position + 8 ∈ references 4 label position
            (Instruction.pieces ⟨bytecode, [.local cond, .jump label]⟩) := by
          show position + 8 ∈ references 4 label (position + 8) [.reference label]
          simp [references]
        have hlands := jumpFrom_eq hfield (hres label _ hmem)
        obtain rfl | rfl := hconditional <;> simp [interpretJump, hopcode, hcond, fromByte_toByte,
            bytecodeSize, hlands, Instruction.taken, Instruction.size,
            Operand.size, decode, encode, add_assoc]

end Vm

namespace EmitCall

variable [DecidableEq ι]

section Placed

variable {calls : List (EmitCall ι)} {e : BytecodeEmitter ι} (hemitted : Emitted calls e)
  (hfits : ∀ emission, emit emission ∈ calls → emission.instruction.Fits)
  (hbound : ∀ emission label, emit emission ∈ calls →
    .jump label ∈ emission.instruction.operands → (boundAt label 0 calls).isSome = true)
  {offset : Nat} {instruction : Instruction ι} (hplaced : (offset, instruction) ∈ placed 0 calls)

theorem Emitted.at_zero {e : BytecodeEmitter ι} (h : Emitted calls e) :
    At e.bytecode (render 4 (BytecodeEmitter.fill e.labels) 0 (allPieces calls)) 0 :=
  ⟨[], [], by rw [h.renders.image]; simp, rfl⟩

include hemitted hfits hbound hplaced

theorem iterator_at_placed (endOffset : Nat) :
    (BytecodeIterator.new e.bytecode offset endOffset).currentBytecode = some instruction.bytecode ∧
      (BytecodeIterator.new e.bytecode offset endOffset).advance =
        some (BytecodeIterator.new e.bytecode (offset + instruction.size) endOffset) := by
  have hfill := length_fill e.labels
  obtain ⟨emission, hemit, hinstr⟩ := exists_emission hplaced
  dsimp only at hinstr
  subst hinstr
  obtain ⟨hat, hrefs⟩ := at_placed hfill hemitted.at_zero hplaced
  obtain ⟨hcur, -, hadvance⟩ := BytecodeIterator.instruction_eq hfill
    (BytecodeIterator.new e.bytecode offset endOffset) rfl (hfits emission hemit)
    (fun _ => Emission.params_lt (hemitted.asserted emission hemit)) hat
    fun other q hq => hemitted.resolved hbound (hrefs other q hq)
  exact ⟨hcur, hadvance⟩

theorem jump_at_placed (hlabel : .jump label ∈ instruction.operands) (frame : LocalVar → Bool) :
    Vm.interpretJump e.bytecode frame offset = some (if instruction.taken frame then
      (targets calls label : Int) else offset + instruction.size) := by
  have hfill := length_fill e.labels
  obtain ⟨emission, hemit, hinstr⟩ := exists_emission hplaced
  dsimp only at hinstr
  subst hinstr
  obtain ⟨hat, hrefs⟩ := at_placed hfill hemitted.at_zero hplaced
  exact Vm.interpretJump_eq (Emission.isJump_of_mem (hemitted.asserted emission hemit) hlabel)
    (hfits emission hemit) hlabel hat
    (fun other q hq => hemitted.resolved hbound (hrefs other q hq)) frame

end Placed

/-- The iterator walks over the emitted instructions and shows their operands, and the interpreter
goes from a jump to where its label is bound, or to the next instruction. -/
structure Consistent (calls : List (EmitCall ι)) (bytes : List UInt8) : Prop where
  walk : ∀ fuel, (placed 0 calls).length < fuel →
    (BytecodeIterator.new bytes 0 bytes.length).walk fuel =
      some (visitsFrom (targets calls) 0 calls)
  jumps : ∀ offset instruction label, (offset, instruction) ∈ placed 0 calls →
    .jump label ∈ instruction.operands → ∀ frame,
      Vm.interpretJump bytes frame offset = some (if instruction.taken frame then
        (targets calls label : Int) else offset + instruction.size)

/-- The bytes of any sequence of calls are consistent, except for unsigned operands with the
highest bit set where the table has a signed one. -/
theorem emitted_consistent_iff (calls : List (EmitCall ι)) (e : BytecodeEmitter ι)
    (hrun : runAll calls = some e)
    (hcallers : ∀ emission, emit emission ∈ calls → emission.checked = false →
      emission.instruction.Fits)
    (hbound : ∀ emission label, emit emission ∈ calls →
      .jump label ∈ emission.instruction.operands → (boundAt label 0 calls).isSome = true) :
    Consistent calls e.bytecode ↔
      ∀ emission, emit emission ∈ calls → emission.instruction.InRange := by
  have hemitted := emitted_of_runAll hrun
  have hfits : ∀ emission, emit emission ∈ calls → emission.instruction.Fits := by
    intro emission hemission
    cases hchecked : emission.checked with
    | true => exact Emission.fits_of_checked hchecked (hemitted.asserted emission hemission)
    | false => exact hcallers emission hemission hchecked
  have hfill := BytecodeEmitter.length_fill e.labels
  have hlength : e.bytecode.length = 0 + Fixups.size 4 (allPieces calls) := by
    rw [Nat.zero_add]
    exact hemitted.renders.position_eq
  have hwalk : ∀ fuel, (placed 0 calls).length < fuel →
      (BytecodeIterator.new e.bytecode 0 e.bytecode.length).walk fuel =
        some (seenFrom (targets calls) 0 calls) := fun fuel hfuel =>
    walk_eq hfill hfits hemitted.asserted hfuel hemitted.at_zero hlength
      fun label q hq => hemitted.resolved hbound hq
  rw [← seenFrom_eq_iff hfits (targets calls) 0]
  constructor
  · intro h
    have hvisits := h.walk _ (Nat.lt_succ_self _)
    rw [hwalk _ (Nat.lt_succ_self _)] at hvisits
    exact Option.some_inj.1 hvisits
  · intro h
    constructor
    · intro fuel hfuel
      rw [hwalk fuel hfuel, h]
    · intro offset instruction label hplaced hlabel frame
      exact jump_at_placed hemitted hfits hbound hplaced hlabel frame

/-- A loop with a jump out of it: one label is bound before its jump, the other behind it. -/
def loopCalls : List (EmitCall Bool) :=
  [bind true, emit (.conditionalJump .jumpIfFalse ⟨0⟩ false), emit (.assignImm1 ⟨1⟩ (-5)),
    emit (.jump .jump true), bind false, emit .return]

theorem loopCalls_consistent :
    ∃ e, runAll loopCalls = some e ∧ Consistent loopCalls e.bytecode := by
  obtain ⟨e, hrun⟩ := Option.isSome_iff_exists.1 (show (runAll loopCalls).isSome = true by decide)
  have hcalls : ∀ emission, emit emission ∈ loopCalls →
      emission = .conditionalJump .jumpIfFalse ⟨0⟩ false ∨ emission = .assignImm1 ⟨1⟩ (-5) ∨
        emission = .jump .jump true ∨ emission = .return := by
    intro emission h
    simpa [loopCalls] using h
  refine ⟨e, hrun, (emitted_consistent_iff loopCalls e hrun ?_ ?_).2 ?_⟩
  · intro emission h hcallers
    obtain rfl | rfl | rfl | rfl := hcalls emission h
    · exact .cons (.local _) (.cons (.jump _) .nil)
    · cases hcallers
    · exact .cons (.jump _) .nil
    · cases hcallers
  · intro emission label _ _
    cases label <;> rfl
  · intro emission h
    obtain rfl | rfl | rfl | rfl := hcalls emission h
    · exact forall_mem_cons.2 ⟨trivial, forall_mem_singleton.2 trivial⟩
    · exact forall_mem_cons.2 ⟨trivial, forall_mem_singleton.2 trivial⟩
    · exact forall_mem_singleton.2 trivial
    · exact forall_mem_nil _

/-- The offset of a `Lea` has its highest bit set, and comes back as a negative number. -/
def highOffset : List (EmitCall Bool) :=
  [emit (.lea ⟨0⟩ ⟨2⟩ 0x80000000)]

theorem highOffset_not_consistent :
    ∃ e, runAll highOffset = some e ∧ ¬ Consistent highOffset e.bytecode := by
  refine ⟨_, rfl, fun h => ?_⟩
  have hwalk := h.walk 2 (by decide)
  revert hwalk
  decide +kernel

end EmitCall

end Terrier.Tpl
