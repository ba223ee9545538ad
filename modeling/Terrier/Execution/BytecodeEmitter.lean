import Mathlib.Logic.Function.Basic
import Terrier.Lib.Fixups
import Terrier.Lib.LittleEndian
import Terrier.Execution.Bytecodes

/-!
`BytecodeEmitter`: a bytecode and its operands, least significant byte first. A jump to a label
that is not bound yet leaves a placeholder, which `Bind` overwrites. An assertion that fails is
modelled as no result.
-/

namespace Terrier.Tpl

/-- A local of a frame: the addressing mode in the lowest bit, the offset above it. -/
structure LocalVar where
  bitfield : UInt32
deriving DecidableEq

def LocalVar.encode (var : LocalVar) : UInt32 :=
  var.bitfield

def LocalVar.decode (encodedVar : UInt32) : LocalVar :=
  ⟨encodedVar⟩

abbrev FunctionId := UInt16

/-- What is emitted after a bytecode: a value of an arithmetic type, a local, the arguments of a
call behind their count, or the distance to a label. Floats are given by their bits. -/
inductive Operand (ι : Type) where
  | int8 (value : Int8)
  | int16 (value : Int16)
  | int32 (value : Int32)
  | int64 (value : Int64)
  | uint16 (value : UInt16)
  | uint32 (value : UInt32)
  | uint64 (value : UInt64)
  | float (bits : UInt32)
  | double (bits : UInt64)
  | local (var : LocalVar)
  | locals (params : List LocalVar)
  | jump (label : ι)

structure Instruction (ι : Type) where
  bytecode : Bytecode
  operands : List (Operand ι)

namespace Operand

variable {ι : Type}

inductive Fits : OperandType → Operand ι → Prop where
  | int8 (value : Int8) : Fits .imm1 (.int8 value)
  | int16 (value : Int16) : Fits .imm2 (.int16 value)
  | int32 (value : Int32) : Fits .imm4 (.int32 value)
  | int64 (value : Int64) : Fits .imm8 (.int64 value)
  | float (bits : UInt32) : Fits .imm4F (.float bits)
  | double (bits : UInt64) : Fits .imm8F (.double bits)
  | uint16 (value : UInt16) : Fits .uimm2 (.uint16 value)
  | uint32 (value : UInt32) : Fits .uimm4 (.uint32 value)
  | functionId (id : FunctionId) : Fits .functionId (.uint16 id)
  | local (var : LocalVar) : Fits .local (.local var)
  | jump (label : ι) : Fits .jumpOffset (.jump label)
  /-- The scale and the offsets of `EmitLea` and `EmitLeaScaled`. -/
  | unsigned32 (value : UInt32) : Fits .imm4 (.uint32 value)
  /-- The length and the address of `EmitInitString`. -/
  | unsigned64 (value : UInt64) : Fits .imm8 (.uint64 value)

inductive FitsAll : List OperandType → List (Operand ι) → Prop where
  | nil : FitsAll [] []
  | locals (params : List LocalVar) : FitsAll [.localCount] [.locals params]
  | cons {type : OperandType} {operand : Operand ι} {types : List OperandType}
      {operands : List (Operand ι)} (first : Fits type operand) (rest : FitsAll types operands) :
      FitsAll (type :: types) (operand :: operands)

end Operand

def Instruction.Fits {ι : Type} (instruction : Instruction ι) : Prop :=
  Operand.FitsAll (Bytecodes.getOperandTypes instruction.bytecode) instruction.operands

inductive Emission (ι : Type) where
  | deref (bytecode : Bytecode) (dest src : LocalVar)
  | derefN (dest src : LocalVar) (len : UInt32)
  | assign (bytecode : Bytecode) (dest src : LocalVar)
  | assignImm1 (dest : LocalVar) (val : Int8)
  | assignImm2 (dest : LocalVar) (val : Int16)
  | assignImm4 (dest : LocalVar) (val : Int32)
  | assignImm4F (dest : LocalVar) (bits : UInt32)
  | assignImm8F (dest : LocalVar) (bits : UInt64)
  | assignImm8 (dest : LocalVar) (val : Int64)
  | jump (bytecode : Bytecode) (label : ι)
  | conditionalJump (bytecode : Bytecode) (cond : LocalVar) (label : ι)
  | lea (dest src : LocalVar) (offset : UInt32)
  | leaScaled (dest src index : LocalVar) (scale offset : UInt32)
  | call (funcId : FunctionId) (params : List LocalVar)
  | return
  | unaryOp (bytecode : Bytecode) (dest input : LocalVar)
  | binaryOp (bytecode : Bytecode) (dest lhs rhs : LocalVar)
  /-- The overloads of `Emit`, for one to eight locals. -/
  | emit (bytecode : Bytecode) (operands : List LocalVar)
  | threadStateContainerIterate (tls ctx : LocalVar) (iterateFn : FunctionId)
  | threadStateContainerReset (tls stateSize : LocalVar) (initFn destroyFn : FunctionId)
      (ctx : LocalVar)
  | tableIterInit (bytecode : Bytecode) (iter execCtx : LocalVar) (tableOid : UInt32)
      (colOids : LocalVar) (numOids : UInt32)
  | addCol (bytecode : Bytecode) (iter : LocalVar) (colOid : UInt32)
  | parallelTableScan (dbOid tableOid : UInt32) (ctx threadStates : LocalVar) (scanFn : FunctionId)
  | pciGet (bytecode : Bytecode) (out pci : LocalVar) (colIdx : UInt16)
  | pciVectorFilter (bytecode : Bytecode) (selected pci : LocalVar) (colIdx : UInt32)
      (type : Int8) (val : Int64)
  | filterManagerInsertFlavor (fmb : LocalVar) (func : FunctionId)
  | aggHashTableLookup (dest aggHt hash : LocalVar) (keyEqFn : FunctionId) (arg : LocalVar)
  | aggHashTableProcessBatch (aggHt iters : LocalVar)
      (hashFn keyEqFn initAggFn mergeAggFn : FunctionId)
  | aggHashTableMovePartitions (aggHt tls ahtOffset : LocalVar) (mergePartFn : FunctionId)
  | aggHashTableParallelPartitionedScan (aggHt context tls : LocalVar) (scanPartFn : FunctionId)
  | joinHashTableIterHasNext (hasMore iterator : LocalVar) (keyEq : FunctionId)
      (opaqueCtx probeTuple : LocalVar)
  | sorterInit (bytecode : Bytecode) (sorter region : LocalVar) (cmpFn : FunctionId)
      (tupleSize : LocalVar)
  | outputAlloc (bytecode : Bytecode) (execCtx dest : LocalVar)
  | outputCall (bytecode : Bytecode) (execCtx : LocalVar)
  | indexIteratorInit (bytecode : Bytecode) (iter execCtx : LocalVar)
      (numAttrs tableOid indexOid : UInt32) (colOids : LocalVar) (numOids : UInt32)
  | initString (bytecode : Bytecode) (out : LocalVar) (length data : UInt64)
  | prGet (bytecode : Bytecode) (out pr : LocalVar) (colIdx : UInt16)
  | prSet (bytecode : Bytecode) (pr : LocalVar) (colIdx : UInt16) (val : LocalVar)
  | prSetVarlen (bytecode : Bytecode) (pr : LocalVar) (colIdx : UInt16) (val own : LocalVar)
  | storageInterfaceInit (bytecode : Bytecode) (storageInterface execCtx : LocalVar)
      (tableOid : UInt32) (colOids : LocalVar) (numOids : UInt32) (needIndexes : LocalVar)
  | storageInterfaceGetIndexPR (bytecode : Bytecode) (pr storageInterface : LocalVar)
      (indexOid : UInt32)

namespace Emission

variable {ι : Type}

def instruction : Emission ι → Instruction ι
  | deref bytecode dest src => ⟨bytecode, [.local dest, .local src]⟩
  | derefN dest src len => ⟨.derefN, [.local dest, .local src, .uint32 len]⟩
  | assign bytecode dest src => ⟨bytecode, [.local dest, .local src]⟩
  | assignImm1 dest val => ⟨.assignImm1, [.local dest, .int8 val]⟩
  | assignImm2 dest val => ⟨.assignImm2, [.local dest, .int16 val]⟩
  | assignImm4 dest val => ⟨.assignImm4, [.local dest, .int32 val]⟩
  | assignImm4F dest bits => ⟨.assignImm4F, [.local dest, .float bits]⟩
  | assignImm8F dest bits => ⟨.assignImm8F, [.local dest, .double bits]⟩
  | assignImm8 dest val => ⟨.assignImm8, [.local dest, .int64 val]⟩
  | jump bytecode label => ⟨bytecode, [.jump label]⟩
  | conditionalJump bytecode cond label => ⟨bytecode, [.local cond, .jump label]⟩
  | lea dest src offset => ⟨.lea, [.local dest, .local src, .uint32 offset]⟩
  | leaScaled dest src index scale offset =>
    ⟨.leaScaled, [.local dest, .local src, .local index, .uint32 scale, .uint32 offset]⟩
  | call funcId params => ⟨.call, [.uint16 funcId, .locals params]⟩
  | .return => ⟨.return, []⟩
  | unaryOp bytecode dest input => ⟨bytecode, [.local dest, .local input]⟩
  | binaryOp bytecode dest lhs rhs => ⟨bytecode, [.local dest, .local lhs, .local rhs]⟩
  | emit bytecode operands => ⟨bytecode, operands.map .local⟩
  | threadStateContainerIterate tls ctx iterateFn =>
    ⟨.threadStateContainerIterate, [.local tls, .local ctx, .uint16 iterateFn]⟩
  | threadStateContainerReset tls stateSize initFn destroyFn ctx =>
    ⟨.threadStateContainerReset,
      [.local tls, .local stateSize, .uint16 initFn, .uint16 destroyFn, .local ctx]⟩
  | tableIterInit bytecode iter execCtx tableOid colOids numOids =>
    ⟨bytecode, [.local iter, .local execCtx, .uint32 tableOid, .local colOids, .uint32 numOids]⟩
  | addCol bytecode iter colOid => ⟨bytecode, [.local iter, .uint32 colOid]⟩
  | parallelTableScan dbOid tableOid ctx threadStates scanFn =>
    ⟨.parallelScanTable,
      [.uint32 dbOid, .uint32 tableOid, .local ctx, .local threadStates, .uint16 scanFn]⟩
  | pciGet bytecode out pci colIdx => ⟨bytecode, [.local out, .local pci, .uint16 colIdx]⟩
  | pciVectorFilter bytecode selected pci colIdx type val =>
    ⟨bytecode, [.local selected, .local pci, .uint32 colIdx, .int8 type, .int64 val]⟩
  | filterManagerInsertFlavor fmb func =>
    ⟨.filterManagerInsertFlavor, [.local fmb, .uint16 func]⟩
  | aggHashTableLookup dest aggHt hash keyEqFn arg =>
    ⟨.aggregationHashTableLookup,
      [.local dest, .local aggHt, .local hash, .uint16 keyEqFn, .local arg]⟩
  | aggHashTableProcessBatch aggHt iters hashFn keyEqFn initAggFn mergeAggFn =>
    ⟨.aggregationHashTableProcessBatch,
      [.local aggHt, .local iters, .uint16 hashFn, .uint16 keyEqFn, .uint16 initAggFn,
        .uint16 mergeAggFn]⟩
  | aggHashTableMovePartitions aggHt tls ahtOffset mergePartFn =>
    ⟨.aggregationHashTableTransferPartitions,
      [.local aggHt, .local tls, .local ahtOffset, .uint16 mergePartFn]⟩
  | aggHashTableParallelPartitionedScan aggHt context tls scanPartFn =>
    ⟨.aggregationHashTableParallelPartitionedScan,
      [.local aggHt, .local context, .local tls, .uint16 scanPartFn]⟩
  | joinHashTableIterHasNext hasMore iterator keyEq opaqueCtx probeTuple =>
    ⟨.joinHashTableIterHasNext,
      [.local hasMore, .local iterator, .uint16 keyEq, .local opaqueCtx, .local probeTuple]⟩
  | sorterInit bytecode sorter region cmpFn tupleSize =>
    ⟨bytecode, [.local sorter, .local region, .uint16 cmpFn, .local tupleSize]⟩
  | outputAlloc bytecode execCtx dest => ⟨bytecode, [.local execCtx, .local dest]⟩
  | outputCall bytecode execCtx => ⟨bytecode, [.local execCtx]⟩
  | indexIteratorInit bytecode iter execCtx numAttrs tableOid indexOid colOids numOids =>
    ⟨bytecode, [.local iter, .local execCtx, .uint32 numAttrs, .uint32 tableOid, .uint32 indexOid,
        .local colOids, .uint32 numOids]⟩
  | initString bytecode out length data =>
    ⟨bytecode, [.local out, .uint64 length, .uint64 data]⟩
  | prGet bytecode out pr colIdx => ⟨bytecode, [.local out, .local pr, .uint16 colIdx]⟩
  | prSet bytecode pr colIdx val => ⟨bytecode, [.local pr, .uint16 colIdx, .local val]⟩
  | prSetVarlen bytecode pr colIdx val own =>
    ⟨bytecode, [.local pr, .uint16 colIdx, .local val, .local own]⟩
  | storageInterfaceInit bytecode storageInterface execCtx tableOid colOids numOids needIndexes =>
    ⟨bytecode, [.local storageInterface, .local execCtx, .uint32 tableOid, .local colOids,
        .uint32 numOids, .local needIndexes]⟩
  | storageInterfaceGetIndexPR bytecode pr storageInterface indexOid =>
    ⟨bytecode, [.local pr, .local storageInterface, .uint32 indexOid]⟩

/-- The assertions on the arguments of a method. Most methods have none. -/
def asserts : Emission ι → Bool
  | deref bytecode _ _ => bytecode ∈ [.deref1, .deref2, .deref4, .deref8]
  | assign bytecode _ _ => bytecode ∈ [.assign1, .assign2, .assign4, .assign8]
  | jump bytecode _ => Bytecodes.isJump bytecode
  | conditionalJump bytecode _ _ => Bytecodes.isJump bytecode
  | call _ params => params.length < 65535
  | emit bytecode operands => Bytecodes.getOperandTypes bytecode = operands.map fun _ => .local
  | _ => true

end Emission

structure BytecodeLabel where
  offset : Nat
  referrerOffsets : List Nat
  bound : Bool

namespace BytecodeLabel

def kInvalidOffset : Nat := 2 ^ 64 - 1

def new : BytecodeLabel :=
  { offset := kInvalidOffset, referrerOffsets := [], bound := false }

def setReferrer (label : BytecodeLabel) (offset : Nat) : BytecodeLabel :=
  { label with referrerOffsets := label.referrerOffsets ++ [offset] }

def bindTo (label : BytecodeLabel) (offset : Nat) : BytecodeLabel :=
  { label with offset, bound := true }

end BytecodeLabel

structure BytecodeEmitter (ι : Type) where
  bytecode : List UInt8
  labels : ι → BytecodeLabel

namespace BytecodeEmitter

variable {ι : Type} [DecidableEq ι]

def new : BytecodeEmitter ι :=
  { bytecode := [], labels := fun _ => .new }

def position (e : BytecodeEmitter ι) : Nat :=
  e.bytecode.length

/-- `std::numeric_limits<int32_t>::max()`: jump distances are below it. -/
def maxDelta : Nat := 2 ^ 31 - 1

def kJumpPlaceholder : Int32 := Int32.ofNat (maxDelta - 1)

def scalar (width value : Nat) : List UInt8 :=
  LittleEndian.encode width value

def emitScalarValue (width value : Nat) (e : BytecodeEmitter ι) : BytecodeEmitter ι :=
  { e with bytecode := e.bytecode ++ scalar width value }

def setLabel (label : ι) (state : BytecodeLabel) (e : BytecodeEmitter ι) : BytecodeEmitter ι :=
  { e with labels := Function.update e.labels label state }

/-- `EmitJump(label)`: the distance to a label that is bound, a placeholder otherwise. -/
def emitJump (label : ι) (e : BytecodeEmitter ι) : Option (BytecodeEmitter ι) :=
  let currOffset := e.position
  let state := e.labels label
  if state.bound then
    let delta := currOffset - state.offset
    if state.offset ≤ currOffset ∧ delta < maxDelta then
      some (e.emitScalarValue 4 (-Int32.ofNat delta).toUInt32.toNat)
    else
      none
  else
    some ((e.setLabel label (state.setReferrer currOffset)).emitScalarValue 4
      kJumpPlaceholder.toUInt32.toNat)

def emitImpl (e : BytecodeEmitter ι) : Operand ι → Option (BytecodeEmitter ι)
  | .int8 value => some (e.emitScalarValue 1 value.toUInt8.toNat)
  | .int16 value => some (e.emitScalarValue 2 value.toUInt16.toNat)
  | .int32 value => some (e.emitScalarValue 4 value.toUInt32.toNat)
  | .int64 value => some (e.emitScalarValue 8 value.toUInt64.toNat)
  | .uint16 value => some (e.emitScalarValue 2 value.toNat)
  | .uint32 value => some (e.emitScalarValue 4 value.toNat)
  | .uint64 value => some (e.emitScalarValue 8 value.toNat)
  | .float bits => some (e.emitScalarValue 4 bits.toNat)
  | .double bits => some (e.emitScalarValue 8 bits.toNat)
  | .local var => some (e.emitScalarValue 4 var.encode.toNat)
  | .locals params =>
    some (params.foldl (fun e param => e.emitScalarValue 4 param.encode.toNat)
      (e.emitScalarValue 2 (UInt16.ofNat params.length).toNat))
  | .jump label => e.emitJump label

/-- `EmitAll`, with the jump or the arguments that the method emits behind it. -/
def emitAll (e : BytecodeEmitter ι) (instruction : Instruction ι) : Option (BytecodeEmitter ι) :=
  instruction.operands.foldlM emitImpl
    (e.emitScalarValue Bytecodes.bytecodeSize (Bytecodes.toByte instruction.bytecode).toNat)

/-- `Bind`: every operand that waits for the label gets its distance to the current position. -/
def bind (label : ι) (e : BytecodeEmitter ι) : Option (BytecodeEmitter ι) :=
  let currOffset := e.position
  let state := e.labels label
  if state.bound then
    none
  else if (∀ jumpLocation ∈ state.referrerOffsets, currOffset - jumpLocation < maxDelta) ∧
      currOffset ≠ BytecodeLabel.kInvalidOffset then
    some
      { bytecode := state.referrerOffsets.foldl (fun code jumpLocation =>
          Fixups.overwrite code jumpLocation
            (scalar 4 (Int32.ofNat (currOffset - jumpLocation)).toUInt32.toNat)) e.bytecode
        labels := Function.update e.labels label (state.bindTo currOffset) }
  else
    none

end BytecodeEmitter

inductive EmitCall (ι : Type) where
  | emit (emission : Emission ι)
  | bind (label : ι)

namespace EmitCall

variable {ι : Type} [DecidableEq ι]

def run (e : BytecodeEmitter ι) : EmitCall ι → Option (BytecodeEmitter ι)
  | emit emission => if emission.asserts then e.emitAll emission.instruction else none
  | bind label => e.bind label

def runAll (calls : List (EmitCall ι)) : Option (BytecodeEmitter ι) :=
  calls.foldlM run .new

end EmitCall

end Terrier.Tpl
