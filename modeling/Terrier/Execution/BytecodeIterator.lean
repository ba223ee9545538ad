import Terrier.Execution.BytecodeEmitter

/-!
`BytecodeIterator`: a position in a vector of bytes, and the operands there, found through the
table of operand types. Asking with the wrong type, or reading past the end of the vector, gives
nothing.
-/

namespace Terrier.Tpl

/-- An operand as it is read: immediates and function ids as integers, floating-point values by
their bits. -/
inductive OperandValue where
  | integer (value : Int)
  | float (bits : UInt32)
  | double (bits : UInt64)
  | jumpOffset (value : Int)
  | local (var : LocalVar)
  | locals (vars : List LocalVar)
deriving DecidableEq

structure BytecodeIterator where
  bytecodes : List UInt8
  endOffset : Nat
  currOffset : Nat

namespace BytecodeIterator

def new (bytecodes : List UInt8) (start endOffset : Nat) : BytecodeIterator :=
  { bytecodes, endOffset, currOffset := start }

def read8 (bytes : List UInt8) (address : Nat) : Option UInt8 :=
  (LittleEndian.read? bytes address 1).map UInt8.ofNat

def read16 (bytes : List UInt8) (address : Nat) : Option UInt16 :=
  (LittleEndian.read? bytes address 2).map UInt16.ofNat

def read32 (bytes : List UInt8) (address : Nat) : Option UInt32 :=
  (LittleEndian.read? bytes address 4).map UInt32.ofNat

def read64 (bytes : List UInt8) (address : Nat) : Option UInt64 :=
  (LittleEndian.read? bytes address 8).map UInt64.ofNat

variable (it : BytecodeIterator)

def currentBytecode : Option Bytecode := do
  Bytecodes.fromByte (← read32 it.bytecodes it.currOffset)

def done : Bool :=
  it.endOffset ≤ it.currOffset

def operandAddress (operandIndex : Nat) : Option (OperandType × Nat) := do
  let bytecode ← it.currentBytecode
  let operandType ← Bytecodes.getNthOperandType bytecode operandIndex
  return (operandType, it.currOffset + Bytecodes.getNthOperandOffset bytecode operandIndex)

def getImmediateOperand (operandIndex : Nat) : Option Int := do
  let (operandType, address) ← it.operandAddress operandIndex
  match operandType with
  | .imm1 => (read8 it.bytecodes address).map fun value => value.toInt8.toInt
  | .imm2 => (read16 it.bytecodes address).map fun value => value.toInt16.toInt
  | .imm4 => (read32 it.bytecodes address).map fun value => value.toInt32.toInt
  | .imm8 => (read64 it.bytecodes address).map fun value => value.toInt64.toInt
  | _ => none

def getFloatImmediateOperand (operandIndex : Nat) : Option OperandValue := do
  let (operandType, address) ← it.operandAddress operandIndex
  match operandType with
  | .imm4F => (read32 it.bytecodes address).map .float
  | .imm8F => (read64 it.bytecodes address).map .double
  | _ => none

def getUnsignedImmediateOperand (operandIndex : Nat) : Option Nat := do
  let (operandType, address) ← it.operandAddress operandIndex
  match operandType with
  | .uimm2 => (read16 it.bytecodes address).map fun value => value.toNat
  | .uimm4 => (read32 it.bytecodes address).map fun value => value.toNat
  | _ => none

def getJumpOffsetOperand (operandIndex : Nat) : Option Int := do
  let (operandType, address) ← it.operandAddress operandIndex
  match operandType with
  | .jumpOffset => (read32 it.bytecodes address).map fun value => value.toInt32.toInt
  | _ => none

def getLocalOperand (operandIndex : Nat) : Option LocalVar := do
  let (operandType, address) ← it.operandAddress operandIndex
  match operandType with
  | .local => (read32 it.bytecodes address).map LocalVar.decode
  | _ => none

def readLocals (bytes : List UInt8) : Nat → Nat → Option (List LocalVar)
  | 0, _ => some []
  | count + 1, address => do
      let first ← read32 bytes address
      let rest ← readLocals bytes count (address + OperandType.local.size)
      return LocalVar.decode first :: rest

def getLocalCountOperand (operandIndex : Nat) : Option (List LocalVar) := do
  let (operandType, address) ← it.operandAddress operandIndex
  match operandType with
  | .localCount =>
    let numLocals ← read16 it.bytecodes address
    readLocals it.bytecodes numLocals.toNat (address + OperandType.localCount.size)
  | _ => none

def getFunctionIdOperand (operandIndex : Nat) : Option FunctionId := do
  let (operandType, address) ← it.operandAddress operandIndex
  match operandType with
  | .functionId => read16 it.bytecodes address
  | _ => none

/-- The bytes an operand takes, the locals behind a count included. -/
def operandSize (operandIndex : Nat) : Option Nat := do
  let (operandType, _) ← it.operandAddress operandIndex
  match operandType with
  | .localCount =>
    let locals ← it.getLocalCountOperand operandIndex
    return operandType.size + locals.length * OperandType.local.size
  | _ => return operandType.size

def currentBytecodeSize : Option Nat := do
  let bytecode ← it.currentBytecode
  let sizes ← (List.range (Bytecodes.numOperands bytecode)).mapM it.operandSize
  return Bytecodes.bytecodeSize + sizes.sum

def advance : Option BytecodeIterator := do
  return { it with currOffset := it.currOffset + (← it.currentBytecodeSize) }

def getOperand (operandIndex : Nat) : Option OperandValue := do
  let (operandType, _) ← it.operandAddress operandIndex
  match operandType with
  | .imm1 | .imm2 | .imm4 | .imm8 => (it.getImmediateOperand operandIndex).map .integer
  | .imm4F | .imm8F => it.getFloatImmediateOperand operandIndex
  | .uimm2 | .uimm4 =>
    (it.getUnsignedImmediateOperand operandIndex).map fun value => .integer value
  | .jumpOffset => (it.getJumpOffsetOperand operandIndex).map .jumpOffset
  | .local => (it.getLocalOperand operandIndex).map .local
  | .localCount => (it.getLocalCountOperand operandIndex).map .locals
  | .functionId => (it.getFunctionIdOperand operandIndex).map fun value => .integer value.toNat

end BytecodeIterator

structure Visit where
  offset : Nat
  bytecode : Bytecode
  operands : List OperandValue
deriving DecidableEq

/-- `for (; !iter.Done(); iter.Advance())`, with all operands of every instruction. -/
def BytecodeIterator.walk : Nat → BytecodeIterator → Option (List Visit)
  | 0, _ => none
  | fuel + 1, it =>
    if it.done then
      some []
    else do
      let bytecode ← it.currentBytecode
      let operands ← (List.range (Bytecodes.numOperands bytecode)).mapM it.getOperand
      let rest ← walk fuel (← it.advance)
      return ⟨it.currOffset, bytecode, operands⟩ :: rest

end Terrier.Tpl
