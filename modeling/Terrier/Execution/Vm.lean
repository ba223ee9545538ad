import Mathlib.Logic.Relation
import Terrier.Execution.BytecodeIterator

/-!
The paths of `VM::Interpret` through the bytes of a module. When a jump is decided the instruction
pointer stands at the jump offset, so a jump that is taken counts from its operand. What handlers
do to the frame is left out.
-/

namespace Terrier.Tpl.Vm

open BytecodeIterator (read32)

/-- `ip += skip` for a jump that is taken, past the offset for one that is not. -/
def jumpFrom (bytes : List UInt8) (ip : Nat) (taken : Bool) : Option Int := do
  let skip ← read32 bytes ip
  return if taken then ip + skip.toInt32.toInt else ip + 4

/-- The instruction pointer after the jump instruction at `ip`, in a frame that holds these
Boolean locals. -/
def interpretJump (bytes : List UInt8) (frame : LocalVar → Bool) (ip : Nat) : Option Int := do
  let op ← Bytecodes.fromByte (← read32 bytes ip)
  let ip := ip + Bytecodes.bytecodeSize
  match op with
  | .jump => jumpFrom bytes ip true
  | .jumpIfTrue => jumpFrom bytes (ip + 4) (frame (.decode (← read32 bytes ip)))
  | .jumpIfFalse => jumpFrom bytes (ip + 4) (!frame (.decode (← read32 bytes ip)))
  | _ => none

def opcodeAt (bytes : List UInt8) (ip : Nat) : Option Bytecode :=
  (BytecodeIterator.new bytes ip bytes.length).currentBytecode

/-- One step of `Interpret` in a frame. A call comes back to the instruction behind it. -/
inductive Step (bytes : List UInt8) (frame : LocalVar → Bool) : Nat → Nat → Prop where
  | jump {ip next : Nat} (h : interpretJump bytes frame ip = some (next : Int)) :
      Step bytes frame ip next
  | next {ip : Nat} {op : Bytecode} {it : BytecodeIterator} (hop : opcodeAt bytes ip = some op)
      (hjump : Bytecodes.isJump op = false) (hreturn : op ≠ .return)
      (hadvance : (BytecodeIterator.new bytes ip bytes.length).advance = some it) :
      Step bytes frame ip it.currOffset

def Reaches (bytes : List UInt8) : Nat → Nat → Prop :=
  Relation.ReflTransGen fun ip next => ∃ frame, Step bytes frame ip next

end Terrier.Tpl.Vm
