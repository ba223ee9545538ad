import Terrier.Network.PacketWriter

/-!
Predicates over a row and their meaning in SQL, where a comparison with NULL is
neither true nor false.
-/

namespace Terrier.Sql

open Network (Value ValueKind)

inductive CompareOp
  | equal | notEqual | less | lessEqual | greater | greaterEqual
  deriving DecidableEq, Repr

inductive Operand
  | column (index : Nat)
  | constant (value : Value)
  deriving DecidableEq

inductive Predicate
  | compare (op : CompareOp) (left right : Operand)
  | isNull (operand : Operand)
  | isNotNull (operand : Operand)
  | and (left right : Predicate)
  | or (left right : Predicate)
  | not (child : Predicate)
  deriving DecidableEq

abbrev Row := Nat → Option Value

def Operand.value (row : Row) : Operand → Option Value
  | .column index => row index
  | .constant value => some value

def and3 : Option Bool → Option Bool → Option Bool
  | some false, _ | _, some false => some false
  | some true, some true => some true
  | _, _ => none

def or3 : Option Bool → Option Bool → Option Bool
  | some true, _ | _, some true => some true
  | some false, some false => some false
  | _, _ => none

def compare3 (holds : CompareOp → Value → Value → Bool) (op : CompareOp) :
    Option Value → Option Value → Option Bool
  | some left, some right => some (holds op left right)
  | _, _ => none

/-- The truth value of a predicate; `holds` compares values that are not NULL. -/
def Predicate.value (holds : CompareOp → Value → Value → Bool) (row : Row) : Predicate → Option Bool
  | .compare op left right => compare3 holds op (left.value row) (right.value row)
  | .isNull operand => some (operand.value row).isNone
  | .isNotNull operand => some (operand.value row).isSome
  | .and left right => and3 (left.value holds row) (right.value holds row)
  | .or left right => or3 (left.value holds row) (right.value holds row)
  | .not child => (child.value holds row).map (!·)

end Terrier.Sql
