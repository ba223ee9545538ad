import Mathlib.Data.List.Basic
import Mathlib.Tactic

/-!
The string functions of the execution engine. A function has no result where the source runs
into undefined behaviour or a failed assertion, or where `fuel` does not suffice for its loops.
-/

namespace Terrier.Sql

/-- The bytes of a `StringVal` that is not NULL; `len_` has 32 bits. -/
structure Text where
  bytes : List UInt8
  fits : bytes.length < 2 ^ 32

inductive StringResult where
  | null
  | string (bytes : List UInt8)
  | allocationFailed
  deriving DecidableEq, Repr

namespace StringFunctions

/-- `static_cast<uint32_t>`. -/
def uint32 (value : Int) : Nat := (value % 2 ^ 32).toNat

/-- The `StringVal` over `len` bytes from `first` on; it must not reach out of the string. -/
def view (s : Text) (first : Int) (len : Nat) : Option StringResult :=
  if len = 0 then some (.string [])
  else if 0 ≤ first ∧ first + len ≤ s.bytes.length then
    some (.string ((s.bytes.drop first.toNat).take len))
  else none

/-- A view that starts where the wanted bytes do is right exactly if it is as long as they
are. -/
theorem view_eq_iff (s : Text) (first len count : Nat) :
    view s first len = some (.string ((s.bytes.drop first).take count)) ↔
      len = min count (s.bytes.length - first) := by
  unfold view
  split_ifs with hlen hin
  · rw [hlen, Option.some_inj, StringResult.string.injEq, eq_comm, ← List.length_eq_zero_iff,
      List.length_take, List.length_drop, eq_comm]
  · rw [Int.toNat_natCast, Option.some_inj, StringResult.string.injEq, List.take_eq_take_iff,
      List.length_drop]
    omega
  · simp only [false_iff]
    omega

/-- The sum of two `int64_t`. -/
def add64 (a b : Int) : Option Int :=
  if -2 ^ 63 ≤ a + b ∧ a + b < 2 ^ 63 then some (a + b) else none

def substring : Option Text → Option Int64 → Option Int64 → Option StringResult
  | some str, some pos, some len => do
    let start := max pos.toInt 1
    let stop ← add64 pos.toInt (min str.bytes.length len.toInt)
    if stop < pos.toInt then some .null
    else if stop < 1 then some (.string [])
    else view str (start - 1) (uint32 (stop - start))
  | _, _, _ => some .null

def left : Option Text → Option Int64 → Option StringResult
  | some str, some n =>
    let len : Int := if n.toInt < 0 then max 0 (str.bytes.length + n.toInt)
      else min str.bytes.length (uint32 n.toInt)
    view str 0 (uint32 len)
  | _, _ => some .null

/-- `StringFunctions::Right`.  `std::abs` is undefined for the least value. -/
def right : Option Text → Option Int64 → Option StringResult
  | some str, some n =>
    let len := min str.bytes.length (uint32 n.toInt.natAbs)
    if n.toInt = -2 ^ 63 then none
    else if n.toInt > 0 then view str (str.bytes.length - len) len
    else view str len (str.bytes.length - len)
  | _, _ => some .null

/-- The index `DoTrim` makes of a `char`, which `BitVectorBase` asserts to be less than 256. -/
def bitIndex (c : UInt8) : Option Nat :=
  let idx := uint32 c.toInt8.toInt
  if idx < 256 then some idx else none

/-- `BitVectorBase::Set` for every byte of `chars`, on the indices set so far. -/
def setAll (bitset : List Nat) : List UInt8 → Option (List Nat)
  | [] => some bitset
  | c :: chars => do setAll ((← bitIndex c) :: bitset) chars

/-- How many bytes a loop of `DoTrim` passes over. -/
def passOver (bitset : List Nat) : List UInt8 → Option Nat
  | [] => some 0
  | c :: src => do
    if (← bitIndex c) ∈ bitset then return (← passOver bitset src) + 1
    return 0

def trimLoop (side : Bool) (bitset : List Nat) (src : List UInt8) : Option Nat :=
  if side then passOver bitset src else some 0

/-- `static_cast<int32_t>`. -/
def int32 (value : Nat) : Int := (value : Int).bmod (2 ^ 32)

def doTrim (trimLeft trimRight : Bool) : Option Text → Option Text → Option StringResult
  | some str, some chars => do
    if str.bytes = [] then return .string []
    let bitset ← setAll [] chars.bytes
    let begin ← trimLoop trimLeft bitset (str.bytes.take (int32 str.bytes.length).toNat)
    let last := int32 (str.bytes.length - 1)
    let behind ← trimLoop trimRight bitset ((str.bytes.take (last + 1).toNat).drop begin).reverse
    view str begin (uint32 (last - behind - begin + 1))
  | _, _ => some .null

/-- `StringVal::PreAllocate` fails for a string longer than `K_MAX_STING_LEN`. -/
def maxStringLen : Nat := 2 ^ 30

/-- The padding loop of `Lpad` and `Rpad`, with `bytesLeft` to go. -/
def padding (pad : List UInt8) : Nat → Nat → Option (List UInt8)
  | 0, _ => none
  | fuel + 1, bytesLeft =>
    if bytesLeft = 0 then some []
    else
      let copyLen := min pad.length bytesLeft
      (padding pad fuel (bytesLeft - copyLen)).map (pad.take copyLen ++ ·)

/-- The string in a buffer of `size` bytes, when exactly they have been written. -/
def filled (size : Nat) (bytes : List UInt8) : Option StringResult :=
  if bytes.length = size then some (.string bytes) else none

/-- `Lpad` and `Rpad` up to where the padding goes, which `join` says. -/
def padWith (join : List UInt8 → List UInt8 → List UInt8) (fuel : Nat) :
    Option Text → Option Int64 → Option Text → Option StringResult
  | some str, some len, some pad =>
    let size := uint32 len.toInt
    if len.toInt < 0 then some .null
    else if len.toInt = str.bytes.length then some (.string str.bytes)
    else if len.toInt < str.bytes.length then view str 0 size
    else if maxStringLen < size then some .allocationFailed
    else do
      let pads ← padding pad.bytes fuel (uint32 (len.toInt - str.bytes.length))
      filled size (join pads str.bytes)
  | _, _, _ => some .null

def lpad : Nat → Option Text → Option Int64 → Option Text → Option StringResult :=
  padWith fun pads str => pads ++ str

def rpad : Nat → Option Text → Option Int64 → Option Text → Option StringResult :=
  padWith fun pads str => str ++ pads

/-- The loop of `Repeat`, whose counter has 32 bits. -/
def copies (src : List UInt8) (n : Int) : Nat → Nat → Option (List UInt8)
  | 0, _ => none
  | fuel + 1, i =>
    if i < n then (copies src n fuel ((i + 1) % 2 ^ 32)).map (src ++ ·) else some []

def repeat' (fuel : Nat) : Option Text → Option Int64 → Option StringResult
  | some str, some n =>
    let total := str.bytes.length * n.toInt
    if str.bytes.length = 0 ∨ n.toInt ≤ 0 then some (.string [])
    else if 2 ^ 63 ≤ total then none
    else if maxStringLen < uint32 total then some .allocationFailed
    else do filled (uint32 total) (← copies str.bytes n.toInt fuel 0)
  | _, _ => some .null

end StringFunctions

end Terrier.Sql
