import Terrier.Execution.BytecodeEmitter

/-!
What a sequence of emitter calls leaves in the byte vector: the instructions one behind the
other, with the distance to its label in every jump offset whose label is bound, and the
placeholder in the others.
-/

namespace Terrier.Tpl

open LittleEndian Fixups BytecodeLabel

open Fixups (Piece render references)
open List Option Function

variable {ι : Type}

namespace Operand

/-- Bytes an operand takes. -/
def size : Operand ι → Nat
  | int8 _ => 1
  | int16 _ | uint16 _ => 2
  | int32 _ | uint32 _ | float _ | .local _ | jump _ => 4
  | int64 _ | uint64 _ | double _ => 8
  | locals params => 2 + 4 * params.length

/-- The operands that do not depend on a label. -/
def image : Operand ι → List UInt8
  | int8 value => BytecodeEmitter.scalar 1 value.toUInt8.toNat
  | int16 value => BytecodeEmitter.scalar 2 value.toUInt16.toNat
  | int32 value => BytecodeEmitter.scalar 4 value.toUInt32.toNat
  | int64 value => BytecodeEmitter.scalar 8 value.toUInt64.toNat
  | uint16 value => BytecodeEmitter.scalar 2 value.toNat
  | uint32 value => BytecodeEmitter.scalar 4 value.toNat
  | uint64 value => BytecodeEmitter.scalar 8 value.toNat
  | float bits => BytecodeEmitter.scalar 4 bits.toNat
  | double bits => BytecodeEmitter.scalar 8 bits.toNat
  | .local var => BytecodeEmitter.scalar 4 var.encode.toNat
  | locals params =>
    BytecodeEmitter.scalar 2 (UInt16.ofNat params.length).toNat ++
      params.flatMap fun param => BytecodeEmitter.scalar 4 param.encode.toNat
  | jump _ => []

def piece : Operand ι → Piece ι
  | jump label => .reference label
  | operand => .bytes operand.image

theorem length_params (params : List LocalVar) :
    (params.flatMap fun param => BytecodeEmitter.scalar 4 param.encode.toNat).length =
      4 * params.length := by
  induction params with
  | nil => rfl
  | cons param params ih =>
    rw [flatMap_cons, length_append, ih, length_cons, BytecodeEmitter.scalar, length_encode]
    omega

theorem size_piece (operand : Operand ι) : operand.piece.size 4 = operand.size := by
  cases operand with
  | locals params =>
    show (image (locals params : Operand ι)).length = 2 + 4 * params.length
    rw [image, length_append, length_params, BytecodeEmitter.scalar, length_encode]
  | jump label => rfl
  | _ => exact length_encode _ _

end Operand

namespace Instruction

def size (instruction : Instruction ι) : Nat :=
  Bytecodes.bytecodeSize + (instruction.operands.map Operand.size).sum

def pieces (instruction : Instruction ι) : List (Piece ι) :=
  .bytes (BytecodeEmitter.scalar Bytecodes.bytecodeSize
    (Bytecodes.toByte instruction.bytecode).toNat) :: instruction.operands.map Operand.piece

theorem size_operands (operands : List (Operand ι)) :
    Fixups.size 4 (operands.map Operand.piece) = (operands.map Operand.size).sum := by
  induction operands with
  | nil => rfl
  | cons operand operands ih =>
    rw [map_cons, Fixups.size, ih, Operand.size_piece, map_cons, sum_cons]

theorem size_pieces (instruction : Instruction ι) :
    Fixups.size 4 instruction.pieces = instruction.size := by
  rw [pieces, Fixups.size, size_operands, size, Piece.size, BytecodeEmitter.scalar,
    LittleEndian.length_encode]

end Instruction

namespace EmitCall

def placed : Nat → List (EmitCall ι) → List (Nat × Instruction ι)
  | _, [] => []
  | position, bind _ :: calls => placed position calls
  | position, emit emission :: calls =>
    (position, emission.instruction) :: placed (position + emission.instruction.size) calls

def size : EmitCall ι → Nat
  | bind _ => 0
  | emit emission => emission.instruction.size

def pieces : EmitCall ι → List (Piece ι)
  | bind _ => []
  | emit emission => emission.instruction.pieces

def allPieces (calls : List (EmitCall ι)) : List (Piece ι) :=
  calls.flatMap pieces

theorem size_allPieces (calls : List (EmitCall ι)) :
    Fixups.size 4 (allPieces calls) = (calls.map size).sum := by
  induction calls with
  | nil => rfl
  | cons call calls ih =>
    have hcall : Fixups.size 4 call.pieces = call.size := by
      cases call with
      | bind label => rfl
      | emit emission => exact Instruction.size_pieces _
    rw [allPieces, flatMap_cons, Fixups.size_append, hcall, map_cons, sum_cons]
    exact congrArg _ ih

variable [DecidableEq ι]

def boundAt (label : ι) : Nat → List (EmitCall ι) → Option Nat
  | _, [] => none
  | position, emit emission :: calls =>
    boundAt label (position + emission.instruction.size) calls
  | position, bind other :: calls =>
    if other = label then some position else boundAt label position calls

theorem boundAt_append (label : ι) (position : Nat) (calls rest : List (EmitCall ι)) :
    boundAt label position (calls ++ rest) = (boundAt label position calls).or
        (boundAt label (position + (calls.map size).sum) rest) := by
  induction calls generalizing position with
  | nil => rfl
  | cons call calls ih =>
    cases call with
    | emit emission =>
      rw [cons_append, boundAt, ih, boundAt, map_cons, sum_cons, size, Nat.add_assoc]
    | bind other =>
      rw [cons_append, boundAt, boundAt, ih, map_cons, sum_cons, size, Nat.zero_add]
      split <;> rfl

end EmitCall

variable {e : BytecodeEmitter ι}

namespace BytecodeEmitter

def fill (labels : ι → BytecodeLabel) (position : Nat) (label : ι) : List UInt8 :=
  if (labels label).bound then
    scalar 4 (Int32.ofInt ((labels label).offset - position)).toUInt32.toNat
  else
    scalar 4 kJumpPlaceholder.toUInt32.toNat

theorem length_fill (labels : ι → BytecodeLabel) (position : Nat) (label : ι) :
    (fill labels position label).length = 4 := by
  unfold fill
  split <;> exact length_encode _ _

def SameBindings (e e' : BytecodeEmitter ι) : Prop :=
  ∀ label, (e'.labels label).bound = (e.labels label).bound ∧
    (e'.labels label).offset = (e.labels label).offset

theorem SameBindings.trans {e₁ e₂ e₃ : BytecodeEmitter ι} (h : SameBindings e₁ e₂)
    (h' : SameBindings e₂ e₃) : SameBindings e₁ e₃ := by
  intro label
  exact ⟨(h' label).1.trans (h label).1, (h' label).2.trans (h label).2⟩

theorem foldl_emitScalarValue (params : List LocalVar) (e : BytecodeEmitter ι) :
    params.foldl (fun e param => e.emitScalarValue 4 param.encode.toNat) e =
      { e with bytecode :=
          e.bytecode ++ params.flatMap fun param => scalar 4 param.encode.toNat } := by
  induction params generalizing e with
  | nil => simp
  | cons param params ih =>
    rw [foldl_cons, ih, flatMap_cons, emitScalarValue, append_assoc]

variable [DecidableEq ι]

/-- The bytes are those of the pieces. A label that is not bound knows its references; one that
is bound is near enough to all of them. -/
structure Renders (pieces : List (Piece ι)) (e : BytecodeEmitter ι) : Prop where
  image : e.bytecode = render 4 (fill e.labels) 0 pieces
  waiting : ∀ label, (e.labels label).bound = false →
    (e.labels label).referrerOffsets = references 4 label 0 pieces
  near : ∀ label, (e.labels label).bound = true → ∀ q ∈ references 4 label 0 pieces,
    (e.labels label).offset < q + maxDelta ∧ q < (e.labels label).offset + maxDelta

theorem renders_new : Renders [] (new : BytecodeEmitter ι) where
  image := rfl
  waiting _ _ := rfl
  near _ h := by cases h

namespace Renders

variable {pieces : List (Piece ι)} {e e' : BytecodeEmitter ι}

theorem position_eq (h : Renders pieces e) : e.position = Fixups.size 4 pieces := by
  rw [position, h.image, length_render (length_fill e.labels)]

theorem append (h : Renders pieces e) (bytes : List UInt8) :
    Renders (pieces ++ [.bytes bytes]) { e with bytecode := e.bytecode ++ bytes } := by
  have hrefs (label : ι) :
      references 4 label 0 (pieces ++ [.bytes bytes]) = references 4 label 0 pieces := by
    rw [references_append, references, references, append_nil]
  constructor
  · rw [render_append, ← h.image]
    simp [render, field]
  · intro label hbound
    rw [hrefs]
    exact h.waiting label hbound
  · intro label hbound
    rw [hrefs]
    exact h.near label hbound

theorem emitJump {label : ι} (h : Renders pieces e) (hemit : e.emitJump label = some e') :
    Renders (pieces ++ [.reference label]) e' := by
  have hpos := h.position_eq
  have hrefs (other : ι) : references 4 other 0 (pieces ++ [.reference label]) =
        references 4 other 0 pieces ++ if label = other then [e.position] else [] := by
    rw [references_append, Nat.zero_add, ← hpos]
    simp [references]
  have himage (labels : ι → BytecodeLabel) :
      render 4 (fill labels) 0 (pieces ++ [.reference label]) =
        render 4 (fill labels) 0 pieces ++ fill labels e.position label := by
    rw [render_append, Nat.zero_add, ← hpos]
    simp [render, field]
  unfold BytecodeEmitter.emitJump at hemit
  dsimp only at hemit
  split at hemit
  case isTrue hbound =>
    split at hemit
    case isTrue hdelta =>
      cases hemit
      constructor
      · have hdis : -Int32.ofNat (e.position - (e.labels label).offset) =
            Int32.ofInt ((e.labels label).offset - e.position) := by
          rw [Int32.neg_ofNat]
          congr 1
          omega
        rw [emitScalarValue, himage, ← h.image, fill, if_pos hbound, hdis]
      · intro other hother
        rw [hrefs]
        by_cases hsame : label = other
        · subst hsame
          exact absurd hbound (Bool.not_eq_true _ ▸ hother)
        · rw [if_neg hsame, append_nil]
          exact h.waiting other hother
      · intro other hother q hq
        rw [hrefs, mem_append] at hq
        obtain hq | hq := hq
        · exact h.near other hother q hq
        · split at hq
          case isTrue hsame =>
            subst hsame
            rw [mem_singleton] at hq
            dsimp only [emitScalarValue]
            have : 0 < maxDelta := by decide
            omega
          case isFalse => cases hq
    case isFalse => cases hemit
  case isFalse hbound =>
    cases hemit
    rw [Bool.not_eq_true] at hbound
    have hlabels (other : ι) :
        (Function.update e.labels label ((e.labels label).setReferrer e.position) other).bound =
          (e.labels other).bound ∧
        (Function.update e.labels label ((e.labels label).setReferrer e.position) other).offset =
          (e.labels other).offset := by
      by_cases hsame : other = label
      · subst hsame
        simp [setReferrer]
      · simp [update_of_ne hsame]
    have hfill : fill (Function.update e.labels label
        ((e.labels label).setReferrer e.position)) = fill e.labels := by
      funext q other
      rw [fill, fill, (hlabels other).1, (hlabels other).2]
    constructor
    · dsimp only [emitScalarValue, setLabel]
      rw [himage, hfill, ← h.image, fill, hbound]
      rfl
    · intro other hother
      dsimp only [emitScalarValue, setLabel] at hother ⊢
      rw [(hlabels other).1] at hother
      rw [hrefs]
      by_cases hsame : other = label
      · subst hsame
        simp [setReferrer, h.waiting other hother]
      · rw [update_of_ne hsame, if_neg (Ne.symm hsame), append_nil]
        exact h.waiting other hother
    · intro other hother q hq
      dsimp only [emitScalarValue, setLabel] at hother ⊢
      rw [(hlabels other).1] at hother
      rw [(hlabels other).2]
      rw [hrefs, mem_append] at hq
      obtain hq | hq := hq
      · exact h.near other hother q hq
      · split at hq
        case isTrue hsame =>
          subst hsame
          rw [hbound] at hother
          cases hother
        case isFalse => cases hq

end Renders

theorem sameBindings_emitJump {label : ι} {e' : BytecodeEmitter ι}
    (hemit : e.emitJump label = some e') : SameBindings e e' := by
  intro other
  unfold emitJump at hemit
  dsimp only at hemit
  split at hemit
  · split at hemit
    · cases hemit
      exact ⟨rfl, rfl⟩
    · cases hemit
  · cases hemit
    dsimp only [emitScalarValue, setLabel]
    by_cases hsame : other = label
    · subst hsame
      simp [setReferrer]
    · simp [update_of_ne hsame]

theorem emitImpl_eq {operand : Operand ι} (h : operand.piece = .bytes operand.image)
    (e : BytecodeEmitter ι) :
    e.emitImpl operand = some { e with bytecode := e.bytecode ++ operand.image } := by
  cases operand with
  | locals params =>
    rw [emitImpl, foldl_emitScalarValue, emitScalarValue, Operand.image, append_assoc]
  | jump label => cases h
  | _ => rfl

namespace Renders

variable {pieces : List (Piece ι)} {e e' : BytecodeEmitter ι}

section

variable (h : Renders pieces e)
include h

theorem emitImpl {operand : Operand ι} (hemit : e.emitImpl operand = some e') :
    Renders (pieces ++ [operand.piece]) e' ∧ SameBindings e e' := by
  have hbytes (hpiece : operand.piece = .bytes operand.image) :
      Renders (pieces ++ [operand.piece]) e' ∧ SameBindings e e' := by
    rw [emitImpl_eq hpiece] at hemit
    cases hemit
    rw [hpiece]
    exact ⟨h.append _, fun _ => ⟨rfl, rfl⟩⟩
  cases operand with
  | jump label => exact ⟨h.emitJump hemit, sameBindings_emitJump hemit⟩
  | _ => exact hbytes rfl

theorem emitOperands {operands : List (Operand ι)}
    (hemit : operands.foldlM BytecodeEmitter.emitImpl e = some e') :
    Renders (pieces ++ operands.map Operand.piece) e' ∧ SameBindings e e' := by
  induction operands generalizing pieces e with
  | nil =>
    cases hemit
    rw [map_nil, append_nil]
    exact ⟨h, fun _ => ⟨rfl, rfl⟩⟩
  | cons operand operands ih =>
    rw [foldlM_cons, bind_eq_bind, bind_eq_some_iff] at hemit
    obtain ⟨next, hfirst, hrest⟩ := hemit
    have hnext := h.emitImpl hfirst
    have hlast := ih hnext.1 hrest
    rw [append_assoc, singleton_append] at hlast
    exact ⟨hlast.1, hnext.2.trans hlast.2⟩

theorem emitAll {instruction : Instruction ι} (hemit : e.emitAll instruction = some e') :
    Renders (pieces ++ instruction.pieces) e' ∧ SameBindings e e' := by
  have hops := (h.append _).emitOperands hemit
  rw [append_assoc, singleton_append] at hops
  exact hops

theorem bind {label : ι} (hbind : e.bind label = some e') :
    Renders pieces e' ∧ (e.labels label).bound = false ∧
      e'.labels = Function.update e.labels label ((e.labels label).bindTo e.position) := by
  unfold BytecodeEmitter.bind at hbind
  dsimp only at hbind
  split at hbind
  case isTrue => cases hbind
  case isFalse hbound =>
    rw [Bool.not_eq_true] at hbound
    split at hbind
    case isFalse => cases hbind
    case isTrue hdelta =>
      cases hbind
      have hrefs := h.waiting label hbound
      have hbef : ∀ q ∈ references 4 label 0 pieces, q < e.position := by
        intro q hq
        have := lt_of_mem_references (by decide) hq
        rw [h.position_eq]
        omega
      have hfill : fill (Function.update e.labels label
          ((e.labels label).bindTo e.position)) = refill (fill e.labels) label
            fun q => scalar 4 (Int32.ofInt (e.position - q)).toUInt32.toNat := by
        funext q other
        by_cases hsame : other = label
        · subst hsame
          simp [fill, refill, bindTo]
        · simp [fill, refill, hsame]
      refine ⟨?_, hbound, rfl⟩
      constructor
      · have hpatch := patch_render (length_fill e.labels) (fun q : Nat =>
          length_encode 4 (Int32.ofInt (e.position - q)).toUInt32.toNat) label pieces
        rw [hfill, hrefs, h.image]
        refine Eq.trans ?_ hpatch
        -- The distances are the same, since every reference stands before the label.
        apply foldl_ext
        intro code q hq
        have hdis : Int32.ofNat (e.position - q) = Int32.ofInt (e.position - q) := by
          rw [← Int32.ofInt_eq_ofNat, Int.ofNat_sub (Nat.le_of_lt (hbef q hq))]
        rw [hdis]
        rfl
      · intro other hother
        by_cases hsame : other = label
        · subst hsame
          simp [bindTo] at hother
        · dsimp only at hother ⊢
          rw [update_of_ne hsame] at hother ⊢
          exact h.waiting other hother
      · intro other hother q hq
        by_cases hsame : other = label
        · subst hsame
          have hlt := hbef q hq
          have hnear := hdelta.1 q (hrefs ▸ hq)
          simp only [update_self, bindTo]
          omega
        · dsimp only at hother ⊢
          rw [update_of_ne hsame] at hother ⊢
          exact h.near other hother q hq

end

end Renders

end BytecodeEmitter

namespace EmitCall

variable [DecidableEq ι]

structure Emitted (calls : List (EmitCall ι)) (e : BytecodeEmitter ι) : Prop where
  renders : e.Renders (allPieces calls)
  bindings : ∀ label, boundAt label 0 calls =
    if (e.labels label).bound then some (e.labels label).offset else none
  asserted : ∀ emission, emit emission ∈ calls → emission.asserts = true

theorem Emitted.step {calls : List (EmitCall ι)} {e' : BytecodeEmitter ι} {call : EmitCall ι}
    (h : Emitted calls e) (hrun : run e call = some e') : Emitted (calls ++ [call]) e' := by
  have hpieces : allPieces (calls ++ [call]) = allPieces calls ++ call.pieces := by
    rw [allPieces, flatMap_append, flatMap_singleton]
    rfl
  cases call with
  | emit emission =>
    rw [run] at hrun
    split at hrun
    case isFalse => cases hrun
    case isTrue hasserts =>
      obtain ⟨hrenders, hsame⟩ := h.renders.emitAll hrun
      constructor
      · rw [hpieces]
        exact hrenders
      · intro label
        rw [boundAt_append, boundAt, boundAt, or_none, h.bindings, (hsame label).1, (hsame label).2]
      · intro other hother
        rw [mem_append, mem_singleton] at hother
        obtain hother | hother := hother
        · exact h.asserted other hother
        · cases hother
          exact hasserts
  | bind label =>
    obtain ⟨hrenders, hbound, hlabels⟩ := h.renders.bind hrun
    constructor
    · rw [hpieces, pieces, append_nil]
      exact hrenders
    · intro other
      rw [boundAt_append, h.bindings, hlabels, boundAt, boundAt, Nat.zero_add,
        ← size_allPieces, ← h.renders.position_eq]
      by_cases hsame : other = label
      · subst hsame
        simp [hbound, bindTo]
      · simp [update_of_ne hsame, Ne.symm hsame]
    · intro emission hemission
      rw [mem_append, mem_singleton] at hemission
      obtain hemission | hemission := hemission
      · exact h.asserted emission hemission
      · cases hemission

theorem emitted_of_runAll {calls : List (EmitCall ι)} (hrun : runAll calls = some e) :
    Emitted calls e := by
  induction calls using List.reverseRecOn generalizing e with
  | nil =>
    cases hrun
    exact ⟨BytecodeEmitter.renders_new, fun _ => rfl, fun _ h => by cases h⟩
  | append_singleton calls call ih =>
    rw [runAll, foldlM_append, bind_eq_bind, bind_eq_some_iff] at hrun
    obtain ⟨before, hbef, hcall⟩ := hrun
    rw [foldlM_cons, bind_eq_bind, bind_eq_some_iff] at hcall
    obtain ⟨last, hcall, hlast⟩ := hcall
    cases hlast
    exact (ih hbef).step hcall

end EmitCall

end Terrier.Tpl
