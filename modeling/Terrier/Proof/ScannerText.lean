import Terrier.Execution.Scanner

/-!
Which source texts the scanner consumes. Outside comments and string literals every byte has to be
white space or a byte of some token, and `0xff`, which reads as the end of the input, may only be
the last one or stand in a block comment.
-/

namespace Terrier.Tpl

open List

/-- Where in the text a byte stands. In a block comment it matters whether the byte before was a
star, in a string literal whether it was a backslash. -/
inductive LexicalMode where
  | code
  | slash
  | lineComment
  | blockStart
  | block (star : Bool)
  | stringStart
  | string (escape : Bool)
  deriving DecidableEq, Repr

def isTokenByte (c : Int) : Bool :=
  isIdentifierChar c || (singles.lookup c).isSome || (pairs.lookup c).isSome || c == code '@'

namespace LexicalMode

/-- A byte of code: `none` if no token has it and it is no white space. -/
def afterCode (c : Int) : Option LexicalMode :=
  if c = Tpl.code '"' then some stringStart
  else if c = Tpl.code '/' then some slash
  else if isTokenByte c || isWhiteSpace c then some code
  else none

def after : LexicalMode → Int → Option LexicalMode
  | code, c => afterCode c
  | slash, c =>
    if c = Tpl.code '/' then some lineComment
    else if c = Tpl.code '*' then some blockStart
    else afterCode c
  | lineComment, c => if c = Tpl.code '\n' then some code else some lineComment
  | blockStart, c => some (block (c == Tpl.code '*'))
  -- a block comment is over after a star, at a slash and at a byte `0xff`
  | block star, c =>
    if star ∨ c = Tpl.code '/' ∨ c = endOfInput then some code
    else some (block (c == Tpl.code '*'))
  | stringStart, c => some (string (c == Tpl.code '\\'))
  | string escape, c =>
    if c = Tpl.code '"' ∧ ¬ escape then some code
    else some (string (c == Tpl.code '\\'))

/-- In a block comment the byte `0xff` is not taken for the end of the input. -/
def inBlockComment : LexicalMode → Bool
  | blockStart | block _ => true
  | _ => false

end LexicalMode

/-- The text has no byte that the scanner stays at for ever or takes for the end too early. -/
def isScannable : LexicalMode → List Int8 → Bool
  | _, [] => true
  | mode, b :: text =>
    if b.toInt = endOfInput ∧ ¬ mode.inBlockComment then text.isEmpty
    else
      match mode.after b.toInt with
      | none => false
      | some mode => isScannable mode text

structure Cursor.Stands (size : Nat) (text : List Int8) (c : Cursor) : Prop where
  c0 : c.c0 = (text.head?.map Int8.toInt).getD endOfInput
  rest : c.rest = text.tail
  offset : c.offset + c.rest.length = size

namespace Cursor.Stands

variable {size : Nat} {text : List Int8} {c : Cursor}

theorem advance (h : Stands size text c) : Stands size text.tail c.advance := by
  obtain ⟨rest, offset, c0, pos⟩ := c
  have hrest : rest = text.tail := h.rest
  have hoff : offset + rest.length = size := h.offset
  rw [← hrest]
  cases rest with
  | nil => exact ⟨rfl, rfl, hoff⟩
  | cons b rest =>
    simp only [length_cons] at hoff
    exact ⟨rfl, rfl, by show offset + 1 + rest.length = size; omega⟩

theorem withPos (h : Stands size text c) (pos : SourcePosition) :
    Stands size text { c with c0Pos := pos } :=
  ⟨h.c0, h.rest, h.offset⟩

theorem c0_nil (h : Stands size [] c) : c.c0 = endOfInput := h.c0

theorem c0_cons {b : Int8} (h : Stands size (b :: text) c) : c.c0 = b.toInt := h.c0

end Cursor.Stands

section Loops

variable {σ : Type} {condition : σ → Bool} {pass : σ → σ} {s : σ}

theorem loop_of_false {fuel : List Int8} (h : condition s = false) :
    loop condition pass fuel s = s := by
  cases fuel with
  | nil | cons _ fuel =>
    rw [loop, h]
    rfl

/-- A loop ends in `post` if every pass makes the number of `before` smaller and its condition
fails at zero. -/
theorem loop_rule (before : Nat → σ → Prop) (post : σ → Prop)
    (hzero : ∀ s, before 0 s → condition s = false)
    (hstop : ∀ n s, before n s → condition s = false → post s)
    (hpass : ∀ n s, before n s → condition s = true → ∃ m, m < n ∧ before m (pass s))
    (fuel : List Int8) :
    ∀ n s, n ≤ fuel.length + 1 → before n s → post (loop condition pass fuel s) := by
  induction fuel with
  | nil =>
    intro n s hn hs
    unfold loop
    cases hcond : condition s with
    | false => exact hstop n s hs hcond
    | true =>
      obtain ⟨m, hm, hpassed⟩ := hpass n s hs hcond
      have hlast : m = 0 := by
        simp only [length_nil] at hn
        omega
      subst hlast
      exact hstop 0 _ hpassed (hzero _ hpassed)
  | cons _ fuel ih =>
    intro n s hn hs
    unfold loop
    cases hcond : condition s with
    | false => exact hstop n s hs hcond
    | true =>
      obtain ⟨m, hm, hpassed⟩ := hpass n s hs hcond
      apply ih m _ _ hpassed
      simp only [length_cons] at hn
      omega

/-- A loop that goes on while the lookahead satisfies `p` drops these bytes. -/
theorem loop_stands {size : Nat} {text : List Int8} (cursor : σ → Cursor) (p : Int → Bool)
    (pass : σ → σ) (hend : p endOfInput = false)
    (hpass : ∀ text s, (cursor s).Stands size text → (cursor (pass s)).Stands size text.tail)
    (h : (cursor s).Stands size text) :
    (cursor (loop (fun s => p (cursor s).c0) pass (cursor s).rest s)).Stands size
      (text.dropWhile fun b => p b.toInt) := by
  refine loop_rule (fun n s => ∃ left, left.length = n ∧ (cursor s).Stands size left ∧
      left.dropWhile (fun b => p b.toInt) = text.dropWhile fun b => p b.toInt)
    (fun s => (cursor s).Stands size (text.dropWhile fun b => p b.toInt)) ?_ ?_ ?_ _
    text.length s ?_ ⟨text, rfl, h, rfl⟩
  · rintro s ⟨left, hlen, hs, -⟩
    rw [eq_nil_of_length_eq_zero hlen] at hs
    rw [hs.c0_nil, hend]
  · rintro n s ⟨left, -, hs, hleft⟩ hstop
    cases left with
    | nil => exact hleft ▸ hs
    | cons b left =>
      rw [hs.c0_cons] at hstop
      rw [← hleft, dropWhile_cons, hstop]
      exact hs
  · rintro n s ⟨left, hlen, hs, hleft⟩ hgoes
    cases left with
    | nil => simp [hs.c0_nil, hend] at hgoes
    | cons b left =>
      rw [hs.c0_cons] at hgoes
      refine ⟨left.length, ?_, left, rfl, hpass _ s hs, ?_⟩
      · rw [← hlen]
        exact Nat.lt_succ_self _
      · rw [← hleft, dropWhile_cons, hgoes]
        rfl
  · rw [h.rest, length_tail]
    omega

end Loops

section Modes

variable {text : List Int8}

theorem isScannable_cons {mode : LexicalMode} {b : Int8} (next : LexicalMode)
    (hend : b.toInt ≠ endOfInput)
    (hnext : mode.after b.toInt = some next) :
    isScannable mode (b :: text) = isScannable next text := by
  rw [isScannable, if_neg (fun h => hend h.1), hnext]

theorem isScannable_dropWhile (mode : LexicalMode) (p : Int → Bool)
    (hp : ∀ c, p c = true → c ≠ endOfInput ∧ mode.after c = some mode) :
    isScannable mode (text.dropWhile fun b => p b.toInt) = isScannable mode text := by
  induction text with
  | nil => rfl
  | cons b text ih =>
    rw [dropWhile_cons]
    split
    case isTrue hb => rw [ih, isScannable_cons mode (hp _ hb).1 (hp _ hb).2]
    case isFalse => rfl

theorem length_dropWhile_le (p : Int → Bool) :
    (text.dropWhile fun b => p b.toInt).length ≤ text.length :=
  (dropWhile_sublist _).length_le

/-- The rest of a line comment starts with a newline or at the end. -/
theorem isScannable_lineComment :
    isScannable .code (text.dropWhile fun b => b.toInt != code '\n' && b.toInt != endOfInput) =
      isScannable .lineComment text := by
  rw [← isScannable_dropWhile .lineComment (fun c => c != code '\n' && c != endOfInput)]
  · cases hrest : text.dropWhile fun b => b.toInt != code '\n' && b.toInt != endOfInput with
    | nil => rfl
    | cons b rest =>
      have hstop := head?_dropWhile_not
        (fun b : Int8 => b.toInt != code '\n' && b.toInt != endOfInput) text
      rw [hrest] at hstop
      simp only [head?_cons, Bool.and_eq_false_iff, bne_eq_false_iff_eq] at hstop
      rcases hstop with hnewline | hend
      · have hne : b.toInt ≠ endOfInput := by rw [hnewline]; decide
        rw [isScannable_cons .code hne (by rw [hnewline]; decide),
          isScannable_cons .code hne (by rw [hnewline]; decide)]
      · simp [isScannable, hend, LexicalMode.inBlockComment]
  · intro c hc
    simp only [Bool.and_eq_true, bne_iff_ne] at hc
    exact ⟨hc.2, if_neg hc.1⟩

def afterBlock : Bool → List Int8 → List Int8
  | _, [] => []
  | star, b :: text =>
    if star ∨ b.toInt = code '/' ∨ b.toInt = endOfInput then text
    else afterBlock (b.toInt == code '*') text

theorem isScannable_afterBlock (star : Bool) :
    isScannable .code (afterBlock star text) = isScannable (.block star) text := by
  induction text generalizing star with
  | nil => rfl
  | cons b text ih =>
    have hmode : ¬ (b.toInt = endOfInput ∧ ¬ (LexicalMode.block star).inBlockComment) :=
      fun h => h.2 rfl
    rw [afterBlock, isScannable, if_neg hmode, LexicalMode.after]
    split
    · rfl
    · exact ih _

theorem length_afterBlock_le (star : Bool) : (afterBlock star text).length ≤ text.length := by
  induction text generalizing star with
  | nil => exact Nat.le_refl _
  | cons b text ih =>
    rw [afterBlock]
    split
    · exact Nat.le_succ _
    · exact Nat.le_trans (ih _) (Nat.le_succ _)

def afterString : Bool → List Int8 → List Int8
  | _, [] => []
  | escape, b :: text =>
    if b.toInt = code '"' ∧ ¬ escape then text
    else if b.toInt = endOfInput then b :: text
    else afterString (b.toInt == code '\\') text

theorem isScannable_afterString (escape : Bool) :
    isScannable .code (afterString escape text) = isScannable (.string escape) text := by
  induction text generalizing escape with
  | nil => rfl
  | cons b text ih =>
    rw [afterString]
    split
    case isTrue hquote =>
      have hend : b.toInt ≠ endOfInput := by
        rw [hquote.1]
        decide
      rw [isScannable_cons .code hend]
      rw [LexicalMode.after, if_pos hquote]
    case isFalse hquote =>
      split
      case isTrue hend => simp [isScannable, hend, LexicalMode.inBlockComment]
      case isFalse hend =>
        rw [ih, isScannable_cons (.string (b.toInt == code '\\')) hend]
        rw [LexicalMode.after, if_neg hquote]

theorem length_afterString_le (escape : Bool) : (afterString escape text).length ≤ text.length := by
  induction text generalizing escape with
  | nil => exact Nat.le_refl _
  | cons b text ih =>
    rw [afterString]
    split
    · exact Nat.le_succ _
    · split
      · exact Nat.le_refl _
      · exact Nat.le_trans (ih _) (Nat.le_succ _)

end Modes

namespace Cursor

variable {size : Nat} {text : List Int8} {c : Cursor}

def Follows (size : Nat) (mode : LexicalMode) (text : List Int8) (c : Cursor) : Prop :=
  ∃ rest, c.Stands size rest ∧ rest.length ≤ text.length ∧
    isScannable .code rest = isScannable mode text

theorem Stands.follows (h : Stands size text c) : Follows size .code text c :=
  ⟨text, h, Nat.le_refl _, rfl⟩

theorem collect_stands (p : Int → Bool) (hend : p endOfInput = false) (literal : List Int8)
    (h : Stands size text c) :
    Stands size (text.dropWhile fun b => p b.toInt) (c.collect p literal).2 := by
  exact loop_stands (s := (literal, c)) (fun s => s.2) p _ hend (fun _ _ hs => hs.advance) h

section

variable (h : Stands size text c)
include h

theorem skipWhiteSpace_stands :
    Stands size (text.dropWhile fun b => isWhiteSpace b.toInt) c.skipWhiteSpace := by
  apply loop_stands (fun s : Cursor => s) isWhiteSpace _ (by decide)
  · intro text s hs
    unfold skipWhiteSpacePass
    split
    · exact (hs.withPos _).advance
    · exact hs.advance
  · exact h

theorem skipLineComment_follows : Follows size .lineComment text c.skipLineComment := by
  refine ⟨_, ?_, ?_, isScannable_lineComment⟩
  · apply loop_stands (fun s : Cursor => s) (fun c => c != code '\n' && c != endOfInput) _
      (by decide)
    · exact fun text s hs => hs.advance
    · exact h
  · exact length_dropWhile_le fun c => c != code '\n' && c != endOfInput

theorem skipBlockComment_stands :
    Stands size (afterBlock (c.c0 == code '*') text.tail) c.skipBlockComment := by
  refine loop_rule (fun n (s : Int × Cursor) =>
      ∃ left, left.length = n ∧ s.2.Stands size left ∧
        afterBlock (s.1 == code '*') left = afterBlock (c.c0 == code '*') text.tail)
    (fun s => s.2.advance.Stands size (afterBlock (c.c0 == code '*') text.tail)) ?_ ?_ ?_ _
    text.tail.length (c.c0, c.advance) ?_ ⟨text.tail, rfl, h.advance, rfl⟩
  · rintro s ⟨left, hlen, hs, -⟩
    rw [List.eq_nil_of_length_eq_zero hlen] at hs
    rw [hs.c0_nil, bne_self_eq_false, Bool.and_false]
  · rintro n ⟨last, d⟩ ⟨left, -, hs, hleft⟩ hstop
    cases left with
    | nil => exact hleft ▸ hs.advance
    | cons b left =>
      have hc0 : d.c0 = b.toInt := hs.c0_cons
      simp only [hc0, Bool.and_eq_false_iff, bne_eq_false_iff_eq] at hstop
      rw [← hleft, afterBlock, if_pos]
      · exact hs.advance
      · simpa [or_assoc] using hstop
  · rintro n ⟨last, d⟩ ⟨left, hlen, hs, hleft⟩ hgoes
    cases left with
    | nil =>
      have hc0 : d.c0 = endOfInput := hs.c0_nil
      simp [hc0] at hgoes
    | cons b left =>
      have hc0 : d.c0 = b.toInt := hs.c0_cons
      simp only [hc0, Bool.and_eq_true, bne_iff_ne] at hgoes
      refine ⟨left.length, ?_, left, rfl, hs.advance, ?_⟩
      · rw [← hlen]
        exact Nat.lt_succ_self _
      · rw [← hleft, afterBlock, if_neg]
        · simp only [hc0]
        · simpa [and_assoc] using hgoes
  · rw [h.advance.rest]
    simp only [List.length_tail]
    omega

theorem skipBlockComment_follows : Follows size .blockStart text c.skipBlockComment := by
  refine ⟨_, skipBlockComment_stands h, Nat.le_trans (length_afterBlock_le _) ?_, ?_⟩
  · rw [List.length_tail]
    omega
  · cases text with
    | nil => rfl
    | cons b text =>
      rw [isScannable_afterBlock, h.c0_cons, isScannable, if_neg (fun h => h.2 rfl)]
      rfl

end

/-- Where a string literal leaves the text: the loop has not started, goes on after one more
byte, or has read the closing quote. -/
def stringRest (type : TokenType) (left : List Int8) : List Int8 :=
  if type = .string then left
  else
    match left with
    | [] => []
    | b :: left =>
      if b.toInt = endOfInput then b :: left else afterString (b.toInt == code '\\') left

theorem stringRest_pass {b : Int8} {left : List Int8} {l : Lexeme}
    (h : l.cursor.Stands size (b :: left)) (htype : l.type ≠ .string)
    (hend : b.toInt ≠ endOfInput) :
    ∃ next, next.length ≤ left.length ∧ (scanStringPass l).cursor.Stands size next ∧
      stringRest (scanStringPass l).type next = stringRest l.type (b :: left) := by
  unfold scanStringPass stringRest
  rw [if_neg htype]
  simp only [if_neg hend, h.c0_cons]
  cases left with
  | nil =>
    have hc0 : l.cursor.advance.c0 ≠ code '"' := by
      rw [Stands.c0_nil h.advance]
      decide
    rw [if_neg fun hquote => hc0 hquote.1]
    exact ⟨[], Nat.le_refl _, h.advance, rfl⟩
  | cons d left =>
    rw [Stands.c0_cons h.advance, afterString]
    split
    case isTrue hquote =>
      refine ⟨left, Nat.le_succ _, h.advance.advance, ?_⟩
      rw [← beq_iff_eq (a := b.toInt)] at hquote
      rw [if_pos rfl, if_pos hquote]
    case isFalse hquote =>
      refine ⟨d :: left, Nat.le_refl _, h.advance, ?_⟩
      rw [← beq_iff_eq (a := b.toInt)] at hquote
      rw [if_neg (show TokenType.uninitialized ≠ .string by decide), if_neg hquote]

theorem scanString_stands (h : Stands size text c) :
    Stands size (stringRest .uninitialized text) c.scanString.cursor := by
  let first : Lexeme := { type := .uninitialized, literal := [], cursor := c }
  have hloop : (loop (fun l : Lexeme => l.type != .string && l.cursor.c0 != endOfInput)
      scanStringPass c.rest first).cursor.Stands size (stringRest .uninitialized text) := by
    refine loop_rule (fun n l => ∃ left, left.length = n ∧ l.cursor.Stands size left ∧
        stringRest l.type left = stringRest .uninitialized text)
      (fun l => l.cursor.Stands size (stringRest .uninitialized text)) ?_ ?_ ?_ c.rest
      text.length first ?_ ⟨text, rfl, h, rfl⟩
    · rintro l ⟨left, hlen, hs, -⟩
      rw [eq_nil_of_length_eq_zero hlen] at hs
      rw [hs.c0_nil, bne_self_eq_false, Bool.and_false]
    · rintro n l ⟨left, -, hs, hleft⟩ hstop
      rw [← hleft]
      unfold stringRest
      split
      · exact hs
      case isFalse htype =>
        cases left with
        | nil => exact hs
        | cons b left =>
          have hend : b.toInt = endOfInput := by
            simp only [hs.c0_cons, Bool.and_eq_false_iff, bne_eq_false_iff_eq] at hstop
            exact hstop.resolve_left htype
          simp only [hend, if_pos]
          exact hs
    · rintro n l ⟨left, hlen, hs, hleft⟩ hgoes
      simp only [Bool.and_eq_true, bne_iff_ne] at hgoes
      cases left with
      | nil => exact absurd hs.c0_nil hgoes.2
      | cons b left =>
        rw [hs.c0_cons] at hgoes
        obtain ⟨next, hnext, hstands, hrest⟩ := stringRest_pass hs hgoes.1 hgoes.2
        refine ⟨next.length, ?_, next, rfl, hstands, hrest.trans hleft⟩
        rw [← hlen]
        exact Nat.lt_succ_of_le hnext
    · rw [h.rest, length_tail]
      omega
  unfold scanString
  simp only
  split
  · exact hloop
  · exact hloop

theorem scanString_follows (h : Stands size text c) :
    Follows size .stringStart text c.scanString.cursor := by
  refine ⟨_, scanString_stands h, ?_, ?_⟩
  · cases text with
    | nil => exact Nat.le_refl _
    | cons b text =>
      simp only [stringRest, reduceCtorEq, if_false]
      split
      · exact Nat.le_refl _
      · exact Nat.le_trans (length_afterString_le _) (Nat.le_succ _)
  · cases text with
    | nil => rfl
    | cons b text =>
      simp only [stringRest, reduceCtorEq, if_false]
      split
      case isTrue hend => simp [isScannable, hend, LexicalMode.inBlockComment]
      case isFalse hend =>
        rw [isScannable_afterString, isScannable_cons (.string (b.toInt == code '\\')) hend rfl]

end Cursor

end Terrier.Tpl
