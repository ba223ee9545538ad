import Terrier.Proof.ScannerText

/-!
One pass of `Scanner::Scan` reads on over good text, stands at the end marker, or stays where it
is. So the calls of `Next` return the end of the input in time and only there exactly for the
scannable texts.
-/

namespace Terrier.Tpl

theorem mem_of_lookup {α β : Type} [BEq α] [LawfulBEq α] {entries : List (α × β)} {a : α} {b : β}
    (h : entries.lookup a = some b) : (a, b) ∈ entries := by
  obtain ⟨before, after, rfl, -⟩ := List.lookup_eq_some_iff.mp h
  simp

def IsCodeByte (c : Int) : Prop :=
  c ≠ endOfInput ∧ LexicalMode.afterCode c = some .code

instance (c : Int) : Decidable (IsCodeByte c) := inferInstanceAs (Decidable (_ ∧ _))

theorem singles_code : ∀ e ∈ singles, IsCodeByte e.1 ∧ e.2 ≠ .eos := by
  decide

theorem pairs_code :
    ∀ e ∈ pairs, IsCodeByte e.1 ∧ IsCodeByte (code e.2.1) ∧ e.2.2.1 ≠ .eos ∧ e.2.2.2 ≠ .eos := by
  decide

theorem keywords_ne_eos : ∀ e ∈ keywords, e.2 ≠ .eos := by
  decide

theorem checkIdentifierOrKeyword_ne_eos (input : List Int8) :
    checkIdentifierOrKeyword input ≠ .eos := by
  unfold checkIdentifierOrKeyword
  split
  · decide
  · cases hfound : keywords.lookup input with
    | none => decide
    | some type => exact keywords_ne_eos _ (mem_of_lookup hfound)

variable {c : Int}

theorem isCodeByte_of_identifierChar (h : isIdentifierChar c = true) : IsCodeByte c := by
  have hbyte : isTokenByte c = true := by
    unfold isTokenByte
    rw [h]
    rfl
  simp only [isIdentifierChar, isAlpha, isDigit, isInRange, Bool.or_eq_true,
    Bool.and_eq_true, decide_eq_true_eq, beq_iff_eq] at h
  simp only [show code 'a' = 97 from rfl, show code 'z' = 122 from rfl,
    show code 'A' = 65 from rfl, show code 'Z' = 90 from rfl, show code '0' = 48 from rfl,
    show code '9' = 57 from rfl, show code '_' = 95 from rfl] at h
  have hquote : c ≠ code '"' := by
    rw [show code '"' = 34 from rfl]
    omega
  have hslash : c ≠ code '/' := by
    rw [show code '/' = 47 from rfl]
    omega
  constructor
  · unfold endOfInput
    omega
  · unfold LexicalMode.afterCode
    rw [if_neg hquote, if_neg hslash, hbyte]
    rfl

theorem isCodeByte_of_digit (h : isDigit c = true) : IsCodeByte c := by
  apply isCodeByte_of_identifierChar
  unfold isIdentifierChar
  rw [h]
  simp

theorem isCodeByte_of_whiteSpace (h : isWhiteSpace c = true) : IsCodeByte c := by
  simp only [isWhiteSpace, Bool.or_eq_true, beq_iff_eq] at h
  rcases h with ((h | h) | h) | h
  all_goals
    rw [h]
    decide

variable {fuel : Nat}

namespace Cursor

variable {size : Nat} {text : List Int8} {c : Cursor} {b : Int8} {mode next : LexicalMode}
  {d : Cursor}

theorem Follows.enter (hend : b.toInt ≠ endOfInput) (hnext : mode.after b.toInt = some next)
    (h : Follows size next text c) : Follows size mode (b :: text) c := by
  obtain ⟨rest, hstands, hlen, hsame⟩ := h
  refine ⟨rest, hstands, Nat.le_trans hlen (Nat.le_succ _), ?_⟩
  rw [hsame, isScannable_cons next hend hnext]

theorem Follows.cons (hb : IsCodeByte b.toInt) (h : Follows size .code text c) :
    Follows size .code (b :: text) c :=
  h.enter hb.1 hb.2

theorem not_endOfInput {p : Int → Bool} (hp : ∀ c, p c = true → IsCodeByte c) :
    p endOfInput = false := by
  cases hend : p endOfInput with
  | false => rfl
  | true => exact absurd rfl (hp _ hend).1

theorem collect_follows (p : Int → Bool) (hp : ∀ c, p c = true → IsCodeByte c) (literal : List Int8)
    (h : Stands size text c) : Follows size .code text (c.collect p literal).2 := by
  exact ⟨_, collect_stands p (not_endOfInput hp) literal h, length_dropWhile_le p,
    isScannable_dropWhile .code p hp⟩

/-- A lexeme that takes the byte `b` of code and reads on over `text`. -/
theorem collect_follows_cons (p : Int → Bool) (hp : ∀ c, p c = true → IsCodeByte c)
    (hb : p b.toInt = true) (literal : List Int8) (h : Stands size (b :: text) c) :
    Follows size .code text (c.collect p literal).2 := by
  have hstands := collect_stands p (not_endOfInput hp) literal h
  rw [List.dropWhile_cons, hb] at hstands
  exact ⟨_, hstands, length_dropWhile_le p, isScannable_dropWhile .code p hp⟩

theorem scanIdentifierOrKeyword_follows (hb : isIdentifierChar b.toInt = true)
    (h : Stands size (b :: text) c) : Follows size .code text c.scanIdentifierOrKeyword.cursor := by
  apply collect_follows_cons (fun c => isIdentifierChar c && c != endOfInput)
  · intro c hc
    rw [Bool.and_eq_true] at hc
    exact isCodeByte_of_identifierChar hc.1
  · rw [hb, Bool.true_and, bne_iff_ne]
    exact (isCodeByte_of_identifierChar hb).1
  · exact h

theorem scanIdentifierOrKeyword_ne_eos : c.scanIdentifierOrKeyword.type ≠ .eos := by
  unfold scanIdentifierOrKeyword
  dsimp only
  split
  · decide
  · exact checkIdentifierOrKeyword_ne_eos _

theorem Follows.trans (h : Follows size mode text c)
    (hnext : ∀ rest, Stands size rest c → Follows size .code rest d) :
    Follows size mode text d := by
  obtain ⟨rest, hstands, hlen, hsame⟩ := h
  obtain ⟨rest', hstands', hlen', hsame'⟩ := hnext rest hstands
  exact ⟨rest', hstands', Nat.le_trans hlen' hlen, hsame'.trans hsame⟩

theorem scanNumber_follows (hb : isDigit b.toInt = true) (h : Stands size (b :: text) c) :
    Follows size .code text c.scanNumber.cursor ∧ c.scanNumber.type ≠ .eos := by
  have hdigits := collect_follows_cons isDigit (fun _ => isCodeByte_of_digit) hb [] h
  unfold scanNumber
  dsimp only
  split
  case isTrue hdot =>
    refine ⟨hdigits.trans fun rest hrest => ?_, by simp⟩
    -- the dot is the next byte of the text
    cases rest with
    | nil =>
      rw [hrest.c0_nil] at hdot
      exact absurd hdot (by decide)
    | cons d rest =>
      rw [hrest.c0_cons] at hdot
      apply Follows.cons
      · rw [hdot]
        decide
      · exact collect_follows isDigit (fun _ => isCodeByte_of_digit) _ hrest.advance
  case isFalse => exact ⟨hdigits, by simp⟩

theorem plain_ne_eos {type : TokenType} (h : type ≠ .eos) : (plain type c).type ≠ .eos := h

theorem scanAt_follows (h : Stands size text c) :
    Follows size .code text c.scanAt.cursor ∧ c.scanAt.type ≠ .eos := by
  unfold scanAt
  split
  case isTrue hchar =>
    constructor
    · cases text with
      | nil =>
        rw [h.c0_nil] at hchar
        exact absurd hchar (by decide)
      | cons b text =>
        rw [h.c0_cons] at hchar
        exact (scanIdentifierOrKeyword_follows hchar h).cons (isCodeByte_of_identifierChar hchar)
    · simp
  case isFalse => exact ⟨h.follows, plain_ne_eos (by decide)⟩

theorem scanPair_follows {second : Char} (hsnd : IsCodeByte (code second))
    (long short : TokenType) (hlong : long ≠ .eos) (hshort : short ≠ .eos)
    (h : Stands size text c) :
    let l := match c.matches? second with
      | some c => plain long c
      | none => plain short c
    Follows size .code text l.cursor ∧ l.type ≠ .eos := by
  unfold matches?
  split
  case h_1 d hmatch =>
    obtain ⟨hc0, hd⟩ := Option.ite_none_right_eq_some.mp hmatch
    rw [← Option.some.inj hd]
    refine ⟨?_, hlong⟩
    cases text with
    | nil =>
      rw [h.c0_nil] at hc0
      exact absurd hc0.symm hsnd.1
    | cons b text =>
      rw [h.c0_cons] at hc0
      exact h.advance.follows.cons (hc0 ▸ hsnd)
  case h_2 => exact ⟨h.follows, hshort⟩

theorem scanSlash_follows (h : Stands size text c) :
    Follows size .slash text c.scanSlash.cursor ∧ c.scanSlash.type ≠ .eos := by
  cases text with
  | nil =>
    have hnone : ∀ d : Char, c.matches? d = none := by
      intro d
      unfold matches?
      rw [h.c0_nil, if_neg]
      unfold endOfInput code
      omega
    unfold scanSlash
    rw [hnone, hnone]
    exact ⟨⟨[], h, Nat.le_refl _, rfl⟩, plain_ne_eos (by decide)⟩
  | cons b text =>
    unfold scanSlash matches?
    rw [h.c0_cons]
    by_cases hline : b.toInt = code '/'
    · rw [if_pos hline]
      refine ⟨(skipLineComment_follows h.advance).enter ?_ ?_, plain_ne_eos (by decide)⟩
      · rw [hline]
        decide
      · rw [hline]
        decide
    · rw [if_neg hline]
      by_cases hblock : b.toInt = code '*'
      · rw [if_pos hblock]
        refine ⟨(skipBlockComment_follows h.advance).enter ?_ ?_, plain_ne_eos (by decide)⟩
        · rw [hblock]
          decide
        · rw [hblock]
          decide
      · rw [if_neg hblock]
        refine ⟨⟨b :: text, h, Nat.le_refl _, ?_⟩, plain_ne_eos (by decide)⟩
        have hafter : LexicalMode.slash.after b.toInt = LexicalMode.code.after b.toInt := by
          simp only [LexicalMode.after, if_neg hline, if_neg hblock]
        rw [isScannable, isScannable, hafter]
        rfl

theorem scanString_ne_eos : c.scanString.type ≠ .eos := by
  unfold scanString
  dsimp only
  split
  case isTrue htype =>
    rw [htype]
    decide
  case isFalse => simp

/-! ### One pass of `Scanner::Scan` -/

/-- What a pass at `text` does: it finds the end marker, stays at a byte that is neither white
space nor part of a token, or reads on over good text. -/
inductive Passes (size : Nat) (text : List Int8) (c : Cursor) (l : Lexeme) : Prop where
  | finish (hend : c.c0 = endOfInput) (htype : l.type = .eos) (hcursor : l.cursor = c)
  | stuck (htext : isScannable .code text = false) (htype : l.type = .whitespace)
      (hcursor : l.cursor = c)
  | progress (rest : List Int8) (hstands : l.cursor.Stands size rest)
      (hlength : rest.length < text.length)
      (hsame : isScannable .code rest = isScannable .code text) (htype : l.type ≠ .eos)

theorem Passes.of_follows {l : Lexeme} (hend : b.toInt ≠ endOfInput)
    (hnext : LexicalMode.afterCode b.toInt = some next)
    (h : Follows size next text l.cursor ∧ l.type ≠ .eos) : Passes size (b :: text) c l := by
  obtain ⟨⟨rest, hstands, hlen, hsame⟩, htype⟩ := h
  refine .progress rest hstands (Nat.lt_succ_of_le hlen) ?_ htype
  have hafter : LexicalMode.code.after b.toInt = some next := hnext
  rw [hsame, isScannable_cons next hend hafter]

theorem scanDefault_passes (hsingle : singles.lookup b.toInt = none)
    (hpair : pairs.lookup b.toInt = none) (hat : b.toInt ≠ code '@') (hslash : b.toInt ≠ code '/')
    (hquote : b.toInt ≠ code '"') (h : Stands size (b :: text) c) :
    Passes size (b :: text) c c.scanDefault := by
  unfold scanDefault
  rw [h.c0_cons]
  split
  case isTrue hdigit =>
    have hcode := isCodeByte_of_digit hdigit
    exact .of_follows hcode.1 hcode.2 (scanNumber_follows hdigit h)
  case isFalse hdigit =>
    split
    case isTrue hchar =>
      have hcode := isCodeByte_of_identifierChar hchar
      exact .of_follows hcode.1 hcode.2
        ⟨scanIdentifierOrKeyword_follows hchar h, scanIdentifierOrKeyword_ne_eos⟩
    case isFalse hchar =>
      split
      case isTrue hend => exact .finish (h.c0_cons.trans hend) rfl rfl
      case isFalse hend =>
        have hskip := skipWhiteSpace_stands h
        cases hspace : isWhiteSpace b.toInt with
        | true =>
          have hcode := isCodeByte_of_whiteSpace hspace
          rw [List.dropWhile_cons, hspace] at hskip
          exact .of_follows hcode.1 hcode.2 ⟨⟨_, hskip, length_dropWhile_le _,
              isScannable_dropWhile .code _ fun _ => isCodeByte_of_whiteSpace⟩,
              plain_ne_eos (by decide)⟩
        | false =>
          -- no case applies to the byte, and the loop that should skip it skips nothing
          refine .stuck ?_ rfl ?_
          · have hbyte : isTokenByte b.toInt = false := by
              simp [isTokenByte, hchar, hsingle, hpair, hat]
            simp [isScannable, hend, LexicalMode.after, LexicalMode.afterCode, hquote, hslash,
              hbyte, hspace]
          · apply loop_of_false
            rw [h.c0_cons]
            exact hspace

theorem scanPass_passes (h : Stands size text c) : Passes size text c c.scanPass := by
  cases text with
  | nil =>
    have hc0 := h.c0_nil
    refine .finish hc0 ?_ ?_
    · unfold scanPass scanDefault
      rw [hc0]
      rfl
    · unfold scanPass scanDefault
      rw [hc0]
      rfl
  | cons b text =>
    unfold scanPass
    rw [h.c0_cons]
    cases hsingle : singles.lookup b.toInt with
    | some type =>
      obtain ⟨hcode, htype⟩ := singles_code _ (mem_of_lookup hsingle)
      exact .of_follows hcode.1 hcode.2 ⟨h.advance.follows, htype⟩
    | none =>
      cases hpair : pairs.lookup b.toInt with
      | some entry =>
        obtain ⟨second, long, short⟩ := entry
        obtain ⟨hcode, hsnd, hlong, hshort⟩ := pairs_code _ (mem_of_lookup hpair)
        exact .of_follows hcode.1 hcode.2 (scanPair_follows hsnd long short hlong hshort h.advance)
      | none =>
        dsimp only
        split
        case isTrue hat =>
          apply Passes.of_follows _ _ (scanAt_follows h.advance)
          · rw [hat]
            decide
          · rw [hat]
            decide
        case isFalse hat =>
          split
          case isTrue hslash =>
            apply Passes.of_follows _ _ (scanSlash_follows h.advance)
            · rw [hslash]
              decide
            · rw [hslash]
              decide
          case isFalse hslash =>
            split
            case isTrue hquote =>
              apply Passes.of_follows _ _ ⟨scanString_follows h.advance, scanString_ne_eos⟩
              · rw [hquote]
                decide
              · rw [hquote]
                decide
            case isFalse hquote =>
              exact scanDefault_passes hsingle hpair hat hslash hquote h

/-! ### `Scanner::Scan` -/

theorem scan_finished (hend : c.c0 = endOfInput) (fuel : Nat) :
    ∃ token, scan (fuel + 1) c = some (token, c) ∧ token.type = .eos := by
  have hpass : c.scanPass = plain .eos c := by
    unfold scanPass scanDefault
    rw [hend]
    rfl
  refine ⟨{ type := .eos, pos := c.c0Pos, offset := c.offset, literal := [] }, ?_, rfl⟩
  rw [scan, hpass]
  rfl

theorem scan_of_end {token : TokenDesc} (hend : c.c0 = endOfInput)
    (h : scan fuel c = some (token, d)) : token.type = .eos ∧ d = c := by
  cases fuel with
  | zero => exact absurd h (by simp [scan])
  | succ fuel =>
    obtain ⟨token', hscan, htype⟩ := scan_finished hend fuel
    rw [hscan] at h
    cases h
    exact ⟨htype, rfl⟩

/-- A scan that returns either found the end marker or has read on, and what it leaves is
scannable exactly if `text` was. -/
theorem scan_cases : ∀ {text : List Int8} {c : Cursor} {token : TokenDesc}
    {d : Cursor}, Stands size text c → scan fuel c = some (token, d) →
    ∃ rest, d.Stands size rest ∧ rest.length ≤ text.length ∧
      isScannable .code rest = isScannable .code text ∧
      (token.type = .eos ∧ d.c0 = endOfInput ∨ token.type ≠ .eos ∧ rest.length < text.length) := by
  induction fuel with
  | zero => exact fun _ h => absurd h (by simp [scan])
  | succ fuel ih =>
    intro text c token d hs h
    rw [scan] at h
    cases scanPass_passes hs with
    | finish hend htype hcursor =>
      rw [if_neg (by rw [htype]; decide)] at h
      cases h
      rw [hcursor]
      exact ⟨text, hs, Nat.le_refl _, rfl, .inl ⟨htype, hend⟩⟩
    | stuck htext htype hcursor =>
      rw [if_pos htype, hcursor] at h
      exact ih hs h
    | progress rest hstands hlen hsame htype =>
      split at h
      · obtain ⟨rest', hstands', hlen', hsame', hcases⟩ := ih hstands h
        refine ⟨rest', hstands', by omega, hsame'.trans hsame, ?_⟩
        apply hcases.imp_right
        rintro ⟨htoken, hless⟩
        exact ⟨htoken, by omega⟩
      · cases h
        exact ⟨rest, hstands, by omega, hsame, .inr ⟨htype, hlen⟩⟩

theorem scan_returns : ∀ {text : List Int8} {c : Cursor}, Stands size text c →
    isScannable .code text = true → text.length < fuel → ∃ result, scan fuel c = some result := by
  induction fuel with
  | zero => exact fun _ _ h => absurd h (Nat.not_lt_zero _)
  | succ fuel ih =>
    intro text c hs hgood hfuel
    rw [scan]
    split
    case isTrue hspace =>
      cases scanPass_passes hs with
      | finish _ htype _ =>
        rw [htype] at hspace
        exact absurd hspace (by decide)
      | stuck htext _ _ =>
        rw [hgood] at htext
        exact absurd htext (by decide)
      | progress rest hstands hlen hsame _ =>
        exact ih hstands (hsame.trans hgood) (by omega)
    case isFalse => exact ⟨_, rfl⟩

end Cursor

/-! ### Calls of `Next` -/

namespace Scanner

variable {source : List Int8}

/-- The constructor and every call of `Next` return, one of the first `length + 1` calls returns
the end of the input, and no call does before all of it is read. -/
structure ConsumesAll (source : List Int8) : Prop where
  returns : ∀ n, ∃ fuel s, afterCalls fuel source n = some s
  ends : ∃ n fuel s, n ≤ source.length + 1 ∧ afterCalls fuel source n = some s ∧ s.curr.type = .eos
  consumed : ∀ n fuel s, afterCalls fuel source n = some s → s.curr.type = .eos →
    s.cursor.offset = source.length

theorem start_stands : (start source).advance.Stands source.length source := by
  cases source with
  | nil => exact ⟨rfl, rfl, rfl⟩
  | cons b source =>
    refine ⟨rfl, rfl, ?_⟩
    show 1 + source.length = source.length + 1
    omega

/-- The invariant of the calls: what is left is scannable if the source is, and the end marker
is the lookahead once it was returned or is next. -/
structure Reads (source : List Int8) (n : Nat) (s : Scanner) (text : List Int8) : Prop where
  stands : s.cursor.Stands source.length text
  bounded : text.length ≤ source.length
  scannable : isScannable .code text = isScannable .code source
  curr : s.curr.type = .eos → s.ahead.type = .eos
  ahead : s.ahead.type = .eos → s.cursor.c0 = endOfInput
  length : s.ahead.type ≠ .eos → text.length + n + 1 ≤ source.length

variable {s : Scanner}

theorem new_eq_some (h : new fuel source = some s) :
    scan fuel (start source).advance = some (s.ahead, s.cursor) ∧ s.curr = noToken := by
  unfold new at h
  cases hscan : scan fuel (start source).advance with
  | none =>
    rw [hscan] at h
    exact absurd h (by simp)
  | some result =>
    rw [hscan] at h
    cases h
    exact ⟨rfl, rfl⟩

theorem next_eq_some {s' : Scanner} (h : next fuel s = some s') :
    scan fuel s.cursor = some (s'.ahead, s'.cursor) ∧ s'.curr = s.ahead := by
  unfold next at h
  cases hscan : scan fuel s.cursor with
  | none =>
    rw [hscan] at h
    exact absurd h (by simp)
  | some result =>
    rw [hscan] at h
    cases h
    exact ⟨rfl, rfl⟩

theorem afterCalls_reads (n : Nat) : ∀ {s : Scanner},
    afterCalls fuel source n = some s → ∃ text, Reads source n s text := by
  induction n with
  | zero =>
    intro s h
    obtain ⟨hscan, hcurr⟩ := new_eq_some h
    obtain ⟨rest, hstands, hbnd, hsame, hcases⟩ := Cursor.scan_cases start_stands hscan
    refine ⟨rest, hstands, hbnd, hsame, ?_, ?_, ?_⟩
    · rw [hcurr]
      exact fun h => absurd h (by decide)
    · exact fun heos => hcases.elim (fun h => h.2) fun h => absurd heos h.1
    · intro hne
      obtain ⟨-, hless⟩ := hcases.resolve_left fun h => hne h.1
      omega
  | succ n ih =>
    intro s' h
    obtain ⟨s, hs, hnext⟩ := Option.bind_eq_some_iff.mp h
    obtain ⟨text, hreads⟩ := ih hs
    obtain ⟨hscan, hcurr⟩ := next_eq_some hnext
    obtain ⟨rest, hstands, hbnd, hsame, hcases⟩ := Cursor.scan_cases hreads.stands hscan
    refine ⟨rest, hstands, Nat.le_trans hbnd hreads.bounded,
      hsame.trans hreads.scannable, ?_, ?_, ?_⟩
    · rw [hcurr]
      exact fun heos => (Cursor.scan_of_end (hreads.ahead heos) hscan).1
    · exact fun heos => hcases.elim (fun h => h.2) fun h => absurd heos h.1
    · intro hne
      obtain ⟨-, hless⟩ := hcases.resolve_left fun h => hne h.1
      -- the token before was not the end either, so one more byte is gone
      have hbef : s.ahead.type ≠ .eos := fun heos =>
        hne (Cursor.scan_of_end (hreads.ahead heos) hscan).1
      have hlen := hreads.length hbef
      omega

theorem afterCalls_returns (hgood : isScannable .code source = true) (n : Nat) :
    ∃ s, afterCalls (source.length + 1) source n = some s := by
  induction n with
  | zero =>
    obtain ⟨⟨ahead, cursor⟩, hscan⟩ :=
      Cursor.scan_returns start_stands hgood (Nat.lt_succ_self _)
    refine ⟨{ cursor, curr := noToken, ahead }, ?_⟩
    rw [afterCalls, new, hscan]
    rfl
  | succ n ih =>
    obtain ⟨s, hs⟩ := ih
    obtain ⟨text, hreads⟩ := afterCalls_reads n hs
    obtain ⟨⟨ahead, cursor⟩, hscan⟩ := Cursor.scan_returns hreads.stands
      (hreads.scannable.trans hgood) (Nat.lt_succ_of_le hreads.bounded)
    refine ⟨{ cursor, curr := s.ahead, ahead }, ?_⟩
    rw [afterCalls, hs]
    show next _ s = _
    rw [next, hscan]
    rfl

theorem Reads.scannable_iff {n : Nat} {text : List Int8} (h : Reads source n s text)
    (hend : s.cursor.c0 = endOfInput) :
    isScannable .code source = true ↔ s.cursor.offset = source.length := by
  have hoff := h.stands.offset
  have hrest := h.stands.rest
  rw [← h.scannable]
  cases text with
  | nil =>
    rw [hrest] at hoff
    exact ⟨fun _ => hoff, fun _ => rfl⟩
  | cons b text =>
    have hb : b.toInt = endOfInput := h.stands.c0_cons.symm.trans hend
    rw [hrest] at hoff
    simp only [List.tail_cons] at hoff
    simp only [isScannable, hb, LexicalMode.inBlockComment, Bool.false_eq_true,
      not_false_eq_true, and_self, if_true, List.isEmpty_iff_length_eq_zero]
    omega

theorem consumesAll_of_scannable (hgood : isScannable .code source = true) :
    ConsumesAll source where
  returns n := ⟨_, afterCalls_returns hgood n⟩
  ends := by
    obtain ⟨s, hs⟩ := afterCalls_returns hgood source.length
    obtain ⟨s', hs'⟩ := afterCalls_returns hgood (source.length + 1)
    have hcurr : s'.curr = s.ahead := by
      rw [afterCalls, hs] at hs'
      exact (next_eq_some hs').2
    obtain ⟨text, hreads⟩ := afterCalls_reads _ hs
    refine ⟨source.length + 1, _, s', Nat.le_refl _, hs', ?_⟩
    rw [hcurr]
    by_contra hne
    have hlen := hreads.length hne
    omega
  consumed := by
    intro n fuel s hs heos
    obtain ⟨text, hreads⟩ := afterCalls_reads n hs
    exact (hreads.scannable_iff (hreads.ahead (hreads.curr heos))).mp hgood

theorem scannable_of_consumesAll (h : ConsumesAll source) : isScannable .code source = true := by
  obtain ⟨n, fuel, s, -, hs, heos⟩ := h.ends
  obtain ⟨text, hreads⟩ := afterCalls_reads n hs
  exact (hreads.scannable_iff (hreads.ahead (hreads.curr heos))).mpr (h.consumed n fuel s hs heos)

/-- The scanner consumes a source exactly if outside comments and string literals each of its
bytes is white space or belongs to a token, and the byte `0xff` is its last one or stands in a
block comment. -/
theorem scanner_consumes_iff (source : List Int8) :
    ConsumesAll source ↔ isScannable .code source = true :=
  ⟨scannable_of_consumesAll, consumesAll_of_scannable⟩

theorem scan_numberSign (fuel : Nat) : scan fuel (start (chars "#")).advance = none := by
  induction fuel with
  | zero => rfl
  | succ fuel ih =>
    exact ih

/-- At a number sign the constructor never returns. -/
theorem numberSign_not_consumed :
    (∀ fuel, new fuel (chars "#") = none) ∧ ¬ ConsumesAll (chars "#") := by
  constructor
  · intro fuel
    rw [new, scan_numberSign]
    rfl
  · intro h
    exact absurd (scannable_of_consumesAll h) (by decide)

example : isScannable .code (chars "var s = \"#\" /* @ */ // $") = true := by decide

end Scanner

end Terrier.Tpl
