import Terrier.Execution.Token

/-!
The TPL scanner.  It keeps one character of lookahead, `c0_`, and one token of lookahead.
Characters are signed: the byte `0xff` and the end marker are the same value of `c0_`.
-/

namespace Terrier.Tpl

structure SourcePosition where
  line : Nat
  column : Nat
  deriving DecidableEq, Repr

/-- The character side of a `Scanner`: the source from `offset_` on, `offset_`, the lookahead
`c0_` and its position. -/
structure Cursor where
  rest : List Int8
  offset : Nat
  c0 : Int
  c0Pos : SourcePosition
  deriving DecidableEq, Repr

/-- The value of a character literal in a comparison with `c0_`. -/
def code (c : Char) : Int := c.toNat

def endOfInput : Int := -1

namespace Cursor

def advance (c : Cursor) : Cursor :=
  match c.rest with
  | [] => { c with c0 := endOfInput }
  | char :: rest =>
    { rest
      offset := c.offset + 1
      c0 := char.toInt
      c0Pos := { c.c0Pos with column := c.c0Pos.column + 1 } }

def matches? (expected : Char) (c : Cursor) : Option Cursor :=
  if c.c0 = code expected then some c.advance else none

end Cursor

def isInRange (c : Int) (lower upper : Char) : Bool :=
  code lower ≤ c && c ≤ code upper

def isAlpha (c : Int) : Bool := isInRange c 'a' 'z' || isInRange c 'A' 'Z'

def isDigit (c : Int) : Bool := isInRange c '0' '9'

def isIdentifierChar (c : Int) : Bool := isAlpha c || isDigit c || c == code '_'

/-- The characters `Scanner::SkipWhiteSpace` skips. -/
def isWhiteSpace (c : Int) : Bool :=
  c == code ' ' || c == code '\r' || c == code '\t' || c == code '\n'

/-- A loop of the scanner.  Each pass advances and no condition holds at the end of the input,
so the unread source bounds the number of passes. -/
def loop {σ : Type} (condition : σ → Bool) (pass : σ → σ) : List Int8 → σ → σ
  | [], s => if condition s then pass s else s
  | _ :: rest, s => if condition s then loop condition pass rest (pass s) else s

namespace Cursor

def skipWhiteSpacePass (c : Cursor) : Cursor :=
  if c.c0 = code '\n' then
    advance { c with c0Pos := { line := c.c0Pos.line + 1, column := 0 } }
  else c.advance

def skipWhiteSpace (c : Cursor) : Cursor :=
  loop (fun c => isWhiteSpace c.c0) skipWhiteSpacePass c.rest c

def skipLineComment (c : Cursor) : Cursor :=
  loop (fun c => c.c0 != code '\n' && c.c0 != endOfInput) advance c.rest c

/-- `Scanner::SkipBlockComment`.  The state of the loop is the character before the lookahead,
`c` in the source, and the cursor. -/
def skipBlockComment (c : Cursor) : Cursor :=
  let last := loop
    (fun s : Int × Cursor => s.1 != code '*' && s.2.c0 != code '/' && s.2.c0 != endOfInput)
    (fun s => (s.2.c0, s.2.advance)) c.advance.rest (c.c0, c.advance)
  last.2.advance

/-- Collects the lookahead while `p` holds of it. -/
def collect (p : Int → Bool) (literal : List Int8) (c : Cursor) : List Int8 × Cursor :=
  loop (fun s : List Int8 × Cursor => p s.2.c0)
    (fun s => (s.1 ++ [Int8.ofInt s.2.c0], s.2.advance)) c.rest (literal, c)

end Cursor

def chars (text : String) : List Int8 := text.toList.map fun c => Int8.ofNat c.toNat

def keywords : List (List Int8 × TokenType) :=
  [(chars "and", .and), (chars "else", .else), (chars "false", .false), (chars "for", .for),
    (chars "fun", .fun), (chars "if", .if), (chars "in", .in), (chars "map", .map),
    (chars "nil", .nil), (chars "or", .or), (chars "return", .return), (chars "struct", .struct),
    (chars "true", .true), (chars "var", .var)]

def checkIdentifierOrKeyword (input : List Int8) : TokenType :=
  if input.length < 2 ∨ input.length > 6 then .identifier
  else (keywords.lookup input).getD .identifier

structure Lexeme where
  type : TokenType
  literal : List Int8
  cursor : Cursor

namespace Cursor

def scanIdentifierOrKeyword (c : Cursor) : Lexeme :=
  let (literal, cursor) := c.collect (fun c => isIdentifierChar c && c != endOfInput) []
  { type :=
      if c.c0 = code '_' ∨ isInRange c.c0 'A' 'Z' then .identifier
      else checkIdentifierOrKeyword literal
    literal
    cursor }

def scanNumber (c : Cursor) : Lexeme :=
  let (literal, cursor) := c.collect isDigit []
  if cursor.c0 = code '.' then
    let (literal, cursor) := cursor.advance.collect isDigit (literal ++ chars ".")
    { type := .float, literal, cursor }
  else { type := .integer, literal, cursor }

/-- The state of the loop of `Scanner::ScanString`: `type` is set on return. -/
def scanStringPass (l : Lexeme) : Lexeme :=
  let escape := l.cursor.c0 = code '\\'
  let literal := l.literal ++ [Int8.ofInt l.cursor.c0]
  let cursor := l.cursor.advance
  if cursor.c0 = code '"' ∧ ¬ escape then { type := .string, literal, cursor := cursor.advance }
  else { type := .uninitialized, literal, cursor }

/-- `Scanner::ScanString`, called with the lookahead after the opening quote. -/
def scanString (c : Cursor) : Lexeme :=
  let last := loop (fun l : Lexeme => l.type != .string && l.cursor.c0 != endOfInput) scanStringPass
    c.rest { type := .uninitialized, literal := [], cursor := c }
  if last.type = .string then last
  else { type := .error, literal := chars "Unterminated string", cursor := last.cursor }

end Cursor

/-- The cases of `Scanner::Scan` that take one character. -/
def singles : List (Int × TokenType) :=
  [(code '{', .leftBrace), (code '}', .rightBrace), (code '(', .leftParen),
    (code ')', .rightParen), (code '[', .leftBracket), (code ']', .rightBracket),
    (code '&', .ampersand), (code '|', .bitOr), (code '^', .bitXor), (code '~', .bitNot),
    (code ':', .colon), (code ',', .comma), (code '.', .dot), (code ';', .semi),
    (code '%', .percent), (code '+', .plus), (code '*', .star)]

/-- The cases of `Scanner::Scan` that take a second character if it matches: the token with
it and the token without. -/
def pairs : List (Int × Char × TokenType × TokenType) :=
  [(code '!', '=', .bangEqual, .bang), (code '=', '=', .equalEqual, .equal),
    (code '>', '=', .greaterEqual, .greater), (code '<', '=', .lessEqual, .less),
    (code '-', '>', .arrow, .minus)]

namespace Cursor

def plain (type : TokenType) (cursor : Cursor) : Lexeme := { type, literal := [], cursor }

def scanAt (c : Cursor) : Lexeme :=
  if isIdentifierChar c.c0 then { c.scanIdentifierOrKeyword with type := .builtinIdentifier }
  else plain .at c

def scanSlash (c : Cursor) : Lexeme :=
  match c.matches? '/' with
  | some c => plain .whitespace c.skipLineComment
  | none =>
    match c.matches? '*' with
    | some c => plain .whitespace c.skipBlockComment
    | none => plain .slash c

def scanDefault (c : Cursor) : Lexeme :=
  if isDigit c.c0 then c.scanNumber
  else if isIdentifierChar c.c0 then c.scanIdentifierOrKeyword
  else if c.c0 = endOfInput then plain .eos c
  else plain .whitespace c.skipWhiteSpace

def scanPass (c : Cursor) : Lexeme :=
  match singles.lookup c.c0, pairs.lookup c.c0 with
  | some type, _ => plain type c.advance
  | none, some (second, long, short) =>
    match c.advance.matches? second with
    | some c => plain long c
    | none => plain short c.advance
  | none, none =>
    if c.c0 = code '@' then c.advance.scanAt
    else if c.c0 = code '/' then c.advance.scanSlash
    else if c.c0 = code '"' then c.advance.scanString
    else c.scanDefault

end Cursor

structure TokenDesc where
  type : TokenType
  pos : SourcePosition
  offset : Nat
  literal : List Int8
  deriving DecidableEq, Repr

/-- `Scanner::Scan`.  The loop goes round as long as it passes over white space; `fuel` bounds
the passes, and the result is `none` when they do not suffice. -/
def scan : Nat → Cursor → Option (TokenDesc × Cursor)
  | 0, _ => none
  | fuel + 1, c =>
    let l := c.scanPass
    if l.type = .whitespace then scan fuel l.cursor
    else
      some ({ type := l.type, pos := c.c0Pos, offset := c.offset, literal := l.literal }, l.cursor)

structure Scanner where
  cursor : Cursor
  curr : TokenDesc
  ahead : TokenDesc
  deriving DecidableEq, Repr

namespace Scanner

def noToken : TokenDesc :=
  { type := .uninitialized, pos := ⟨0, 0⟩, offset := 0, literal := [] }

/-- The cursor before the first `Advance`. -/
def start (source : List Int8) : Cursor :=
  { rest := source, offset := 0, c0 := endOfInput, c0Pos := ⟨1, 0⟩ }

def new (fuel : Nat) (source : List Int8) : Option Scanner := do
  let (ahead, cursor) ← scan fuel (start source).advance
  return { cursor, curr := noToken, ahead }

def next (fuel : Nat) (s : Scanner) : Option Scanner := do
  let (ahead, cursor) ← scan fuel s.cursor
  return { cursor, curr := s.ahead, ahead }

/-- The scanner after `n` calls of `Next`; the type of `curr` is what the last one returned. -/
def afterCalls (fuel : Nat) (source : List Int8) : Nat → Option Scanner
  | 0 => new fuel source
  | n + 1 => do next fuel (← afterCalls fuel source n)

end Scanner

end Terrier.Tpl
