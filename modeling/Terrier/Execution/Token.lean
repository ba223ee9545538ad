import Mathlib.Data.List.Basic

/-!
The tokens of TPL, the language the query compiler emits.
-/

namespace Terrier.Tpl

inductive TokenType where
  | leftParen | rightParen | leftBrace | rightBrace | leftBracket | rightBracket | arrow | bang
  | bitNot | colon | dot | semi | at | equal | comma | or | and | bitOr | bitXor | ampersand | plus
  | minus | star | slash | percent | bangEqual | equalEqual | greater | greaterEqual | less
  | lessEqual | identifier | builtinIdentifier | integer | float | string | else | false | for | fun
  | if | in | map | nil | return | struct | true | var | uninitialized | whitespace | error | eos
  deriving DecidableEq, Repr

end Terrier.Tpl
