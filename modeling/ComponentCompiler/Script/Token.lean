import ComponentCompiler.Syntax.Tree

/-!
# Tokens of a script

## Main definitions

* `Decimal` — the exact value of a numeric literal.
* `Lexeme`, `Token` — what the lexer reads.
* `isReserved` — the words that are never identifiers.
-/

namespace ComponentCompiler.Script

/-- The exact value `coefficient * 10 ^ exponent` of a numeric literal. -/
structure Decimal where
  /-- The digits, read as one number. -/
  coefficient : Nat
  /-- The power of ten that the digits are scaled by. -/
  exponent : Int := 0
  deriving DecidableEq, Repr

/-- What a token is. -/
inductive Lexeme where
  /-- The end of the script. -/
  | finish
  /-- A name, keywords included, with its escapes resolved. -/
  | word (name : String) (escaped : Bool)
  /-- A name behind a number sign. -/
  | privateWord (name : String)
  /-- A punctuator. -/
  | symbol (text : String)
  /-- A number. -/
  | number (value : Decimal)
  /-- An integer of any size. -/
  | bigint (value : Nat)
  /-- A string, as code points; a lone surrogate stands for itself. -/
  | string (value : List Nat)
  /-- A stretch of a template up to its end or to a substitution: its text as written, whether
  its escapes have a meaning, and whether the template ends here. -/
  | template (raw : String) (sound : Bool) (last : Bool)
  /-- A regular expression. -/
  | regex (pattern flags : String)
  deriving DecidableEq, Repr

/-- A lexeme with its place in the script, in bytes. -/
structure Token where
  /-- What the token is. -/
  lexeme : Lexeme
  /-- Where the token starts. -/
  start : Nat
  /-- Where the token stops, exclusively. -/
  stop : Nat
  /-- Whether a line ends between the token and the one before it. -/
  newline : Bool
  deriving Repr

/-- The words that are never identifiers. -/
def reservedWords : List String :=
  ["break", "case", "catch", "class", "const", "continue", "debugger", "default", "delete", "do",
   "else", "enum", "export", "extends", "false", "finally", "for", "function", "if", "import",
   "in", "instanceof", "new", "null", "return", "super", "switch", "this", "throw", "true", "try",
   "typeof", "var", "void", "while", "with"]

/-- Whether a word is reserved. -/
def isReserved (w : String) : Bool := reservedWords.contains w

/-- A place where a script does not follow the grammar. -/
structure SyntaxError where
  /-- Where reading stopped, in bytes. -/
  offset : Nat
  deriving DecidableEq, Repr

end ComponentCompiler.Script
