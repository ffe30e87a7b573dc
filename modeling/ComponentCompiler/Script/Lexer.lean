import ComponentCompiler.Text.Identifier
import ComponentCompiler.Text.Offset
import ComponentCompiler.Script.Token

/-!
# Reading tokens

A token is read from the text that follows the token before it.  A slash is read as an operator
and a closing brace as a symbol; where the grammar expects a regular expression or the rest of a
template instead, the token is read again with `scanRegex` or `scanTemplate`.  A `>` is always read
alone, since it may close a list of types; `scanGreater` reads the longer operators.

Every reader takes the text at its token and answers the lexeme, the number of bytes it covers and
the text behind it, or nothing when the text does not start with such a token.

## Main definitions

* `scan` — the next token, with the white space and comments in front of it skipped.
* `scanRegex`, `scanTemplate`, `scanGreater` — the readings that depend on the grammar.
-/

namespace ComponentCompiler.Script

open Text (byteLength isIdStart isIdContinue)

/-- A lexeme, the number of bytes it covers, and the text behind it. -/
abbrev Reading := Option (Lexeme × Nat × List Char)

/-! ### White space and comments -/

/-- The characters that end a line. -/
def isLineEnd (c : Char) : Bool :=
  c == '\n' || c == '\r' || c.toNat == 0x2028 || c.toNat == 0x2029

/-- The characters that separate tokens without ending a line.  The next-line character and the
space without a width are among them. -/
def isSpace (c : Char) : Bool :=
  let n := c.toNat
  n == 0x09 || n == 0x0B || n == 0x0C || n == 0x20 || n == 0x85 || n == 0xA0 || n == 0xFEFF ||
    n == 0x1680 || (0x2000 ≤ n && n ≤ 0x200B) || n == 0x202F || n == 0x205F || n == 0x3000

/-- Where skipping stands. -/
inductive Trivia where
  /-- Between tokens. -/
  | space
  /-- In a comment that ends with its line. -/
  | line
  /-- In a comment that ends with its own mark. -/
  | block

/-- Skip white space and comments: the offset behind them, whether a line ended, and the text that
is left.  A comment that is never closed leaves nothing to read. -/
def skipTrivia : Trivia → Nat → Bool → List Char → Option (Nat × Bool × List Char)
  | .space, n, nl, '/' :: '/' :: cs => skipTrivia .line (n + 2) nl cs
  | .space, n, nl, '/' :: '*' :: cs => skipTrivia .block (n + 2) nl cs
  | .space, n, nl, c :: cs =>
      if isLineEnd c then skipTrivia .space (n + c.utf8Size) true cs
      else if isSpace c then skipTrivia .space (n + c.utf8Size) nl cs
      else some (n, nl, c :: cs)
  | .line, n, nl, c :: cs =>
      if isLineEnd c then skipTrivia .space (n + c.utf8Size) true cs
      else skipTrivia .line (n + c.utf8Size) nl cs
  | .block, n, nl, '*' :: '/' :: cs => skipTrivia .space (n + 2) nl cs
  | .block, n, nl, c :: cs => skipTrivia .block (n + c.utf8Size) (nl || isLineEnd c) cs
  | .block, _, _, [] => none
  | _, n, nl, [] => some (n, nl, [])

/-! ### Names -/

/-- The value of a hexadecimal digit. -/
def hexValue? (c : Char) : Option Nat :=
  if '0' ≤ c ∧ c ≤ '9' then some (c.toNat - '0'.toNat)
  else if 'a' ≤ c ∧ c ≤ 'f' then some (c.toNat - 'a'.toNat + 10)
  else if 'A' ≤ c ∧ c ≤ 'F' then some (c.toNat - 'A'.toNat + 10)
  else none

/-- The number written by a list of hexadecimal digits, if they are such digits. -/
def hexNumber? (cs : List Char) : Option Nat :=
  cs.foldl (fun acc c => do return (← acc) * 16 + (← hexValue? c)) (some 0)

/-- The character that an escape in a name stands for, behind the `\u`: four digits, or digits in
braces.  Also the number of bytes read and the text behind. -/
def nameEscape? : List Char → Option (Nat × Nat × List Char)
  | '{' :: cs =>
      let digits := cs.takeWhile (· != '}')
      match cs.drop digits.length, digits with
      | _, [] => none
      | '}' :: rest, _ => do
          let n ← hexNumber? digits
          if n ≤ 0x10FFFF then return (n, digits.length + 2, rest) else none
      | _, _ => none
  | a :: b :: c :: d :: rest => do return (← hexNumber? [a, b, c, d], 4, rest)
  | _ => none

/-- Whether a character may stand in a name, at its start or later. -/
def isNameChar (first : Bool) (c : Char) : Bool :=
  c == '$' || c == '_' || (if first then isIdStart c else isIdContinue c)

/-- Read a name, at most `fuel` stretches of it: its characters, latest first, whether it has an
escape, the bytes read and the text behind. -/
def nameFrom : Nat → Bool → List Char → Bool → Nat → List Char →
    Option (List Char × Bool × Nat × List Char)
  | 0, _, _, _, _, _ => none
  | fuel + 1, first, acc, _, n, '\\' :: 'u' :: cs => do
      let (v, m, rest) ← nameEscape? cs
      let c := Char.ofNat v
      if c.toNat == v && isNameChar first c then
        nameFrom fuel false (c :: acc) true (n + 2 + m) rest
      else none
  | fuel + 1, first, acc, escaped, n, c :: cs =>
      if isNameChar first c then nameFrom fuel false (c :: acc) escaped (n + c.utf8Size) cs
      else if first || c == '\\' then none
      else some (acc, escaped, n, c :: cs)
  | _ + 1, first, acc, escaped, n, [] => if first then none else some (acc, escaped, n, [])

/-- The characters that a name is written with, escapes included. -/
def isNameInk (c : Char) : Bool :=
  isNameChar false c || c == '\\' || c == '{' || c == '}'

/-- Read a name. -/
def scanName (cs : List Char) : Option (String × Bool × Nat × List Char) := do
  let fuel := (cs.takeWhile isNameInk).length + 1
  let (acc, escaped, n, rest) ← nameFrom fuel true [] false 0 cs
  return (String.ofList acc.reverse, escaped, n, rest)

/-! ### Numbers -/

/-- Digits of a number with single underscores between them: the digits and the text behind.  The
first character must be a digit. -/
def digitsFrom (isDigit : Char → Bool) : List Char → List Char → Option (List Char × List Char)
  | acc, '_' :: c :: cs =>
      if isDigit c then digitsFrom isDigit (c :: acc) cs else none
  | acc, c :: cs =>
      if isDigit c then digitsFrom isDigit (c :: acc) cs
      else if c == '_' then none
      else some (acc.reverse, c :: cs)
  | acc, [] => some (acc.reverse, [])

/-- At least one digit, with single underscores between digits. -/
def digits? (isDigit : Char → Bool) : List Char → Option (List Char × List Char)
  | c :: cs => if isDigit c then digitsFrom isDigit [c] cs else none
  | [] => none

/-- The number written in a base by a list of digits. -/
def numberOf (base : Nat) (ds : List Char) : Nat :=
  ds.foldl (fun acc c => acc * base + (hexValue? c).getD 0) 0

/-- A number must not touch a name or a digit. -/
def endsNumber : List Char → Bool
  | c :: _ => !(isNameChar true c || c.isDigit || c == '\\')
  | [] => true

/-- Finish a number: nothing may touch it. -/
def finishNumber (l : Lexeme) (cs rest : List Char) : Reading :=
  if endsNumber rest then some (l, cs.length - rest.length, rest) else none

/-- The exponent of a number, if there is one. -/
def exponent? : List Char → Option (Int × List Char)
  | c :: cs =>
      if c == 'e' || c == 'E' then
        match cs with
        | '-' :: ds => do
            let (ds, rest) ← digits? Char.isDigit ds
            return (-(numberOf 10 ds : Int), rest)
        | '+' :: ds => do
            let (ds, rest) ← digits? Char.isDigit ds
            return ((numberOf 10 ds : Int), rest)
        | ds => do
            let (ds, rest) ← digits? Char.isDigit ds
            return ((numberOf 10 ds : Int), rest)
      else some (0, c :: cs)
  | [] => some (0, [])

/-- The rest of a number behind its whole part. -/
def scanFraction (whole : List Char) (cs rest : List Char) : Reading := do
  let (fraction, rest) ← match rest with
    | '.' :: rest =>
        if (rest.head?.map Char.isDigit).getD false then digits? Char.isDigit rest
        else if rest.head? == some '_' then none
        else some ([], rest)
    | rest => some ([], rest)
  let (e, rest) ← exponent? rest
  let value : Decimal := ⟨numberOf 10 (whole ++ fraction), e - fraction.length⟩
  finishNumber (.number value) cs rest

/-- A number in the base that its first letter names. -/
def scanBased (base : Nat) (isDigit : Char → Bool) (cs rest : List Char) : Reading := do
  let (ds, rest) ← digits? isDigit rest
  match rest with
  | 'n' :: rest => finishNumber (.bigint (numberOf base ds)) cs rest
  | rest => finishNumber (.number ⟨numberOf base ds, 0⟩) cs rest

/-- Read a number.  A zero in front of further digits makes it octal, unless one of them is an
eight or a nine; then a capital `E` may not follow the digits. -/
def scanNumber (cs : List Char) : Reading :=
  match cs with
  | '0' :: c :: rest =>
      if c == 'x' || c == 'X' then scanBased 16 (fun d => (hexValue? d).isSome) cs rest
      else if c == 'o' || c == 'O' then scanBased 8 (fun d => '0' ≤ d && d ≤ '7') cs rest
      else if c == 'b' || c == 'B' then scanBased 2 (fun d => d == '0' || d == '1') cs rest
      else if c == '_' then none
      else if c.isDigit then
        let ds := (c :: rest).takeWhile Char.isDigit
        let behind := (c :: rest).drop ds.length
        if ds.all (fun d => '0' ≤ d && d ≤ '7') then
          finishNumber (.number ⟨numberOf 8 ds, 0⟩) cs behind
        else if behind.head? == some 'E' then none
        else scanFraction ds cs behind
      else if c == 'n' then finishNumber (.bigint 0) cs rest
      else scanFraction ['0'] cs (c :: rest)
  | '.' :: rest => scanFraction [] cs ('.' :: rest)
  | _ => do
      let (ds, rest) ← digits? Char.isDigit cs
      match rest with
      | 'n' :: rest => finishNumber (.bigint (numberOf 10 ds)) cs rest
      | rest => scanFraction ds cs rest

/-! ### Strings and templates -/

/-- Join surrogates that form a pair. -/
def joinSurrogates : List Nat → List Nat
  | hi :: lo :: rest =>
      if 0xD800 ≤ hi && hi ≤ 0xDBFF && 0xDC00 ≤ lo && lo ≤ 0xDFFF then
        (0x10000 + (hi - 0xD800) * 0x400 + (lo - 0xDC00)) :: joinSurrogates rest
      else hi :: joinSurrogates (lo :: rest)
  | ns => ns

/-- The letters that stand for a control character behind a backslash. -/
def controlEscape? : Char → Option Nat
  | 'n' => some 0x0A
  | 't' => some 0x09
  | 'b' => some 0x08
  | 'v' => some 0x0B
  | 'f' => some 0x0C
  | 'r' => some 0x0D
  | _ => none

/-- An octal escape: up to three digits, no more than 255. -/
def octalEscape : List Char → Nat × List Char
  | a :: b :: c :: rest =>
      if a ≤ '3' && '0' ≤ b && b ≤ '7' && '0' ≤ c && c ≤ '7' then (numberOf 8 [a, b, c], rest)
      else if '0' ≤ b && b ≤ '7' then (numberOf 8 [a, b], c :: rest)
      else (numberOf 8 [a], b :: c :: rest)
  | [a, b] => if '0' ≤ b && b ≤ '7' then (numberOf 8 [a, b], []) else (numberOf 8 [a], [b])
  | [a] => (numberOf 8 [a], [])
  | [] => (0, [])

/-- The code points that a text with escapes stands for.  Octal escapes other than a lone zero are
allowed in strings and refused in templates. -/
def cookFrom (template : Bool) : Nat → List Char → Option (List Nat)
  | 0, _ => none
  | _ + 1, [] => some []
  | fuel + 1, '\\' :: '\r' :: '\n' :: cs => cookFrom template fuel cs
  | fuel + 1, '\\' :: 'x' :: cs =>
      match cs with
      | a :: b :: cs => do return (← hexNumber? [a, b]) :: (← cookFrom template fuel cs)
      | _ => none
  | fuel + 1, '\\' :: 'u' :: cs => do
      let (n, _, rest) ← nameEscape? cs
      return n :: (← cookFrom template fuel rest)
  | fuel + 1, '\\' :: c :: cs =>
      if isLineEnd c then cookFrom template fuel cs
      else if c.isDigit then
        if template then
          if c == '0' && !((cs.head?.map Char.isDigit).getD false) then do
            return 0 :: (← cookFrom template fuel cs)
          else none
        else if c ≤ '7' then do
          let (n, rest) := octalEscape (c :: cs)
          return n :: (← cookFrom template fuel rest)
        else do return c.toNat :: (← cookFrom template fuel cs)
      else do return ((controlEscape? c).getD c.toNat) :: (← cookFrom template fuel cs)
  | fuel + 1, c :: cs => do return c.toNat :: (← cookFrom template fuel cs)

/-- The code points that a text with escapes stands for. -/
def cook (template : Bool) (cs : List Char) : Option (List Nat) :=
  (cookFrom template (cs.length + 1) cs).map joinSurrogates

/-- The inside of a string up to its closing quote, latest character first, and the text behind
the quote.  A line may end inside a string only behind a backslash. -/
def stringBody (quote : Char) : List Char → List Char → Option (List Char × List Char)
  | acc, '\\' :: '\r' :: '\n' :: cs => stringBody quote ('\n' :: '\r' :: '\\' :: acc) cs
  | acc, '\\' :: c :: cs => stringBody quote (c :: '\\' :: acc) cs
  | acc, c :: cs =>
      if c == quote then some (acc, cs)
      else if c == '\n' || c == '\r' then none
      else stringBody quote (c :: acc) cs
  | _, [] => none

/-- Read a string, from its opening quote. -/
def scanString : List Char → Reading
  | quote :: cs => do
      let (acc, rest) ← stringBody quote [] cs
      let raw := acc.reverse
      return (.string (← cook false raw), byteLength raw + 2, rest)
  | [] => none

/-- A stretch of a template, latest character first; whether the template ends with it; and the
text behind. -/
def templateBody : List Char → List Char → Option (List Char × Bool × List Char)
  | acc, '\\' :: c :: cs => templateBody (c :: '\\' :: acc) cs
  | acc, '\x60' :: cs => some (acc, true, cs)
  | acc, '$' :: '{' :: cs => some (acc, false, cs)
  | acc, c :: cs => templateBody (c :: acc) cs
  | _, [] => none

/-- A text in which every line ends with a line feed alone. -/
def plainLines : List Char → List Char
  | '\r' :: '\n' :: cs => '\n' :: plainLines cs
  | '\r' :: cs => '\n' :: plainLines cs
  | c :: cs => c :: plainLines cs
  | [] => []

/-- Read a stretch of a template, from the backtick or the closing brace in front of it. -/
def scanTemplate : List Char → Reading
  | _ :: cs => do
      let (acc, last, rest) ← templateBody [] cs
      let raw := acc.reverse
      let size := byteLength raw + (if last then 2 else 3)
      return (.template (String.ofList (plainLines raw)) (cook true raw).isSome last, size, rest)
  | [] => none

/-! ### Regular expressions -/

/-- The inside of a regular expression, latest character first, and the text behind its closing
slash; `inClass` says whether reading stands in a character class. -/
def regexBody : Bool → List Char → List Char → Option (List Char × List Char)
  | inClass, acc, '\\' :: c :: cs =>
      if isLineEnd c then none else regexBody inClass (c :: '\\' :: acc) cs
  | inClass, acc, c :: cs =>
      if isLineEnd c || c == '\\' then none
      else if c == '/' && !inClass then some (acc, cs)
      else regexBody (if c == '[' then true else if c == ']' then false else inClass) (c :: acc) cs
  | _, _, [] => none

/-- Whether the flags of a regular expression are known ones, each at most once, and name at most
one of the two Unicode modes. -/
def areFlags (flags : List Char) : Bool :=
  flags.all ("dgimsuvy".toList.contains ·) && flags.eraseDups.length == flags.length &&
    !(flags.contains 'u' && flags.contains 'v')

/-- Read a regular expression, from its opening slash. -/
def scanRegex : List Char → Reading
  | _ :: cs => do
      let (acc, rest) ← regexBody false [] cs
      let flags := rest.takeWhile (fun c => c.isAlphanum || c == '$' || c == '_')
      let behind := rest.drop flags.length
      if areFlags flags &&
          !((behind.head?.map (fun c => isNameChar false c || c == '\\')).getD false) then
        return (.regex (String.ofList acc.reverse) (String.ofList flags),
          byteLength acc + flags.length + 2, behind)
      else none
  | [] => none

/-! ### Symbols -/

/-- The punctuators, longer ones before the shorter ones that they start with. -/
def symbols : List String :=
  ["\x7b", "\x7d", "(", ")", "[", "]", ";", ",", "~", ":", "@", ">",
   "...", ".", "<<=", "<<", "<=", "<", "===", "==", "=>", "=", "!==", "!=", "!",
   "++", "+=", "+", "--", "-=", "-", "**=", "**", "*=", "*", "%=", "%", "&&=", "&&", "&=", "&",
   "||=", "||", "|=", "|", "^=", "^", "??=", "??", "?.", "?", "/=", "/"]

/-- The text behind `lead`, if it starts with it. -/
def dropLead? : List Char → List Char → Option (List Char)
  | [], cs => some cs
  | a :: as, c :: cs => if a == c then dropLead? as cs else none
  | _ :: _, [] => none

/-- Read the first symbol of a list that the text starts with. -/
def scanSymbolOf : List String → List Char → Reading
  | [], _ => none
  | s :: ss, cs =>
      match dropLead? s.toList cs with
      | some rest => some (.symbol s, s.length, rest)
      | none => scanSymbolOf ss cs

/-- Read a symbol.  A `?.` in front of a digit is a `?`. -/
def scanSymbol (cs : List Char) : Reading :=
  match cs with
  | '?' :: '.' :: d :: rest =>
      if d.isDigit then some (.symbol "?", 1, '.' :: d :: rest) else scanSymbolOf symbols cs
  | _ => scanSymbolOf symbols cs

/-- Read the longest operator that starts with `>`. -/
def scanGreater (cs : List Char) : Reading :=
  scanSymbolOf [">>>=", ">>>", ">>=", ">>", ">=", ">"] cs

/-! ### Tokens -/

/-- Read the lexeme that the text starts with. -/
def scanLexeme : List Char → Reading
  | [] => some (.finish, 0, [])
  | c :: cs =>
      if isNameChar true c || c == '\\' then do
        let (name, escaped, n, rest) ← scanName (c :: cs)
        return (.word name escaped, n, rest)
      else if c.isDigit || (c == '.' && (cs.head?.map Char.isDigit).getD false) then
        scanNumber (c :: cs)
      else if c == '\x22' || c == '\x27' then scanString (c :: cs)
      else if c == '\x60' then scanTemplate (c :: cs)
      else if c == '#' then do
        let (name, _, n, rest) ← scanName cs
        return (.privateWord name, n + 1, rest)
      else scanSymbol (c :: cs)

/-- A token with the text it starts and the text behind it. -/
structure Scanned where
  /-- The token. -/
  token : Token
  /-- The text from the token on. -/
  here : List Char
  /-- The text behind the token. -/
  rest : List Char

/-- The next token of a text that starts at an offset. -/
def scan (offset : Nat) (cs : List Char) : Except SyntaxError Scanned :=
  match skipTrivia .space offset false cs with
  | none => .error ⟨offset⟩
  | some (start, newline, here) =>
      match scanLexeme here with
      | none => .error ⟨start⟩
      | some (lexeme, n, rest) =>
          .ok { token := { lexeme, start, stop := start + n, newline }, here, rest }

/-- The offset and the text behind a line that names an interpreter, which may open a script. -/
def skipOpening (cs : List Char) : Nat × List Char :=
  match cs with
  | '#' :: '!' :: _ =>
      let line := cs.takeWhile (!isLineEnd ·)
      (byteLength line, cs.drop line.length)
  | cs => (0, cs)

end ComponentCompiler.Script
