import ComponentCompiler.Json.Number

/-!
# The tokens of JSON texts

## Main definitions

* `JsonToken` — marks, strings, and the words and numbers between them.
* `jsonTokens` — the tokens of a text; there are none if a string is malformed or not closed, or a
  word is none of the three known ones and no number.
-/

namespace ComponentCompiler

/-- A token of a JSON text. -/
inductive JsonToken where
  /-- The start of an object. -/
  | openObject
  /-- The end of an object. -/
  | closeObject
  /-- The start of an array. -/
  | openArray
  /-- The end of an array. -/
  | closeArray
  /-- What parts a name from its value. -/
  | colon
  /-- What parts members and elements. -/
  | comma
  /-- A string; `none` if it stands for no text. -/
  | string (s : Option String)
  /-- The null value. -/
  | null
  /-- A truth value. -/
  | bool (b : Bool)
  /-- A number. -/
  | number (n : Number)
  deriving DecidableEq, Repr

namespace JsonToken

/-- The token that is a single mark. -/
def ofMark? : Char → Option JsonToken
  | '{' => some .openObject
  | '}' => some .closeObject
  | '[' => some .openArray
  | ']' => some .closeArray
  | ':' => some .colon
  | ',' => some .comma
  | _ => none

/-- The token that is a word. -/
def ofWord? (cs : List Char) : Option JsonToken :=
  if cs == ['n', 'u', 'l', 'l'] then some .null
  else if cs == ['t', 'r', 'u', 'e'] then some (.bool true)
  else if cs == ['f', 'a', 'l', 's', 'e'] then some (.bool false)
  else (Number.ofChars? cs).map .number

/-- The blanks of JSON texts. -/
def isJsonBlank (c : Char) : Bool := c == ' ' || c == '\n' || c == '\t' || c == '\r'

/-- The value of a hexadecimal digit. -/
def hexDigit? (c : Char) : Option Nat :=
  if c.isDigit then some (c.toNat - '0'.toNat)
  else if 'a' ≤ c && c ≤ 'f' then some (c.toNat - 'a'.toNat + 10)
  else if 'A' ≤ c && c ≤ 'F' then some (c.toNat - 'A'.toNat + 10)
  else none

/-- The value of four hexadecimal digits. -/
def hexUnit? (a b c d : Char) : Option Nat := do
  return ((((← hexDigit? a) * 16 + (← hexDigit? b)) * 16) + (← hexDigit? c)) * 16 + (← hexDigit? d)

/-- What a character behind a backslash stands for. -/
def ofEscape? : Char → Option Char
  | '"' => some '"'
  | '\\' => some '\\'
  | '/' => some '/'
  | 'b' => some '\x08'
  | 'f' => some '\x0c'
  | 'n' => some '\n'
  | 'r' => some '\r'
  | 't' => some '\t'
  | _ => none

/-- The text of code points, where two halves of a surrogate pair, one behind the other, are one
character.  A half on its own stands for no text. -/
def textOf? : List Nat → Option (List Char)
  | [] => some []
  | [n] => if h : n.isValidChar then some [Char.ofNatAux n h] else none
  | n :: m :: ns =>
      if 0xD800 ≤ n && n < 0xDC00 && 0xDC00 ≤ m && m < 0xE000 then
        (textOf? ns).map (Char.ofNat (0x10000 + (n - 0xD800) * 0x400 + (m - 0xDC00)) :: ·)
      else if h : n.isValidChar then (textOf? (m :: ns)).map (Char.ofNatAux n h :: ·)
      else none

/-- Where cutting into tokens stands. -/
inductive Position where
  /-- Between tokens. -/
  | between
  /-- In a word, with its characters so far, latest first. -/
  | word (read : List Char)
  /-- In a string, with its code points so far, latest first. -/
  | string (read : List Nat)

/-- A token in front of others. -/
def push (t : Option JsonToken) (ts : Option (List JsonToken)) : Option (List JsonToken) := do
  return (← t) :: (← ts)

/-- The tokens of a text, from a given position. -/
def tokensFrom : Position → List Char → Option (List JsonToken)
  | .between, [] => some []
  | .between, c :: cs =>
      if isJsonBlank c then tokensFrom .between cs
      else if c == '"' then tokensFrom (.string []) cs
      else
        match ofMark? c with
        | some t => push t (tokensFrom .between cs)
        | none => tokensFrom (.word [c]) cs
  | .word r, [] => push (ofWord? r.reverse) (some [])
  | .word r, c :: cs =>
      if isJsonBlank c then push (ofWord? r.reverse) (tokensFrom .between cs)
      else if c == '"' then push (ofWord? r.reverse) (tokensFrom (.string []) cs)
      else
        match ofMark? c with
        | some t => push (ofWord? r.reverse) (push t (tokensFrom .between cs))
        | none => tokensFrom (.word (c :: r)) cs
  | .string _, [] => none
  | .string r, '"' :: cs =>
      push (some (.string ((textOf? r.reverse).map String.ofList))) (tokensFrom .between cs)
  | .string r, '\\' :: 'u' :: a :: b :: c :: d :: cs =>
      match hexUnit? a b c d with
      | some n => tokensFrom (.string (n :: r)) cs
      | none => none
  | .string r, '\\' :: c :: cs =>
      match ofEscape? c with
      | some e => tokensFrom (.string (e.toNat :: r)) cs
      | none => none
  | .string r, c :: cs =>
      if c.toNat < 0x20 || c == '\\' then none else tokensFrom (.string (c.toNat :: r)) cs

end JsonToken

/-- The tokens of a JSON text. -/
def jsonTokens (cs : List Char) : Option (List JsonToken) := JsonToken.tokensFrom .between cs

end ComponentCompiler
