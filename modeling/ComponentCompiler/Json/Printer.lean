import ComponentCompiler.Json.Value

/-!
# Writing JSON texts

Values are written without blanks.  In strings only quotes, backslashes and control characters are
escaped.

## Main definitions

* `quoted` — a text as a JSON string.
* `Json.print` — the text of a value.
-/

namespace ComponentCompiler

/-- A hexadecimal digit, in lower case. -/
def hexChar (n : Nat) : Char := Nat.digitChar (n % 16)

/-- A character inside a JSON string. -/
def escapeChar (c : Char) : List Char :=
  if c == '"' then ['\\', '"']
  else if c == '\\' then ['\\', '\\']
  else if c == '\x08' then ['\\', 'b']
  else if c == '\t' then ['\\', 't']
  else if c == '\n' then ['\\', 'n']
  else if c == '\x0c' then ['\\', 'f']
  else if c == '\r' then ['\\', 'r']
  else if c.toNat < 0x20 then ['\\', 'u', '0', '0', hexChar (c.toNat / 16), hexChar c.toNat]
  else [c]

/-- A text as a JSON string. -/
def quoted (cs : List Char) : List Char := '"' :: cs.flatMap escapeChar ++ ['"']

namespace Json

/-- A string as it is written; the replacement character takes the place of what is no text. -/
def printString (s : Option String) : List Char := quoted ((s.getD "�").toList)

mutual

/-- The text of a value. -/
def print : Json → List Char
  | .null => ['n', 'u', 'l', 'l']
  | .bool true => ['t', 'r', 'u', 'e']
  | .bool false => ['f', 'a', 'l', 's', 'e']
  | .number n => n.toChars
  | .string s => printString s
  | .array es => '[' :: printElements es ++ [']']
  | .object ms => '{' :: printMembers ms ++ ['}']

/-- The elements of an array with commas between them. -/
def printElements : List Json → List Char
  | [] => []
  | [e] => e.print
  | e :: es => e.print ++ ',' :: printElements es

/-- The members of an object with commas between them. -/
def printMembers : List (Option String × Json) → List Char
  | [] => []
  | [(k, v)] => printString k ++ ':' :: v.print
  | (k, v) :: ms => printString k ++ ':' :: v.print ++ ',' :: printMembers ms

end

end Json

end ComponentCompiler
