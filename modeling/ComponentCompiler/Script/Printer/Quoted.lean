/-!
# Texts in printed scripts

## Main definitions

* `quotedText` — a string in double quotes.
* `directiveText` — a directive in quotes that it does not hold itself.
* `guardMarkup` — a text that cannot end the element of the page that holds the script.
-/

namespace ComponentCompiler.Script

/-- What would end the element of the page that holds a script. -/
def closingMarkup : List Char := "</script".toList

/-- Whether a text starts with what would end the element of the page. -/
def startsClosingMarkup (cs : List Char) : Bool :=
  (cs.take closingMarkup.length).map Char.toLower == closingMarkup

/-- A text that cannot end the element of the page that holds the script. -/
def guardMarkup : List Char → List Char
  | [] => []
  | c :: cs =>
      if startsClosingMarkup (c :: cs) then c :: '\\' :: guardMarkup cs else c :: guardMarkup cs

/-- The four hexadecimal digits of a code unit. -/
def unitDigits (n : Nat) : List Char :=
  [n / 4096, n / 256, n / 16, n].map fun d => Nat.digitChar (d % 16)

/-- A code point inside double quotes, before the code points that follow it. -/
def escapedPoint (n : Nat) (next : Option Nat) : List Char :=
  match n with
  | 0x00 => if next.any (fun d => 0x30 ≤ d && d ≤ 0x39) then "\\x00".toList else "\\0".toList
  | 0x07 => "\\x07".toList
  | 0x08 => "\\b".toList
  | 0x0A => "\\n".toList
  | 0x0B => "\\v".toList
  | 0x0C => "\\f".toList
  | 0x0D => "\\r".toList
  | 0x1B => "\\x1B".toList
  | 0x22 => "\\\"".toList
  | 0x5C => "\\\\".toList
  | 0xA0 => "\\xA0".toList
  | 0x2028 => "\\u2028".toList
  | 0x2029 => "\\u2029".toList
  | n => if n.isValidChar then [Char.ofNat n] else '\\' :: 'u' :: unitDigits n

/-- Code points inside double quotes. -/
def escapedPoints : List Nat → List Char
  | [] => []
  | n :: ns => escapedPoint n ns.head? ++ escapedPoints ns

/-- A string in double quotes. -/
def quotedText (points : List Nat) : List Char :=
  '\x22' :: guardMarkup (escapedPoints points) ++ ['\x22']

/-- The quote in which a directive stands: the other one than the first that it holds. -/
def directiveQuote : List Char → Char
  | [] => '\x22'
  | '\\' :: _ :: cs => directiveQuote cs
  | c :: cs => if c == '\x22' then '\'' else if c == '\'' then '\x22' else directiveQuote cs

/-- A directive in quotes. -/
def directiveText (raw : String) : List Char :=
  let quote := directiveQuote raw.toList
  quote :: raw.toList ++ [quote]

end ComponentCompiler.Script
