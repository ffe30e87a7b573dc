import ComponentCompiler.Text.Offset

/-!
# The pieces of a stylesheet

Strings, comments and characters behind a backslash never hold structure, whatever characters they
are made of.  A text is therefore cut into pieces first: each such stretch is one piece, and every
other character is a piece of its own.  Cutting loses nothing: the sources of the pieces, one after
the other, are the text.

A string or a comment that is never closed is a piece too.  It is the last one, and an error only
for a reader that gets to it.

## Main definitions

* `Piece`, `Piece.source` — a piece and the text it was cut from.
* `pieces` — a text cut into pieces.
-/

namespace ComponentCompiler.Style

/-- A stretch of a stylesheet that is read as a whole. -/
inductive Piece where
  /-- A character that may be structure. -/
  | char (c : Char)
  /-- A character behind a backslash. -/
  | escape (c : Char)
  /-- A string: its quote and what stands between its quotes. -/
  | string (quote : Char) (inside : List Char)
  /-- A comment: what stands between its marks. -/
  | comment (inside : List Char)
  /-- A string that is never closed. -/
  | openString (quote : Char) (inside : List Char)
  /-- A comment that is never closed. -/
  | openComment (inside : List Char)
  deriving DecidableEq, Repr

/-- The text that a piece was cut from. -/
def Piece.source : Piece → List Char
  | .char c => [c]
  | .escape c => ['\\', c]
  | .string q cs => q :: cs ++ [q]
  | .comment cs => '/' :: '*' :: cs ++ ['*', '/']
  | .openString q cs => q :: cs
  | .openComment cs => '/' :: '*' :: cs

/-- The two characters that open and close strings. -/
def isQuote (c : Char) : Bool := c == '\x22' || c == '\x27'

/-- Where cutting stands. -/
inductive Cut where
  /-- Between pieces. -/
  | outside
  /-- In a string, with what was read of it, latest first. -/
  | string (quote : Char) (read : List Char)
  /-- In a comment, with what was read of it, latest first. -/
  | comment (read : List Char)

/-- Cut a text into pieces. -/
def piecesFrom : Cut → List Char → List Piece
  | .outside, '/' :: '*' :: cs => piecesFrom (.comment []) cs
  | .outside, '\\' :: c :: cs => .escape c :: piecesFrom .outside cs
  | .outside, c :: cs =>
      if isQuote c then piecesFrom (.string c []) cs else .char c :: piecesFrom .outside cs
  | .outside, [] => []
  | .string q r, '\\' :: c :: cs => piecesFrom (.string q (c :: '\\' :: r)) cs
  | .string q r, c :: cs =>
      if c == q then .string q r.reverse :: piecesFrom .outside cs
      else piecesFrom (.string q (c :: r)) cs
  | .string q r, [] => [.openString q r.reverse]
  | .comment r, '*' :: '/' :: cs => .comment r.reverse :: piecesFrom .outside cs
  | .comment r, c :: cs => piecesFrom (.comment (c :: r)) cs
  | .comment r, [] => [.openComment r.reverse]

/-- A text cut into pieces. -/
def pieces (cs : List Char) : List Piece := piecesFrom .outside cs

end ComponentCompiler.Style
