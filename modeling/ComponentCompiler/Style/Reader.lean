import ComponentCompiler.Text.Blank
import ComponentCompiler.Style.Error
import ComponentCompiler.Style.Piece
import ComponentCompiler.Style.Sheet

/-!
# Reading stylesheets

A stylesheet is read piece by piece.  The reader knows the blocks that are open and what it is in
the middle of (`Phase`); a piece that may be structure moves it on, and every other piece only adds
to the text of the item under way.  Brackets hide structure: a brace or a semicolon counts only
where no bracket is open.

## Main definitions

* `stripComments`, `splitSelectors`, `declaration?` — the texts of items.
* `Reader`, `Reader.step`, `Reader.finish` — reading piece by piece.
* `parse` — the stylesheet that a text denotes, or what is wrong with it.
-/

namespace ComponentCompiler.Style

open Text (byteLength trim isPlainBlank)

/-! ### The texts of items -/

/-- Where stripping of comments stands. -/
inductive Strip where
  /-- Outside strings and comments. -/
  | outside
  /-- In a string. -/
  | string (quote : Char)
  /-- In a comment. -/
  | comment

/-- A text without its comments, from a given standpoint. -/
def stripFrom : Strip → List Char → List Char
  | .outside, '/' :: '*' :: cs => stripFrom .comment cs
  | .outside, c :: cs => c :: stripFrom (if isQuote c then .string c else .outside) cs
  | .string q, '\\' :: c :: cs => '\\' :: c :: stripFrom (.string q) cs
  | .string q, c :: cs => c :: stripFrom (if c == q then .outside else .string q) cs
  | .comment, '*' :: '/' :: cs => stripFrom .outside cs
  | .comment, _ :: cs => stripFrom .comment cs
  | _, [] => []

/-- A text without its comments; what looks like a comment in a string is none. -/
def stripComments (cs : List Char) : List Char := stripFrom .outside cs

/-- Cut a list of selectors at its commas; commas in strings, in brackets and behind a backslash
do not count.  `quote` is the string that reading stands in, `depth` the number of open brackets,
and `read` the selector so far, latest character first. -/
def cutSelectors (quote : Option Char) (depth : Nat) (read : List Char) :
    List Char → List (List Char)
  | '\\' :: c :: cs => cutSelectors quote depth (c :: '\\' :: read) cs
  | c :: cs =>
      match quote with
      | some q => cutSelectors (if c == q then none else some q) depth (c :: read) cs
      | none =>
          if isQuote c then cutSelectors (some c) depth (c :: read) cs
          else if c == '(' || c == '[' then cutSelectors none (depth + 1) (c :: read) cs
          else if c == ')' || c == ']' then cutSelectors none (depth - 1) (c :: read) cs
          else if c == ',' && depth == 0 then read.reverse :: cutSelectors none 0 [] cs
          else cutSelectors none depth (c :: read) cs
  | [] => [read.reverse]

/-- The selectors in front of a block: without comments and blanks around them, and without the
empty ones. -/
def splitSelectors (cs : List Char) : List String :=
  ((cutSelectors none 0 [] (stripComments cs)).map trim).filterMap fun s =>
    if s.isEmpty then none else some (String.ofList s)

/-- A declaration from its text: what stands before and behind the first colon. -/
def declaration? (cs : List Char) : Option Item :=
  let text := stripComments cs
  let property := text.takeWhile (· != ':')
  match text.drop property.length with
  | [] => none
  | _ :: value =>
      some (.declaration (String.ofList (trim property)) (String.ofList (trim value)))

/-! ### Reading piece by piece -/

/-- The characters of the name behind an at-sign. -/
def isNameChar (c : Char) : Bool :=
  c.isAlphanum || c == '-' || c == '_' || 0x80 ≤ c.toNat

/-- What an open block belongs to. -/
inductive Head where
  /-- A rule for selectors. -/
  | rule (selectors : List String)
  /-- A group. -/
  | group (name prelude : String)

/-- The node of a block that is complete. -/
def Head.toNode (items : List Item) : Head → Node
  | .rule ss => .rule ss items
  | .group n p => .group n p items

/-- A block that is open. -/
structure Block where
  /-- What the block belongs to. -/
  head : Head
  /-- Where its brace stands, in bytes. -/
  opened : Nat
  /-- Its items so far, latest first. -/
  items : List Item := []

/-- What the reader is in the middle of.  Texts are held latest character first. -/
inductive Phase where
  /-- Between items. -/
  | idle
  /-- In an item that is a rule or a declaration, which the next brace or semicolon decides. -/
  | item (start depth : Nat) (text : List Char)
  /-- In the name behind an at-sign. -/
  | atName (text : List Char)
  /-- Between the name behind an at-sign and its block or semicolon. -/
  | prelude (name : String) (depth : Nat) (text : List Char)
  /-- In a block that is kept as it is written, with `depth` braces open in it. -/
  | raw (name prelude : String) (opened depth : Nat) (text : List Char)

/-- The state of reading. -/
structure Reader where
  /-- The number of bytes read. -/
  offset : Nat := 0
  /-- What the reader is in the middle of. -/
  phase : Phase := .idle
  /-- The blocks that are open, innermost first. -/
  blocks : List Block := []
  /-- The complete nodes outside every block, latest first. -/
  nodes : List Node := []

namespace Reader

/-- The reader with a further complete node, in the innermost open block if there is one. -/
def addNode (r : Reader) (n : Node) : Reader :=
  match r.blocks with
  | [] => { r with nodes := n :: r.nodes }
  | b :: bs => { r with blocks := { b with items := .nested n :: b.items } :: bs }

/-- The reader with a further comment. -/
def addComment (r : Reader) (text : List Char) : Reader :=
  match r.blocks with
  | [] => { r with nodes := .comment (String.ofList text) :: r.nodes }
  | b :: bs =>
      { r with blocks := { b with items := .comment (String.ofList text) :: b.items } :: bs }

/-- The reader with the innermost block closed. -/
def close (r : Reader) : Except CssError Reader :=
  match r.blocks with
  | [] => .error (.fault .unexpectedClose r.offset)
  | b :: bs => .ok ({ r with blocks := bs, phase := .idle }.addNode (b.head.toNode b.items.reverse))

/-- The reader with a further open block. -/
def openBlock (r : Reader) (head : Head) : Reader :=
  { r with phase := .idle, blocks := { head, opened := r.offset } :: r.blocks }

/-- The reader behind an item without a block: in a block it is a declaration, outside every block
it should have been a rule. -/
def endItem (r : Reader) (start : Nat) (text : List Char) : Except CssError Reader :=
  match r.blocks with
  | [] => .error (.fault .missingBlock start)
  | b :: bs =>
      match declaration? text.reverse with
      | none => .error (.fault .missingColon start)
      | some d => .ok { r with phase := .idle, blocks := { b with items := d :: b.items } :: bs }

/-- The reader behind a rule with an at-sign that has no block. -/
def endAtRule (r : Reader) (name : String) (text : List Char) : Reader :=
  { r with phase := .idle }.addNode (.atRule name (String.ofList (trim text.reverse)) none)

/-- The number of open brackets behind a character. -/
def bracketDepth (depth : Nat) (c : Char) : Nat :=
  if c == '(' || c == '[' then depth + 1
  else if c == ')' || c == ']' then depth - 1
  else depth

/-- Read a character of a rule or a declaration. -/
def itemChar (r : Reader) (start depth : Nat) (text : List Char) (c : Char) :
    Except CssError Reader :=
  match depth, c with
  | 0, '{' => .ok (r.openBlock (.rule (splitSelectors text.reverse)))
  | 0, ';' => r.endItem start text
  | 0, '}' => do (← r.endItem start text).close
  | _, _ => .ok { r with phase := .item start (bracketDepth depth c) (c :: text) }

/-- Read a character behind the name of a rule with an at-sign. -/
def preludeChar (r : Reader) (name : String) (depth : Nat) (text : List Char) (c : Char) :
    Except CssError Reader :=
  match depth, c with
  | 0, '{' =>
      let prelude := String.ofList (trim text.reverse)
      if isGroupName name then .ok (r.openBlock (.group name prelude))
      else .ok { r with phase := .raw name prelude r.offset 0 [] }
  | 0, ';' => .ok (r.endAtRule name text)
  | 0, '}' => (r.endAtRule name text).close
  | _, _ => .ok { r with phase := .prelude name (bracketDepth depth c) (c :: text) }

/-- Read a character of a block that is kept as it is written. -/
def rawChar (r : Reader) (name prelude : String) (opened depth : Nat) (text : List Char)
    (c : Char) : Reader :=
  match c, depth with
  | '}', 0 =>
      { r with phase := .idle }.addNode
        (.atRule name prelude (some (String.ofList (trim text.reverse))))
  | '}', d + 1 => { r with phase := .raw name prelude opened d (c :: text) }
  | '{', d => { r with phase := .raw name prelude opened (d + 1) (c :: text) }
  | _, d => { r with phase := .raw name prelude opened d (c :: text) }

/-- Read a character that may be structure. -/
def readChar (r : Reader) (c : Char) : Except CssError Reader :=
  match r.phase with
  | .idle =>
      if isPlainBlank c || c == ';' then .ok r
      else if c == '}' then r.close
      else if c == '@' then .ok { r with phase := .atName [] }
      else r.itemChar r.offset 0 [] c
  | .item start depth text => r.itemChar start depth text c
  | .atName text =>
      if isNameChar c then .ok { r with phase := .atName (c :: text) }
      else r.preludeChar (String.ofList text.reverse) 0 [] c
  | .prelude name depth text => r.preludeChar name depth text c
  | .raw name prelude opened depth text => .ok (r.rawChar name prelude opened depth text c)

/-- Read a piece that holds no structure: it adds to the item under way, or starts one. -/
def readText (r : Reader) (source : List Char) : Reader :=
  match r.phase with
  | .idle => { r with phase := .item r.offset 0 source.reverse }
  | .item start depth text => { r with phase := .item start depth (source.reverse ++ text) }
  | .atName text => { r with phase := .prelude (String.ofList text.reverse) 0 source.reverse }
  | .prelude name depth text =>
      { r with phase := .prelude name depth (source.reverse ++ text) }
  | .raw name prelude opened depth text =>
      { r with phase := .raw name prelude opened depth (source.reverse ++ text) }

/-- Read a comment: between items it is an item, inside one it is part of its text. -/
def readComment (r : Reader) (inside : List Char) : Reader :=
  match r.phase with
  | .idle => r.addComment inside
  | _ => r.readText (Piece.comment inside).source

/-- Read a piece, without moving on. -/
def readPiece (r : Reader) : Piece → Except CssError Reader
  | .char c => r.readChar c
  | .comment inside => .ok (r.readComment inside)
  | .openString _ _ => .error (.fault .unterminatedString r.offset)
  | .openComment _ => .error (.fault .unterminatedComment r.offset)
  | p => .ok (r.readText p.source)

/-- Read a piece. -/
def step (r : Reader) (p : Piece) : Except CssError Reader := do
  let r' ← r.readPiece p
  return { r' with offset := r.offset + byteLength p.source }

/-- Every block must be closed at the end. -/
def settle (r : Reader) : Except CssError Stylesheet :=
  match r.blocks with
  | [] => .ok ⟨r.nodes.reverse⟩
  | b :: _ => .error (.fault .unclosedBlock b.opened)

/-- The stylesheet that was read.  The end of the text ends a rule with an at-sign and, in a
block, a declaration. -/
def finish (r : Reader) : Except CssError Stylesheet :=
  match r.phase with
  | .idle => r.settle
  | .item start _ text => do (← r.endItem start text).settle
  | .atName text => (r.endAtRule (String.ofList text.reverse) []).settle
  | .prelude name _ text => (r.endAtRule name text).settle
  | .raw _ _ opened _ _ => .error (.fault .unclosedBlock opened)

end Reader

/-- The stylesheet that a text denotes, or what is wrong with it. -/
def parse (css : String) : Except CssError Stylesheet := do
  ((← (pieces css.toList).foldlM Reader.step {}).finish)

end ComponentCompiler.Style
