import ComponentCompiler.Script.Node

/-!
# The layout of printed scripts

An expression is printed for the spot where it stands: how tightly the spot binds decides about
parentheses, and so does the start of a statement, where a brace or the word `function` would be
read in another way.

## Main definitions

* `Level` — how tightly a spot or an operator binds.
* `Spot` — where an expression stands.
* `Printers` — how nodes below a node are printed.
* `braced`, `listLines` — blocks and lists over several lines.
-/

namespace ComponentCompiler.Script

/-- How tightly a spot or an operator binds. -/
abbrev Level := Nat

namespace Level

/-- Anything may stand here. -/
def lowest : Level := 0
/-- Anything without a comma at its top. -/
def comma : Level := 1
/-- The parts of a conditional. -/
def yield : Level := 3
/-- Assignments and arrow functions. -/
def assign : Level := 4
/-- Conditionals. -/
def conditional : Level := 5
/-- Powers. -/
def power : Level := 17
/-- Operators in front of their operand. -/
def leading : Level := 18
/-- Operators behind their operand, and what accesses and calls stand behind. -/
def trailing : Level := 19
/-- What is constructed. -/
def construct : Level := 20
/-- Calls. -/
def call : Level := 21

/-- How tightly a binary operator binds. -/
def ofBinary (operator : String) : Level :=
  match operator with
  | "??" => 6
  | "||" => 7
  | "&&" => 8
  | "|" => 9
  | "^" => 10
  | "&" => 11
  | "==" | "!=" | "===" | "!==" => 12
  | "<" | ">" | "<=" | ">=" | "in" | "instanceof" => 13
  | "<<" | ">>" | ">>>" => 14
  | "+" | "-" => 15
  | "*" | "/" | "%" => 16
  | _ => power

end Level

/-- What an expression is the start of. -/
inductive Start where
  /-- Of nothing that matters. -/
  | inner
  /-- Of a statement. -/
  | statement
  /-- Of the body of an arrow function. -/
  | arrowBody
  /-- Of what a module exports by default. -/
  | defaultExport
  deriving DecidableEq, Repr

/-- Where an expression stands. -/
structure Spot where
  /-- The number of tabs in front of lines. -/
  indent : Nat
  /-- How tightly the spot binds. -/
  level : Level := Level.lowest
  /-- What the expression is the start of. -/
  start : Start := .inner
  /-- Whether `in` needs parentheses. -/
  noIn : Bool := false
  /-- Whether calls need parentheses. -/
  noCall : Bool := false

/-- A spot inside another one. -/
def Spot.inside (s : Spot) (level : Level) : Spot := { indent := s.indent, level }

/-- A spot at the start of another one. -/
def Spot.first (s : Spot) (level : Level) : Spot := { indent := s.indent, level, start := s.start }

/-- How the nodes below a node are printed. -/
structure Printers where
  /-- An expression. -/
  expression : Spot → Node → List Char
  /-- A statement at an indentation, without the tabs in front and with the end of its line. -/
  statement : Nat → Node → List Char

/-- Tabs in front of a line. -/
def tabs (indent : Nat) : List Char := List.replicate indent '\t'

/-- A text in parentheses if it needs them. -/
def wrapIf (needed : Bool) (t : List Char) : List Char := if needed then '(' :: t ++ [')'] else t

/-- Texts with commas between them. -/
def commaList (ts : List (List Char)) : List Char := [',', ' '].intercalate ts

/-- A block with its lines. -/
def braced (indent : Nat) (lines : List (List Char)) : List Char :=
  if lines.isEmpty then ['{', '}'] else '{' :: '\n' :: lines.flatten ++ tabs indent ++ ['}']

/-- Texts with commas between them, each on a line of its own. -/
def listLines (indent : Nat) (ts : List (List Char)) : List Char :=
  '\n' :: [',', '\n'].intercalate (ts.map (tabs (indent + 1) ++ ·)) ++ '\n' :: tabs indent

/-- A statement with the tabs in front of it. -/
def Printers.line (p : Printers) (indent : Nat) (n : Node) : List Char :=
  tabs indent ++ p.statement indent n

/-- An expression that is a part of a statement. -/
def Printers.whole (p : Printers) (indent : Nat) (n : Node) : List Char :=
  p.expression { indent } n

/-- A node without the parentheses around it. -/
def Node.bare : Node → Node
  | .node .parenthesized _ [e] => e.bare
  | n => n

/-- How deep nodes are nested. -/
def Node.height : Node → Nat
  | .absent => 0
  | .node _ _ ps => heightAll ps + 1
where
  /-- How deep nodes are nested in a list. -/
  heightAll : List Node → Nat
    | [] => 0
    | n :: ns => max n.height (heightAll ns)

end ComponentCompiler.Script
