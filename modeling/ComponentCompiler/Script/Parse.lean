import ComponentCompiler.Script.Grammar.Declaration

/-!
# Reading a script

A script is read as a module: it may import and export, and `await` is an operator at its top.
Reading is about the grammar alone; that a name is declared twice or a label missing is no matter
of the grammar.

## Main definitions

* `ReadOptions` — which language is read.
* `parse` — the syntax of a script, or where it breaks the grammar.
-/

namespace ComponentCompiler.Script

open ComponentCompiler.Script.Parser

/-- Which language is read. -/
structure ReadOptions where
  /-- Types are part of the language. -/
  typed : Bool := false
  /-- Parentheses become nodes. -/
  keepParens : Bool := false

namespace Grammar

/-- How a nonterminal is read when the nonterminals below it are read by `rule`. -/
def expand (rule : Rules) : Rules
  | .expression => expression rule
  | .assignment resultTypes => assignment rule resultTypes
  | .unary => unary rule
  | .leftHandSide => leftHandSide rule
  | .binding => binding rule
  | .statement alone => statement rule alone
  | .type => type rule
  | .typeOperand => typeOperand rule

/-- How a nonterminal is read, at most `n` nonterminals deep. -/
def rulesAtDepth : Nat → Rules
  | 0, _ => fail
  | n + 1, goal => expand (rulesAtDepth n) goal

/-- The nonterminals that can follow each other without a token being read are fewer than this, so
that a script bounds the depth of its own syntax. -/
def depthPerToken : Nat := 16

/-- How a nonterminal is read in a script of a given length. -/
def rules (size : Nat) : Rules := rulesAtDepth (depthPerToken * (size + 2))

/-- Whether no default is left that only a pattern can have. -/
def isSettled (n : Node) : Bool := !n.any (· == .defaultedName)

/-- A whole script: its statements, none of them with a default that only a pattern can have, and
no name exported twice where types are not part of the language. -/
def program (size : Nat) : Parser Node := do
  let items ← directed (rules size) atFinish
  let root : Node := .node .program ⟨0, size⟩ items
  require (isSettled root)
  let names := exportedNames root
  require ((← typed) || areDistinct names)
  return root

end Grammar

/-- The state in which reading starts. -/
def initialState (options : ReadOptions) (size offset : Nat) (first : Scanned) : State :=
  { token := first.token, here := first.here, rest := first.rest, lastStop := offset, size,
    context := { typed := options.typed, keepParens := options.keepParens } }

/-- The syntax of a script, or where it breaks the grammar. -/
def parse (options : ReadOptions) (cs : List Char) : Except SyntaxError Node :=
  let size := Text.byteLength cs
  let (offset, text) := skipOpening cs
  match scan offset text with
  | .error e => .error e
  | .ok first =>
      match Grammar.program size (initialState options size offset first) with
      | .ok n _ => .ok n
      | .error e _ => .error e

end ComponentCompiler.Script
