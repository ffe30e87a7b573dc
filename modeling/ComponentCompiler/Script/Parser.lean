import ComponentCompiler.Script.Lexer
import ComponentCompiler.Script.Node

/-!
# Parsing over tokens

A `Parser` works on a `State`: the current token, the text around it and the `Context` that decides
what is allowed at this point.  Lists are read by `Parser.loop`, whose number of rounds is bounded
by the length of the script, and the grammar's recursion goes through the nonterminals of `Goal`.

## Main definitions

* `Context`, `State`, `Parser` — the state of reading and computations on it.
* `Goal`, `Rules` — the nonterminals that the grammar recurs through.
* `Parser.attempt`, `Parser.ahead` — reading that is taken back.
* `Parser.loop`, `Parser.separated` — repetition.
-/

namespace ComponentCompiler.Script

/-- What is allowed where reading stands. -/
structure Context where
  /-- `in` is an operator. -/
  allowIn : Bool := true
  /-- `yield` is an operator. -/
  inGenerator : Bool := false
  /-- `await` is an operator. -/
  inAsync : Bool := true
  /-- `return` is allowed. -/
  inFunction : Bool := false
  /-- Reading stands in the expression of a decorator. -/
  inDecorator : Bool := false
  /-- Declarations need no bodies or values. -/
  ambient : Bool := false
  /-- `extends` starts no conditional type. -/
  plainTypes : Bool := false
  /-- Types are part of the language. -/
  typed : Bool := false
  /-- Parentheses become nodes. -/
  keepParens : Bool := false

/-- The state of reading. -/
structure State where
  /-- The current token. -/
  token : Token
  /-- The text from the current token on. -/
  here : List Char
  /-- The text behind the current token. -/
  rest : List Char
  /-- Where the token before the current one stopped. -/
  lastStop : Nat
  /-- The length of the script in bytes. -/
  size : Nat
  /-- What is allowed here. -/
  context : Context
  /-- Opening parentheses that are known not to start the parameters of an arrow function. -/
  notArrows : List Nat := []

/-- A computation on the state of reading that may fail. -/
abbrev Parser := EStateM SyntaxError State

/-- The nonterminals that the grammar recurs through. -/
inductive Goal where
  /-- An expression, commas included. -/
  | expression
  /-- An expression without a comma at its top; the flag says whether an arrow function that
  declares its result may stand there. -/
  | assignment (resultTypes : Bool)
  /-- An operand of a binary operator. -/
  | unary
  /-- A call, an access or simpler. -/
  | leftHandSide
  /-- A name or a pattern that declares names. -/
  | binding
  /-- A statement or a declaration; the flag says whether it stands alone, as the body of
  another statement. -/
  | statement (alone : Bool)
  /-- A type. -/
  | type
  /-- A type without a function or conditional type at its top. -/
  | typeOperand

/-- How to read each nonterminal. -/
abbrev Rules := Goal → Parser Node

namespace Parser

variable {α β : Type}

/-! ### The current token -/

/-- Give up at the current token. -/
def fail : Parser α := do throw ⟨(← get).token.start⟩

/-- Give up unless a condition holds. -/
def require (b : Bool) : Parser Unit := if b then pure () else fail

/-- The current token. -/
def token : Parser Token := return (← get).token

/-- The current lexeme. -/
def lexeme : Parser Lexeme := return (← get).token.lexeme

/-- Where the current token starts. -/
def start : Parser Nat := return (← get).token.start

/-- Whether a line ends in front of the current token. -/
def onNewLine : Parser Bool := return (← get).token.newline

/-- What is allowed here. -/
def context : Parser Context := return (← get).context

/-- Whether types are part of the language. -/
def typed : Parser Bool := return (← get).context.typed

/-- Go on to the next token. -/
def advance : Parser Unit := fun s =>
  match scan s.token.stop s.rest with
  | .ok next => .ok () { s with
      token := next.token, here := next.here, rest := next.rest, lastStop := s.token.stop }
  | .error e => .error e s

/-- Read the current token again in another way. -/
def rescan (reader : List Char → Reading) : Parser Unit := fun s =>
  match reader s.here with
  | some (lexeme, n, rest) =>
      .ok () { s with token := { s.token with lexeme, stop := s.token.start + n }, rest }
  | none => .error ⟨s.token.start⟩ s

/-- Whether the current token is a symbol. -/
def atSymbol (t : String) : Parser Bool := do
  match ← lexeme with
  | .symbol u => return u == t
  | _ => return false

/-- Whether the current token is one of some symbols. -/
def atSymbols (ts : List String) : Parser Bool := do
  match ← lexeme with
  | .symbol u => return ts.contains u
  | _ => return false

/-- Whether the current token is a word written without escapes. -/
def atWord (w : String) : Parser Bool := do
  match ← lexeme with
  | .word v false => return v == w
  | _ => return false

/-- Whether the current token is one of some words written without escapes. -/
def atWords (ws : List String) : Parser Bool := do
  match ← lexeme with
  | .word v false => return ws.contains v
  | _ => return false

/-- Whether the script ends here. -/
def atFinish : Parser Bool := return (← lexeme) == .finish

/-- Whether the current token is a word that is not reserved. -/
def atIdentifier : Parser Bool := do
  match ← lexeme with
  | .word v _ => return !isReserved v
  | _ => return false

/-- Whether the current token is a word. -/
def atAnyWord : Parser Bool := do
  match ← lexeme with
  | .word _ _ => return true
  | _ => return false

/-- Whether a template starts here. -/
def atTemplate : Parser Bool := do
  match ← lexeme with
  | .template _ _ _ => return true
  | _ => return false

/-- Skip a symbol if it is the current token, and say whether it was. -/
def eatSymbol (t : String) : Parser Bool := do
  if ← atSymbol t then advance; return true else return false

/-- Skip a word if it is the current token, and say whether it was. -/
def eatWord (w : String) : Parser Bool := do
  if ← atWord w then advance; return true else return false

/-- Skip a symbol, which must be the current token. -/
def expectSymbol (t : String) : Parser Unit := do
  require (← atSymbol t)
  advance

/-- Skip a word, which must be the current token. -/
def expectWord (w : String) : Parser Unit := do
  require (← atWord w)
  advance

/-- Skip the single `<` that the current token is or starts with. -/
def expectLess : Parser Unit := do
  if ← atSymbols ["<<", "<=", "<<="] then rescan (scanSymbolOf ["<"])
  expectSymbol "<"

/-- A statement ends here: at a semicolon, which is skipped, before a closing brace, at the end of
the script or of a line. -/
def endStatement : Parser Unit := do
  if ← eatSymbol ";" then return
  require ((← atSymbol "\x7d") || (← atFinish) || (← onNewLine))

/-! ### Nodes -/

/-- A node from an offset up to the last token read. -/
def node (form : Form) (start : Nat) (parts : List Node) : Parser Node :=
  return .node form ⟨start, (← get).lastStop⟩ parts

/-! ### Context and trial -/

/-- Read with other things allowed. -/
def withContext (f : Context → Context) (p : Parser α) : Parser α := do
  let saved := (← get).context
  modify fun s => { s with context := f s.context }
  let a ← p
  modify fun s => { s with context := saved }
  return a

/-- Try to read; a failure is taken back, apart from what was learnt about parentheses. -/
def attempt (p : Parser α) : Parser (Option α) := fun s =>
  match p s with
  | .ok a s' => .ok (some a) s'
  | .error _ s' => .ok none { s with notArrows := s'.notArrows }

/-- Try to read something that must satisfy a condition; a failure is taken back. -/
def attemptIf (p : Parser (Option α)) : Parser (Option α) := fun s =>
  match p s with
  | .ok (some a) s' => .ok (some a) s'
  | .ok none s' => .ok none { s with notArrows := s'.notArrows }
  | .error _ s' => .ok none { s with notArrows := s'.notArrows }

/-- Look ahead: whatever was read is taken back, and a failure counts as the given answer. -/
def ahead (p : Parser α) (otherwise : α) : Parser α := fun s =>
  match p s with
  | .ok a _ => .ok a s
  | .error _ _ => .ok otherwise s

/-- Look ahead for a condition on what follows the current token. -/
def nextIs (p : Parser Bool) : Parser Bool := ahead (do advance; p) false

/-! ### Repetition -/

/-- What a round of a loop decides. -/
inductive Round (α : Type) where
  /-- Another round. -/
  | again (a : α) : Round α
  /-- No more rounds. -/
  | done (a : α) : Round α

/-- At most `n` rounds. -/
def rounds (step : α → Parser (Round α)) : Nat → α → Parser α
  | 0, _ => fail
  | n + 1, a => do
      match ← step a with
      | .again b => rounds step n b
      | .done b => return b

/-- Rounds until one is the last; a round reads a token, so that the text bounds their number. -/
def loop (step : α → Parser (Round α)) (a : α) : Parser α := do
  let s ← get
  rounds step (s.size - s.token.start + 2) a

/-- Read items up to a closing symbol, which is left; the items are separated by commas, and a
comma may stand behind the last one. -/
def separated (close : String) (item : Parser α) : Parser (List α) := do
  let items ← loop (fun acc => do
    if ← atSymbol close then return .done acc
    let a ← item
    if ← eatSymbol "," then return .again (a :: acc)
    require (← atSymbol close)
    return .done (a :: acc)) []
  return items.reverse

/-- Read items up to a closing symbol, which is skipped. -/
def upTo (close : String) (item : Parser α) : Parser (List α) := do
  let items ← loop (fun acc => do
    if ← eatSymbol close then return .done acc
    return .again ((← item) :: acc)) []
  return items.reverse

end Parser

end ComponentCompiler.Script
