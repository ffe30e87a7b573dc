import ComponentCompiler.Script.Grammar.Expression

/-!
# Statements

Statements other than the declarations of modules and of types.

## Main definitions

* `variableDeclaration`, `variableStatement` — declarations of variables.
* `forStatement`, `switchStatement`, `tryStatement` and so on — statements by their first word.
* `expressionStatement`, `letStatement` — statements that start with an expression or with a word
  that may also be a name.
-/

namespace ComponentCompiler.Script.Grammar

open ComponentCompiler.Script.Parser

/-- Statements in braces. -/
def block (rule : Rules) : Parser Node := do
  let i ← start
  expectSymbol "\x7b"
  let items ← upTo "\x7d" (rule (.statement false))
  node .block i items

/-- An expression in parentheses that belongs to a statement. -/
def condition (rule : Rules) : Parser Node := do
  expectSymbol "("
  let e ← bracketed (rule .expression)
  expectSymbol ")"
  return e

/-! ### Variables -/

/-- Whether a declared variable has the value that it needs: a pattern needs one, and so does a
constant.  Resources are declared by `using`; one that a loop declares needs none. -/
def hasNeededValue (inLoop : Bool) (keyword : String) (declarator : Node) : Bool :=
  match declarator.parts with
  | [target, _, .absent] =>
      match target.form? with
      | some (.name _) => keyword == "var" || keyword == "let" || (inLoop && keyword != "const")
      | _ => false
  | _ => true

/-- One variable with its type and its value. -/
def declarator (rule : Rules) : Parser Node := do
  let i ← start
  let target ← rule .binding
  if ← typed then
    let isName := target.form? matches some (.name _)
    if isName && (← atSymbol "!") && !(← onNewLine) then advance
    discard (eatSymbol "?")
  let type ← typeAnnotation rule
  let value ← if ← eatSymbol "=" then rule (.assignment true) else pure .absent
  node .declarator i [target, type, value]

/-- Variables behind the words that introduce them. -/
def variableDeclaration (rule : Rules) (i : Nat) (keyword : String) : Parser Node := do
  let items ← loop (fun (acc : List Node) => do
    let d ← declarator rule
    if ← eatSymbol "," then return .again (d :: acc)
    return .done (d :: acc)) []
  node (.variables keyword) i items.reverse

/-- Whether all variables of a declaration have the values that they need. -/
def isComplete (inLoop : Bool) (declaration : Node) : Bool :=
  match declaration with
  | .node (.variables keyword) _ ds => ds.all (hasNeededValue inLoop keyword)
  | _ => true

/-- Whether a name follows on the same line. -/
def nameFollows : Parser Bool := nextIs (do return (← atIdentifier) && !(← onNewLine))

/-- Skip `using` or `await using`, if they introduce variables here. -/
def usingKeyword? : Parser (Option String) := do
  if ← atWord "using" <&&> nameFollows then
    advance
    return some "using"
  if ← atWord "await" <&&> nextIs (do
      return !(← onNewLine) && (← atWord "using") && (← nameFollows)) then
    advance
    advance
    return some "await using"
  return none

/-- A statement that declares variables, behind its keyword. -/
def variableStatement (rule : Rules) (i : Nat) (alone : Bool) (keyword : String) :
    Parser Node := do
  require (!alone || keyword == "var")
  let d ← withContext (fun c => { c with allowIn := true }) (variableDeclaration rule i keyword)
  require ((← context).ambient || isComplete false d)
  endStatement
  node (.variables keyword) i d.parts

/-! ### Loops -/

/-- The rest of a loop over the keys or the elements of something, from its connecting word. -/
def forEach (rule : Rules) (i : Nat) (isAwait : Bool) (left : Node) : Parser Node := do
  let overKeys ← atWord "in"
  require !(overKeys && isAwait)
  advance
  let right ← bracketed (rule (if overKeys then .expression else .assignment true))
  expectSymbol ")"
  let body ← rule (.statement true)
  node (if overKeys then .forInStatement else .forOfStatement isAwait) i [left, right, body]

/-- The rest of a loop with a test and an update, from its first semicolon. -/
def forRest (rule : Rules) (i : Nat) (init : Node) : Parser Node := do
  expectSymbol ";"
  let test ← if ← atSymbol ";" then pure .absent else bracketed (rule .expression)
  expectSymbol ";"
  let step ← if ← atSymbol ")" then pure .absent else bracketed (rule .expression)
  expectSymbol ")"
  let body ← rule (.statement true)
  node .forStatement i [init, test, step, body]

/-- Skip the words that introduce variables in the head of a loop, if variables are declared there.
`let` and `using` may be names: `using of` introduces a variable only where a value or the end of
the first part follows. -/
def loopKeyword? : Parser (Option String) := do
  if ← eatWord "var" then return some "var"
  if ← eatWord "const" then return some "const"
  let letDeclares : Parser Bool := do
    return ((← atAnyWord) && !(← atWord "in")) || (← atSymbols ["[", "\x7b"])
  if ← atWord "let" <&&> nextIs letDeclares then
    advance
    return some "let"
  let isName ← atWord "using" <&&>
    nextIs (atWord "of" <&&> (not <$> nextIs (atSymbols ["=", ";", ":"])))
  if isName then return none else usingKeyword?

/-- A loop whose head declares variables, from behind the words that introduce them. -/
def forVariables (rule : Rules) (i j : Nat) (isAwait : Bool) (keyword : String) : Parser Node := do
  let d ← withContext (fun c => { c with allowIn := false }) (variableDeclaration rule j keyword)
  if ← atWords ["of", "in"] then
    require !((← atWord "in") && ["using", "await using"].contains keyword)
    forEach rule i isAwait d
  else
    require (!isAwait && isComplete true d)
    forRest rule i d

/-- A loop whose head starts with an expression.  A loop over elements may not start with `let`,
nor with `async of` unless it awaits them. -/
def forExpression (rule : Rules) (i : Nat) (isAwait : Bool) : Parser Node := do
  let startsLet ← atWord "let"
  let asyncOf ← atWord "async" <&&> nextIs (atWord "of")
  let e ← withContext (fun c => { c with allowIn := false }) (rule .expression)
  if ← atWords ["of", "in"] then
    require !((← atWord "of") && (startsLet || (asyncOf && !isAwait)))
    let t ← asTarget true e
    forEach rule i isAwait t
  else
    require !isAwait
    forRest rule i e

/-- A loop of one of the three kinds that start with `for`. -/
def forStatement (rule : Rules) : Parser Node := do
  let i ← start
  expectWord "for"
  let isAwait ← eatWord "await"
  if isAwait then require (← context).inAsync
  expectSymbol "("
  if ← atSymbol ";" then
    require !isAwait
    forRest rule i .absent
  else
    let j ← start
    match ← loopKeyword? with
    | some keyword => forVariables rule i j isAwait keyword
    | none => forExpression rule i isAwait

/-- A loop that tests first. -/
def whileStatement (rule : Rules) : Parser Node := do
  let i ← start
  expectWord "while"
  let test ← condition rule
  let body ← rule (.statement true)
  node .whileStatement i [test, body]

/-- A loop that tests last; its semicolon may be left out. -/
def doWhileStatement (rule : Rules) : Parser Node := do
  let i ← start
  expectWord "do"
  let body ← rule (.statement true)
  expectWord "while"
  let test ← condition rule
  discard (eatSymbol ";")
  node .doWhileStatement i [body, test]

/-! ### Other statements -/

/-- A choice. -/
def ifStatement (rule : Rules) : Parser Node := do
  let i ← start
  expectWord "if"
  let test ← condition rule
  let yes ← rule (.statement true)
  let no ← if ← eatWord "else" then rule (.statement true) else pure .absent
  node .ifStatement i [test, yes, no]

/-- A statement run with the properties of an object as variables. -/
def withStatement (rule : Rules) : Parser Node := do
  let i ← start
  expectWord "with"
  let e ← condition rule
  let body ← rule (.statement true)
  node .withStatement i [e, body]

/-- A jump out of a loop, or to its next round. -/
def jumpStatement (form : Form) : Parser Node := do
  let i ← start
  advance
  let label ← if (← atIdentifier) && !(← onNewLine) then identifier else pure .absent
  endStatement
  node form i [label]

/-- The end of a function with its result. -/
def returnStatement (rule : Rules) : Parser Node := do
  let i ← start
  require (← context).inFunction
  expectWord "return"
  let ends := (← atSymbols [";", "\x7d"]) || (← atFinish) || (← onNewLine)
  let e ← if ends then pure .absent else bracketed (rule .expression)
  endStatement
  node .returnStatement i [e]

/-- An error is raised; what is raised stands on the same line. -/
def throwStatement (rule : Rules) : Parser Node := do
  let i ← start
  expectWord "throw"
  require !(← onNewLine)
  let e ← bracketed (rule .expression)
  endStatement
  node .throwStatement i [e]

/-- One case of a choice by value. -/
def switchCase (rule : Rules) : Parser Node := do
  let i ← start
  let test ← if ← eatWord "default" then pure .absent else do
    expectWord "case"
    bracketed (rule .expression)
  expectSymbol ":"
  let items ← loop (fun (acc : List Node) => do
    if (← atWords ["case", "default"]) || (← atSymbol "\x7d") then return .done acc
    return .again ((← rule (.statement false)) :: acc)) []
  node .switchCase i (test :: items.reverse)

/-- A choice by value. -/
def switchStatement (rule : Rules) : Parser Node := do
  let i ← start
  expectWord "switch"
  let e ← condition rule
  expectSymbol "\x7b"
  let cases ← upTo "\x7d" (switchCase rule)
  node .switchStatement i (e :: cases)

/-- What is done about an error. -/
def catchClause (rule : Rules) : Parser Node := do
  let i ← start
  expectWord "catch"
  let (param, type) ← if ← eatSymbol "(" then do
      let p ← rule .binding
      let t ← typeAnnotation rule
      expectSymbol ")"
      pure (p, t)
    else pure (.absent, .absent)
  let body ← block rule
  node .catchClause i [param, type, body]

/-- Statements whose errors are caught, or which something follows in any case. -/
def tryStatement (rule : Rules) : Parser Node := do
  let i ← start
  expectWord "try"
  let body ← block rule
  let handler ← if ← atWord "catch" then catchClause rule else pure .absent
  let finalizer ← if ← eatWord "finally" then block rule else pure .absent
  require !(handler.isAbsent && finalizer.isAbsent)
  node .tryStatement i [body, handler, finalizer]

/-- A statement that is an expression, or one whose label is read as an expression first. -/
def expressionStatement (rule : Rules) : Parser Node := do
  let i ← start
  let e ← withContext (fun c => { c with allowIn := true }) (rule .expression)
  if ← pure (e.form? matches some (.name _)) <&&> eatSymbol ":" then
    let body ← rule (.statement true)
    node .labeledStatement i [e, body]
  else
    endStatement
    node .expressionStatement i [e]

/-- The symbols behind which a `let` is a name: assignments, and operators that compute. -/
def letOperators : List String :=
  assignmentOperators ++ ["==", "!=", "===", "!==", "<", "<=", ">", "<<", "+", "-", "*", "/", "%",
    "|", "^", "&", "**"]

/-- A statement that starts with `let`.  The word is a name in front of an operator, an access or a
call; it is one by itself in front of a semicolon, and in a statement that stands alone.  Otherwise
it declares variables. -/
def letStatement (rule : Rules) (alone : Bool) : Parser Node := do
  let i ← start
  if ← nextIs (do
      return (← atSymbols (letOperators ++ [".", "("])) || (← atWords ["in", "instanceof"])) then
    expressionStatement rule
  else if ← nextIs (do return (← atSymbol ";") || (alone && !(← atSymbol "["))) then
    let name ← identifier
    endStatement
    node .expressionStatement i [name]
  else
    advance
    variableStatement rule i alone "let"

/-- A function declaration as a statement; one that stands alone is an ordinary function. -/
def functionStatement (rule : Rules) (alone : Bool) : Parser Node := do
  let f ← functionDeclaration rule true
  match f with
  | .node (.function isAsync isGenerator _) _ _ =>
      require !(alone && (isAsync || isGenerator))
      return f
  | _ => return f

/-- The statement that a word introduces, if it is a word that only introduces statements. -/
def wordStatement? (rule : Rules) (alone : Bool) (w : String) : Option (Parser Node) :=
  match w with
  | "if" => some (ifStatement rule)
  | "for" => some (forStatement rule)
  | "while" => some (whileStatement rule)
  | "do" => some (doWhileStatement rule)
  | "continue" => some (jumpStatement .continueStatement)
  | "break" => some (jumpStatement .breakStatement)
  | "return" => some (returnStatement rule)
  | "with" => some (withStatement rule)
  | "switch" => some (switchStatement rule)
  | "throw" => some (throwStatement rule)
  | "try" => some (tryStatement rule)
  | "debugger" => some (do
      let i ← start
      advance
      endStatement
      node .debuggerStatement i [])
  | "function" => some (functionStatement rule alone)
  | "let" => some (letStatement rule alone)
  | "var" | "const" => some (do
      let i ← start
      advance
      variableStatement rule i alone w)
  | _ => none

end ComponentCompiler.Script.Grammar
