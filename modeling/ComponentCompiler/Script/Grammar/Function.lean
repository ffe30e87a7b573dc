import ComponentCompiler.Script.Grammar.Type

/-!
# Functions

## Main definitions

* `directed` — statements with the directives in front of them.
* `functionBody`, `functionRest`, `methodFrom` — functions behind their keywords and keys.
-/

namespace ComponentCompiler.Script.Grammar

open ComponentCompiler.Script.Parser

/-- The text between the quotes of the string that is the current token, if it is one. -/
def rawString? : Parser (Option String) := do
  let s ← get
  match s.token.lexeme, s.here with
  | .string _, quote :: cs => return (stringBody quote [] cs).map (String.ofList ·.1.reverse)
  | _, _ => return none

/-- Statements up to an end, with the directives in front of them.  A directive is a statement
that is a string and nothing else. -/
def directed (rule : Rules) (atEnd : Parser Bool) : Parser (List Node) := do
  let (items, _) ← loop (fun (acc : List Node × Bool) => do
    if ← atEnd then return .done acc
    let raw ← rawString?
    let stmt ← rule (.statement false)
    match acc.2, raw, stmt with
    | true, some raw, .node .expressionStatement s [.node (.string v) t []] =>
        if s.start == t.start then
          return .again (.node (.directive raw) s [.node (.string v) t []] :: acc.1, true)
        else return .again (stmt :: acc.1, false)
    | _, _, _ => return .again (stmt :: acc.1, false)) ([], true)
  return items.reverse

/-- The body of a function in braces. -/
def functionBody (rule : Rules) : Parser Node := do
  let i ← start
  expectSymbol "\x7b"
  let items ← directed rule (atSymbol "\x7d")
  expectSymbol "\x7d"
  node .functionBody i items

/-- What is allowed inside a function. -/
def insideFunction (isAsync isGenerator : Bool) (c : Context) : Context :=
  { c with allowIn := true, inGenerator := isGenerator, inAsync := isAsync, inFunction := true,
           inDecorator := false }

/-- The parameters, the result and the body of a function.  The body may be left out where
declarations without bodies are part of the language. -/
def functionRest (rule : Rules) (isAsync isGenerator isExpression : Bool) (start : Nat)
    (name : Node) : Parser Node := do
  let parts ← withContext (insideFunction isAsync isGenerator) (do
    let types ← typeParameters rule
    let params ← parameters rule
    let result ← resultType rule
    if (← typed) && !(← atSymbol "\x7b") then
      return [types, params, result, .absent]
    return [types, params, result, ← functionBody rule])
  let bodiless := match parts with
    | [_, _, _, .absent] => true
    | _ => false
  if bodiless then endStatement
  node (.function isAsync isGenerator isExpression) start (name :: parts)

/-- The name of a function that need not have one. -/
def functionName? (isAsync isGenerator : Bool) : Parser Node := do
  if ← atIdentifier then
    withContext (fun c => { c with inAsync := isAsync, inGenerator := isGenerator }) identifier
  else return .absent

/-- A function that is an expression, from its first word. -/
def functionExpression (rule : Rules) : Parser Node := do
  let i ← start
  let isAsync ← eatWord "async"
  expectWord "function"
  let isGenerator ← eatSymbol "*"
  let name ← functionName? isAsync isGenerator
  functionRest rule isAsync isGenerator true i name

/-- A function declaration, from its first word; `named` says whether it needs a name. -/
def functionDeclaration (rule : Rules) (named : Bool) : Parser Node := do
  let i ← start
  let isAsync ← eatWord "async"
  expectWord "function"
  let isGenerator ← eatSymbol "*"
  let name ← if named || (← atIdentifier) then identifier else pure .absent
  functionRest rule isAsync isGenerator false i name

/-- The parameters of a function that count, without the one for `this`. -/
def countedParameters (function : Node) : List Node :=
  match function.parts with
  | [_, _, params, _, _] => params.parts.filter (!isThisParameter ·)
  | _ => []

/-- Whether the parameters of a function suit its role: a getter has none, and a setter has one
that does not take the rest. -/
def suits (style : PropertyStyle) (function : Node) : Bool :=
  match style, countedParameters function with
  | .getter, ps => ps.isEmpty
  | .setter, [p] =>
      match p.parts with
      | .node .rest _ _ :: _ => false
      | _ => true
  | .setter, _ => false
  | _, _ => true

/-- A function without its keyword, from its parameters. -/
def methodFrom (rule : Rules) (style : PropertyStyle) (isAsync isGenerator : Bool) :
    Parser Node := do
  let i ← start
  let f ← functionRest rule isAsync isGenerator true i .absent
  require (suits style f)
  return f

end ComponentCompiler.Script.Grammar
