import ComponentCompiler.Script.Grammar.Pattern

/-!
# Parameters

What stands between the name and the body of a function: type parameters, parameters and the type
of the result.  Everything about types is read only where types are part of the language.

## Main definitions

* `typeAnnotation`, `resultType`, `typeParameters` — the types of a signature.
* `decorators`, `parameters` — its parameters.
-/

namespace ComponentCompiler.Script.Grammar

open ComponentCompiler.Script.Parser

/-- A node of the type level. -/
def typeNode (start : Nat) (parts : List Node) : Parser Node := node .typeLevel start parts

/-- A type behind a colon, if there is one. -/
def typeAnnotation (rule : Rules) : Parser Node := do
  if ← typed <&&> eatSymbol ":" then
    withContext (fun c => { c with plainTypes := false }) (rule .type)
  else return .absent

/-- A type, or what a function says about one of its parameters when it returns. -/
def typeOrPredicate (rule : Rules) : Parser Node := do
  let i ← start
  let asserts ← atWord "asserts" <&&>
    nextIs (do return ((← atIdentifier) || (← atWord "this")) && !(← onNewLine))
  if asserts then
    advance
    let subject ← anyName
    let type ← if (← atWord "is") && !(← onNewLine) then advance; rule .type else pure .absent
    typeNode i [subject, type]
  else
    let predicate ← (atIdentifier <||> atWord "this") <&&>
      nextIs (do return (← atWord "is") && !(← onNewLine))
    if predicate then
      let subject ← anyName
      advance
      let type ← rule .type
      typeNode i [subject, type]
    else rule .type

/-- The type of a result behind a colon, if there is one. -/
def resultType (rule : Rules) : Parser Node := do
  if ← typed <&&> eatSymbol ":" then
    withContext (fun c => { c with plainTypes := false }) (typeOrPredicate rule)
  else return .absent

/-- One type parameter, with its bound and its default. -/
def typeParameter (rule : Rules) : Parser Node := do
  let i ← start
  discard <| loop (fun _ => do
    if ← atWords ["const", "in", "out"] <&&>
        nextIs (do return (← atAnyWord) && !(← atWord "extends")) then
      advance
      return .again ()
    return .done ()) ()
  let name ← identifier
  let bound ← if ← eatWord "extends" then rule .type else pure .absent
  let default ← if ← eatSymbol "=" then rule .type else pure .absent
  typeNode i [name, bound, default]

/-- A list of type parameters, if there is one. -/
def typeParameters (rule : Rules) : Parser Node := do
  if (← typed) && (← atSymbol "<") then
    let i ← start
    advance
    let items ← separated ">" (typeParameter rule)
    require !items.isEmpty
    expectSymbol ">"
    typeNode i items
  else return .absent

/-- The decorators in front of a declaration. -/
def decorators (rule : Rules) : Parser (List Node) := do
  let items ← loop (fun (acc : List Node) => do
    unless ← atSymbol "@" do return .done acc
    let i ← start
    advance
    let e ← withContext (fun c => { c with inDecorator := true }) (rule .leftHandSide)
    return .again ((← node .decorator i [e]) :: acc)) []
  return items.reverse

/-- Skip the words that make a parameter a member of its class. -/
def skipParameterModifiers : Parser Unit := do
  if ← typed then
    discard <| loop (fun _ => do
      if ← atWords ["public", "private", "protected", "readonly", "override"] <&&>
          nextIs (do return (← atAnyWord) || (← atSymbols ["\x7b", "["])) then
        advance
        return .again ()
      return .done ()) ()

/-- The parameter that gives the type of `this`. -/
def thisParameter (rule : Rules) : Parser Node := do
  let i ← start
  let name ← anyName
  let type ← typeAnnotation rule
  node .parameter i [name, type, .absent]

/-- Whether a parameter gives the type of `this`. -/
def isThisParameter (param : Node) : Bool :=
  match param with
  | .node .parameter _ (.node (.name "this") _ _ :: _) => true
  | _ => false

/-- One parameter. -/
def parameter (rule : Rules) : Parser Node := do
  let i ← start
  let ds ← decorators rule
  skipParameterModifiers
  if (← typed) && (← atWord "this") then thisParameter rule
  else
    let target ← rule .binding
    if ← typed then discard (eatSymbol "?")
    let type ← typeAnnotation rule
    let value ← if ← eatSymbol "=" then
        withContext (fun c => { c with allowIn := true }) (rule (.assignment true))
      else pure .absent
    node .parameter i (ds ++ [target, type, value])

/-- The parameter that takes the rest of the arguments; it stands last, without a comma. -/
def restParameter (rule : Rules) : Parser Node := do
  let i ← start
  let r ← bindingRest rule
  if ← typed then discard (eatSymbol "?")
  let type ← typeAnnotation rule
  require (← atSymbol ")")
  node .parameter i [r, type, .absent]

/-- A list of parameters in parentheses. -/
def parameters (rule : Rules) : Parser Node := do
  let i ← start
  expectSymbol "("
  let items ← separated ")" (do
    if ← atSymbol "..." then restParameter rule else parameter rule)
  expectSymbol ")"
  node .parameters i items

end ComponentCompiler.Script.Grammar
