import ComponentCompiler.Script.Grammar.Parameter

/-!
# Types

Types are read for what they leave behind: a type is a node of the type level, whose parts are kept
so that expressions inside it are found.

## Main definitions

* `type`, `typeOperand` — a type, and a type without a function or conditional type at its top.
* `typeArguments`, `typeArgumentsInExpression?` — lists of types behind a name.
* `typeMembers` — the members of an interface or of an object type.
-/

namespace ComponentCompiler.Script.Grammar

open ComponentCompiler.Script.Parser

/-- A list of types behind a name. -/
def typeArguments (rule : Rules) : Parser Node := do
  let i ← start
  expectLess
  let items ← separated ">" (withContext (fun c => { c with plainTypes := false }) (rule .type))
  require !items.isEmpty
  expectSymbol ">"
  typeNode i items

/-- A list of types, if one follows on the same line. -/
def typeArguments? (rule : Rules) : Parser Node := do
  if (← typed) && (← atSymbols ["<", "<<"]) && !(← onNewLine) then typeArguments rule
  else return .absent

/-- Whether an expression may go on with what stands behind a list of types. -/
def followsTypeArguments : Parser Bool := do
  if ← atTemplate then return true
  if ← atSymbol "(" then return true
  if ← atSymbols ["<", ">", "+", "-"] then return false
  if ← onNewLine then return true
  match ← lexeme with
  | .finish => return true
  | .symbol s =>
      return [")", "]", ":", ";", ",", ".", "?.", "=", "==", "===", "!=", "!==", "&&", "||", "??",
        "^", "&", "|", "\x7d", "*", "/", "%", "<=", "?", "=>"].contains s
  | .word w _ => return ["in", "instanceof", "as", "satisfies"].contains w
  | _ => return false

/-- A list of types inside an expression; a `<` that does not start one is left alone. -/
def typeArgumentsInExpression? (rule : Rules) : Parser (Option Node) := do
  if (← typed) && (← atSymbols ["<", "<<"]) then
    attempt (do
      let types ← typeArguments rule
      -- A `>` behind the list is read as the longest operator it starts.
      if ← atSymbol ">" then rescan scanGreater
      require (← followsTypeArguments)
      return types)
  else return none

/-- A name with dots in it. -/
def qualifiedName : Parser Node := do
  let i ← start
  let first ← anyName
  loop (fun (n : Node) => do
    unless ← eatSymbol "." do return .done n
    let next ← match ← lexeme with
      | .privateWord _ => privateName
      | _ => anyName
    return .again (← typeNode i [n, next])) first

/-! ### Members of object types -/

/-- A member of a type ends here. -/
def endTypeMember : Parser Unit := do
  if ← eatSymbol ";" <||> eatSymbol "," then return
  require ((← atSymbol "\x7d") || (← atFinish) || (← onNewLine))

/-- A signature: type parameters, parameters and a result. -/
def signature (rule : Rules) : Parser (List Node) := do
  let types ← typeParameters rule
  let params ← parameters rule
  let result ← resultType rule
  return [types, params, result]

/-- Whether an index signature starts here, such as `[key: string]: T`. -/
def startsIndexSignature : Parser Bool :=
  ahead (do
    expectSymbol "["
    unless ← atAnyWord do return false
    advance
    atSymbols [":", ","]) false

/-- An index signature, up to its result. -/
def indexSignature (rule : Rules) (i : Nat) : Parser Node := do
  expectSymbol "["
  let items ← separated "]" (parameter rule)
  expectSymbol "]"
  let type ← typeAnnotation rule
  typeNode i (items ++ [type])

/-- Skip a word that modifies the member behind it. -/
def skipMemberModifiers (words : List String) : Parser Unit :=
  discard <| loop (fun _ => do
    if ← atWords words <&&> nextIs (do
        if ← onNewLine then return false
        match ← lexeme with
        | .word _ _ | .string _ | .number _ | .bigint _ | .privateWord _ => return true
        | .symbol s => return ["[", "\x7b", "*", "..."].contains s
        | _ => return false) then
      advance
      return .again ()
    return .done ()) ()

/-- A member of an interface or of an object type. -/
def typeMember (rule : Rules) : Parser Node := do
  let i ← start
  if ← atSymbols ["(", "<"] then
    let parts ← signature rule
    endTypeMember
    typeNode i parts
  else if ← atWord "new" <&&> nextIs (atSymbols ["(", "<"]) then
    advance
    let parts ← signature rule
    endTypeMember
    typeNode i parts
  else
    skipMemberModifiers ["readonly", "public", "private", "protected", "static", "declare",
      "abstract", "override", "async", "export", "accessor"]
    if ← startsIndexSignature then
      let n ← indexSignature rule i
      endTypeMember
      return n
    skipMemberModifiers ["get", "set"]
    let (key, _) ← propertyKey rule
    discard (eatSymbol "?")
    if ← atSymbols ["(", "<"] then
      let parts ← signature rule
      endTypeMember
      typeNode i (key :: parts)
    else
      let type ← typeAnnotation rule
      endTypeMember
      typeNode i [key, type]

/-- The members of an interface or of an object type, in braces. -/
def typeMembers (rule : Rules) : Parser Node := do
  let i ← start
  expectSymbol "\x7b"
  let items ← upTo "\x7d" (typeMember rule)
  typeNode i items

/-! ### Mapped types -/

/-- Whether a mapped type starts here, such as `\x7b[K in T]: U\x7d`. -/
def startsMappedType : Parser Bool :=
  ahead (do
    expectSymbol "\x7b"
    if ← atSymbols ["+", "-"] then
      advance
      return ← atWord "readonly"
    discard (eatWord "readonly")
    unless ← eatSymbol "[" do return false
    unless ← atAnyWord do return false
    advance
    atWord "in") false

/-- A mapped type. -/
def mappedType (rule : Rules) : Parser Node := do
  let i ← start
  expectSymbol "\x7b"
  if ← atSymbols ["+", "-"] then advance
  discard (eatWord "readonly")
  expectSymbol "["
  let name ← anyName
  expectWord "in"
  let domain ← rule .type
  let rename ← if ← eatWord "as" then rule .type else pure .absent
  expectSymbol "]"
  if ← atSymbols ["+", "-"] then advance
  discard (eatSymbol "?")
  let type ← typeAnnotation rule
  discard (eatSymbol ";")
  expectSymbol "\x7d"
  typeNode i [name, domain, rename, type]

/-! ### Types of one operand -/

/-- An element of a tuple type, possibly named, optional or taking the rest. -/
def tupleElement (rule : Rules) : Parser Node := do
  let i ← start
  discard (eatSymbol "...")
  let named ← atAnyWord <&&> ahead (do
    advance
    discard (eatSymbol "?")
    atSymbol ":") false
  if named then
    let name ← anyName
    discard (eatSymbol "?")
    expectSymbol ":"
    let type ← rule .type
    typeNode i [name, type]
  else
    let type ← rule .type
    discard (eatSymbol "?")
    typeNode i [type]

/-- The stretches of a template type, with the types between them. -/
def templateType (rule : Rules) : Parser Node := do
  let i ← start
  let items ← loop (fun (acc : List Node) => do
    match ← lexeme with
    | .template _ _ true => advance; return .done acc
    | .template _ _ false =>
        advance
        let t ← rule .type
        require (← atSymbol "\x7d")
        rescan scanTemplate
        return .again (t :: acc)
    | _ => fail) []
  typeNode i items.reverse

/-- A type taken from another module, behind `import`. -/
def importType (rule : Rules) : Parser Node := do
  let i ← start
  expectWord "import"
  expectSymbol "("
  let source ← rule .type
  let more ← eatSymbol ","
  let options ← if more && !(← atSymbol ")") then rule (.assignment true) else pure .absent
  discard (eatSymbol ",")
  expectSymbol ")"
  let name ← if ← eatSymbol "." then qualifiedName else pure .absent
  let types ← typeArguments? rule
  typeNode i [source, options, name, types]

/-- A type that is not made from others by a suffix. -/
def simpleType (rule : Rules) : Parser Node := do
  let i ← start
  match ← lexeme with
  | .string _ | .number _ | .bigint _ => advance; typeNode i []
  | .template _ _ _ => templateType rule
  | .symbol "-" =>
      advance
      match ← lexeme with
      | .number _ | .bigint _ => advance; typeNode i []
      | _ => fail
  | .symbol "\x7b" =>
      if ← startsMappedType then mappedType rule else typeMembers rule
  | .symbol "[" =>
      advance
      let items ← separated "]" (tupleElement rule)
      expectSymbol "]"
      typeNode i items
  | .symbol "(" =>
      advance
      let t ← withContext (fun c => { c with plainTypes := false }) (rule .type)
      expectSymbol ")"
      typeNode i [t]
  | .word w _ =>
      if ["this", "null", "void", "true", "false"].contains w then advance; typeNode i []
      else if w == "typeof" then
        advance
        let subject ← if ← atWord "import" then importType rule else qualifiedName
        let types ← typeArguments? rule
        typeNode i [subject, types]
      else if w == "import" then importType rule
      else
        require !(isReserved w)
        let name ← qualifiedName
        let types ← typeArguments? rule
        typeNode i [name, types]
  | _ => fail

/-- Whether a type starts here. -/
def startsType : Parser Bool := do
  match ← lexeme with
  | .string _ | .number _ | .bigint _ | .template _ _ _ => return true
  | .symbol s => return ["-", "\x7b", "[", "(", "<", "|", "&"].contains s
  | .word w _ =>
      return !isReserved w ||
        ["this", "null", "void", "true", "false", "typeof", "import", "new"].contains w
  | _ => return false

/-- A type with the brackets behind it. -/
def postfixType (rule : Rules) : Parser Node := do
  let i ← start
  let first ← simpleType rule
  loop (fun (t : Node) => do
    if (← atSymbol "[") && !(← onNewLine) then
      advance
      if ← eatSymbol "]" then return .again (← typeNode i [t])
      let key ← rule .type
      expectSymbol "]"
      return .again (← typeNode i [t, key])
    return .done t) first

/-- A name introduced by `infer`, with a bound that is no part of a conditional type. -/
def inferType (rule : Rules) (i : Nat) : Parser Node := do
  let name ← identifier
  let bound ← attemptIf (do
    unless ← eatWord "extends" do return none
    let t ← withContext (fun c => { c with plainTypes := true }) (rule .type)
    if !(← context).plainTypes && (← atSymbol "?") then return none
    return some t)
  typeNode i [name, bound.getD .absent]

/-- A type with the operators in front of it. -/
def operatorType (rule : Rules) : Parser Node := do
  let i ← start
  if ← atWords ["keyof", "unique", "readonly"] <&&> nextIs startsType then
    advance
    let t ← rule .typeOperand
    typeNode i [t]
  else if ← atWord "infer" <&&> nextIs atIdentifier then
    advance
    inferType rule i
  else postfixType rule

/-- Types joined by an operator, which may also stand in front of the first. -/
def joinedType (operator : String) (operand : Parser Node) : Parser Node := do
  let i ← start
  let led ← eatSymbol operator
  let first ← operand
  if led || (← atSymbol operator) then
    let items ← loop (fun (acc : List Node) => do
      unless ← eatSymbol operator do return .done acc
      return .again ((← operand) :: acc)) [first]
    typeNode i items.reverse
  else return first

/-- Whether a list of parameters for certain starts here, rather than a type in parentheses. -/
def startsFunctionType (rule : Rules) : Parser Bool := do
  if ← atSymbol "<" then return true
  if (← atWord "new") then return true
  if ← atWord "abstract" <&&> nextIs (atWord "new") then return true
  unless ← atSymbol "(" do return false
  ahead (do
    advance
    if ← atSymbols [")", "..."] then return true
    skipParameterModifiers
    if (← atIdentifier) || (← atWord "this") then advance
    else if ← atSymbols ["[", "\x7b"] then discard (rule .binding)
    else return false
    if ← atSymbols [":", ",", "?", "="] then return true
    eatSymbol ")" <&&> atSymbol "=>") false

/-- The type of a function or of a constructor. -/
def functionType (rule : Rules) : Parser Node := do
  let i ← start
  discard (eatWord "abstract")
  discard (eatWord "new")
  let types ← typeParameters rule
  let params ← parameters rule
  expectSymbol "=>"
  let result ← typeOrPredicate rule
  typeNode i [types, params, result]

/-- A function type may stand as an operand of a join. -/
def joinOperand (rule : Rules) : Parser Node := do
  if ← startsFunctionType rule then functionType rule else operatorType rule

/-- A type without a function or conditional type at its top. -/
def typeOperand (rule : Rules) : Parser Node := operatorType rule

/-- A type. -/
def type (rule : Rules) : Parser Node := do
  let i ← start
  if ← startsFunctionType rule then functionType rule
  else
    let t ← joinedType "|" (joinedType "&" (joinOperand rule))
    let open_ := !(← context).plainTypes && !(← onNewLine)
    if ← pure open_ <&&> eatWord "extends" then
      let bound ← withContext (fun c => { c with plainTypes := true }) (rule .type)
      expectSymbol "?"
      let yes ← withContext (fun c => { c with plainTypes := false }) (rule .type)
      expectSymbol ":"
      let no ← withContext (fun c => { c with plainTypes := false }) (rule .type)
      typeNode i [t, bound, yes, no]
    else return t

end ComponentCompiler.Script.Grammar
