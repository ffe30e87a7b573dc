import ComponentCompiler.Script.Grammar.Statement

/-!
# Declarations of types and of modules

## Main definitions

* `typedDeclaration` — declarations that only types have a use for.
* `importDeclaration`, `exportDeclaration` — what a module takes and gives.
* `exportedNames` — the names that a script exports.
* `statement` — any statement or declaration.
-/

namespace ComponentCompiler.Script.Grammar

open ComponentCompiler.Script.Parser

/-! ### Types -/

/-- An interface, from its keyword. -/
def interfaceDeclaration (rule : Rules) (i : Nat) : Parser Node := do
  expectWord "interface"
  let name ← identifier
  let types ← typeParameters rule
  let bases ← if ← eatWord "extends" then
      loop (fun (acc : List Node) => do
        let t ← rule .type
        if ← eatSymbol "," then return .again (t :: acc)
        return .done (t :: acc)) []
    else pure []
  let body ← typeMembers rule
  typeNode i ([name, types] ++ bases.reverse ++ [body])

/-- A name for a type, from its keyword. -/
def aliasDeclaration (rule : Rules) (i : Nat) : Parser Node := do
  expectWord "type"
  let name ← identifier
  let types ← typeParameters rule
  expectSymbol "="
  let t ← rule .type
  endStatement
  typeNode i [name, types, t]

/-- An enumeration, from its keyword. -/
def enumDeclaration (rule : Rules) (i : Nat) : Parser Node := do
  discard (eatWord "const")
  expectWord "enum"
  let name ← identifier
  expectSymbol "\x7b"
  let items ← separated "\x7d" (do
    let j ← start
    let (key, _) ← propertyKey rule
    let value ← if ← eatSymbol "=" then rule (.assignment true) else pure .absent
    typeNode j [key, value])
  expectSymbol "\x7d"
  typeNode i (name :: items)

/-- The statements of a namespace. -/
def namespaceBody (rule : Rules) : Parser Node := do
  let i ← start
  expectSymbol "\x7b"
  let items ← directed rule (atSymbol "\x7d")
  expectSymbol "\x7d"
  typeNode i items

/-- A namespace or a description of a module, from its keyword. -/
def namespaceDeclaration (rule : Rules) (i : Nat) : Parser Node := do
  let isGlobal ← atWord "global"
  if isGlobal then
    let name ← anyName
    let body ← namespaceBody rule
    typeNode i [name, body]
  else
    advance
    let name ← match ← lexeme with
      | .string _ => stringLiteral
      | _ => qualifiedName
    if ← atSymbol "\x7b" then
      let body ← namespaceBody rule
      typeNode i [name, body]
    else
      require (name.form? matches some (.string _))
      endStatement
      typeNode i [name]

/-- Whether a word here introduces a declaration, rather than being a name: what follows is on the
same line and can go on the declaration. -/
def introduces (p : Parser Bool) : Parser Bool := nextIs (do return !(← onNewLine) && (← p))

/-- Whether a declaration that only types have a use for starts here. -/
def startsTyped : Parser Bool := do
  unless ← typed do return false
  let isString : Parser Bool := do return (← lexeme) matches .string _
  match ← lexeme with
  | .word "enum" false => return true
  | .word "const" false => nextIs (atWord "enum")
  | .word "interface" false | .word "type" false | .word "namespace" false =>
      introduces atIdentifier
  | .word "module" false => introduces (atIdentifier <||> isString)
  | .word "global" false => nextIs (atSymbol "\x7b")
  | .word "abstract" false => introduces (atWord "class")
  | .word "declare" false => introduces (do
      return (← atAnyWord) && !(← atWords ["in", "instanceof", "as", "satisfies"]))
  | .word "import" false =>
      ahead (do
        advance
        if ← atWord "type" <&&> nextIs (do return (← atIdentifier) && !(← atWord "from")) then
          advance
        unless ← atIdentifier do return false
        advance
        atSymbol "=") false
  | _ => return false

/-- An import that gives a name to something else's name. -/
def importEquals (i : Nat) : Parser Node := do
  expectWord "import"
  if ← atWord "type" <&&> nextIs atIdentifier then advance
  let name ← identifier
  expectSymbol "="
  let value ← if ← atWord "require" <&&> nextIs (atSymbol "(") then do
      advance
      advance
      let s ← stringLiteral
      expectSymbol ")"
      pure s
    else qualifiedName
  endStatement
  typeNode i [name, value]

/-- A declaration that only types have a use for. -/
def typedDeclaration (rule : Rules) (i : Nat) : Parser Node := do
  match ← lexeme with
  | .word "interface" _ => interfaceDeclaration rule i
  | .word "type" _ => aliasDeclaration rule i
  | .word "enum" _ | .word "const" _ => enumDeclaration rule i
  | .word "namespace" _ | .word "module" _ | .word "global" _ => namespaceDeclaration rule i
  | .word "import" _ => importEquals i
  | .word "abstract" _ =>
      advance
      classFrom rule i [] false
  | .word "declare" _ =>
      advance
      let d ← withContext (fun c => { c with ambient := true }) (rule (.statement false))
      typeNode i [d]
  | _ => fail

/-! ### Imports -/

/-- The text of a name, or of a string in its place. -/
def nameText : Node → List String
  | .node (.name w) _ _ => [w]
  | .node (.string v) _ _ => [String.ofList (v.map Char.ofNat)]
  | _ => []

/-- Whether no text stands twice in a list. -/
def areDistinct (ts : List String) : Bool := ts.eraseDups.length == ts.length

/-- The remarks on how a module is to be loaded; no two of them have the same key. -/
def importAttributes : Parser Node := do
  let i ← start
  let led ← atWord "with" <||> (do return (← atWord "assert") && !(← onNewLine))
  if led then
    advance
    expectSymbol "\x7b"
    let items ← separated "\x7d" (do
      let j ← start
      let key ← match ← lexeme with
        | .string _ => stringLiteral
        | _ => anyName
      expectSymbol ":"
      let value ← stringLiteral
      node .importAttribute j [key, value])
    expectSymbol "\x7d"
    require (areDistinct (items.flatMap fun a => (a.parts.take 1).flatMap nameText))
    node .importAttributes i items
  else return .absent

/-- Skip the word `type` in front of a name in a list, where it marks the name as one of a type. -/
def skipTypeMark : Parser Unit := do
  if ← typed <&&> atWord "type" <&&> nextIs (do
      match ← lexeme with
      | .word "as" _ => nextIs (atWord "as")
      | .word _ _ | .string _ => return true
      | _ => return false) then advance

/-- The name that an import in a list binds; the words that are operators elsewhere are none. -/
def importedName : Parser Node := do
  match ← lexeme with
  | .word w _ => require !(["await", "yield"].contains w)
  | _ => fail
  identifier

/-- One name in the list of an import. -/
def importName : Parser Node := do
  let i ← start
  skipTypeMark
  if ((← lexeme) matches .string _) || (← nextIs (atWord "as")) then
    let imported ← moduleName
    expectWord "as"
    let name ← importedName
    node .importName i [imported, name]
  else
    let name ← importedName
    node .importName i [name, name]

/-- What an import binds besides a default: a namespace, or a list of names. -/
def importBindings : Parser (List Node) := do
  let i ← start
  if ← eatSymbol "*" then
    expectWord "as"
    let name ← identifier
    return [← node .importNamespace i [name]]
  else
    expectSymbol "\x7b"
    let items ← separated "\x7d" importName
    expectSymbol "\x7d"
    return items

/-- Skip the words between `import` and what it binds, and give the phase they name. -/
def importPhase : Parser String := do
  let bindsBehind : Parser Bool := do
    match ← lexeme with
    | .word "from" _ => nextIs (atWord "from")
    | .word w _ => return !isReserved w
    | .symbol s => return s == "\x7b" || s == "*"
    | _ => return false
  if ← typed <&&> atWord "type" <&&> nextIs bindsBehind then
    advance
    return ""
  if ← atWord "defer" <&&> nextIs (atSymbol "*") then
    advance
    return "defer"
  if ← atWord "source" <&&> nextIs (do
      match ← lexeme with
      | .word "from" _ => nextIs (atWord "from")
      | .word w _ => return !isReserved w
      | _ => return false) then
    advance
    return "source"
  return ""

/-- An import, from its keyword. -/
def importDeclaration : Parser Node := do
  let i ← start
  expectWord "import"
  if (← lexeme) matches .string _ then
    let source ← stringLiteral
    let attributes ← importAttributes
    endStatement
    node (.importDeclaration "" true) i [source, attributes]
  else
    let phase ← importPhase
    let first ← if ← atIdentifier then do
        let j ← start
        let name ← identifier
        pure [← node .importDefault j [name]]
      else pure []
    let more ← if first.isEmpty then importBindings
      else if ← eatSymbol "," then importBindings
      else pure []
    expectWord "from"
    let source ← stringLiteral
    let attributes ← importAttributes
    endStatement
    node (.importDeclaration phase false) i (first ++ more ++ [source, attributes])

/-! ### Exports -/

/-- What a module gives by default, behind `default`.  Decorators stand in front of a class, either
before `export` or here. -/
def defaultExported (rule : Rules) (outer : List Node) : Parser Node := do
  let i ← start
  let inner ← decorators rule
  require (outer.isEmpty || inner.isEmpty)
  let ds := outer ++ inner
  let isAbstract ← atWord "abstract" <&&> nextIs (atWord "class")
  if isAbstract then advance
  if ← atWord "class" then return ← classFrom rule i ds false
  require ds.isEmpty
  if (← atWord "function") || (← startsAsyncFunction) then functionDeclaration rule false
  else if ← typed <&&> atWord "interface" <&&> introduces atIdentifier then
    interfaceDeclaration rule i
  else
    let e ← withContext (fun c => { c with allowIn := true, inDecorator := false })
      (rule (.assignment true))
    endStatement
    return e

/-- The words that a module may not give under their own name: reserved ones, and those that are
kept for the future. -/
def isKept (w : String) : Bool :=
  isReserved w || ["await", "yield", "implements", "interface", "let", "package", "private",
    "protected", "public", "static"].contains w

/-- Whether a name may be exported without saying where it comes from. -/
def isLocal (specifier : Node) : Bool :=
  match specifier.parts with
  | .node (.name w) _ _ :: _ => !isKept w
  | _ => false

/-- Whether a literal stands here. -/
def atLiteral : Parser Bool := do
  match ← lexeme with
  | .string _ | .number _ | .bigint _ => return true
  | .word w _ => return ["null", "true", "false"].contains w
  | _ => return false

/-- A list of exported names, with the module they come from.  The word `from` is skipped, too,
where no literal follows and no module is named. -/
def exportNames (i : Nat) : Parser Node := do
  expectSymbol "\x7b"
  let items ← separated "\x7d" (do
    let j ← start
    skipTypeMark
    let name ← moduleName
    let exported ← if ← eatWord "as" then moduleName else pure name
    node .exportName j [name, exported])
  expectSymbol "\x7d"
  if ← eatWord "from" <&&> atLiteral then
    let source ← stringLiteral
    let attributes ← importAttributes
    endStatement
    node .exportNames i (items ++ [source, attributes])
  else
    require (items.all isLocal)
    endStatement
    node .exportNames i (items ++ [.absent, .absent])

/-- Everything that another module exports. -/
def exportAll (i : Nat) : Parser Node := do
  expectSymbol "*"
  let name ← if ← eatWord "as" then moduleName else pure .absent
  expectWord "from"
  let source ← stringLiteral
  let attributes ← importAttributes
  endStatement
  node .exportAll i [name, source, attributes]

/-- An export that only types have a use for, if one starts here. -/
def typedExport? (rule : Rules) (i : Nat) : Parser (Option Node) := do
  unless ← typed do return none
  if ← eatSymbol "=" then
    let e ← rule .expression
    endStatement
    return some (← typeNode i [e])
  if ← atWord "as" <&&> nextIs (atWord "namespace") then
    advance
    advance
    let name ← identifier
    endStatement
    return some (← typeNode i [name])
  if ← atWord "type" <&&> nextIs (atSymbols ["\x7b", "*"]) then
    advance
    if ← atSymbol "*" then return some (← exportAll i)
    return some (← exportNames i)
  if ← startsTyped then
    let d ← typedDeclaration rule (← start)
    return some (← node .exportDeclaration i [d])
  return none

/-- A declaration that a module gives by its name; its decorators stand before `export` or here. -/
def exportedDeclaration (rule : Rules) (outer : List Node) : Parser Node := do
  let i ← start
  let inner ← decorators rule
  require (outer.isEmpty || inner.isEmpty)
  let ds := outer ++ inner
  if !ds.isEmpty then
    if ← typed then decoratedClass rule i ds else classFrom rule i ds false
  else
    let declares := (← atWords ["var", "const", "let", "function", "class"]) ||
      (← startsAsyncFunction)
    require declares
    if ← eatWord "let" then variableStatement rule i false "let"
    else rule (.statement false)

/-- An export, from its keyword, behind the decorators of what is exported. -/
def exportDeclaration (rule : Rules) (ds : List Node) : Parser Node := do
  let i ← start
  expectWord "export"
  if ← eatWord "default" then
    let d ← defaultExported rule ds
    node .exportDefault i [d]
  else if ← atSymbols ["*", "\x7b"] then
    require ds.isEmpty
    if ← atSymbol "*" then exportAll i else exportNames i
  else
    let only ← if ds.isEmpty then typedExport? rule i else pure none
    match only with
    | some n => return n
    | none =>
        let d ← exportedDeclaration rule ds
        node .exportDeclaration i [d]

/-! ### Exported names -/

mutual

/-- The names that a target declares. -/
def boundNames : Node → List String
  | .node (.name w) _ _ => [w]
  | .node (.patternProperty _ _) _ (_ :: ps) => boundNamesOf ps
  | .node .defaulted _ (t :: _) => boundNames t
  | .node .arrayPattern _ ps => boundNamesOf ps
  | .node .objectPattern _ ps => boundNamesOf ps
  | .node .rest _ ps => boundNamesOf ps
  | _ => []

/-- The names that some targets declare. -/
def boundNamesOf : List Node → List String
  | [] => []
  | n :: ns => boundNames n ++ boundNamesOf ns

end

/-- The names that a declaration declares. -/
def declaredNames : Node → List String
  | .node (.variables _) _ ds => ds.flatMap fun d => boundNamesOf (d.parts.take 1)
  | .node (.function _ _ _) _ (n :: _) => boundNames n
  | .node (.classForm _ k) _ ps => boundNamesOf ((ps.drop k).take 1)
  | _ => []

mutual

/-- The names exported by a node and the nodes below it. -/
def exportedNames : Node → List String
  | .absent => []
  | .node f _ ps =>
      let own := match f, ps with
        | .exportDefault, _ => ["default"]
        | .exportAll, n :: _ => nameText n
        | .exportName, [_, n] => nameText n
        | .exportDeclaration, [d] => declaredNames d
        | _, _ => []
      own ++ exportedNamesOf ps

/-- The names exported by some nodes and the nodes below them. -/
def exportedNamesOf : List Node → List String
  | [] => []
  | n :: ns => exportedNames n ++ exportedNamesOf ns

end

/-! ### Any statement -/

/-- A statement or a declaration that starts with a word which may also be a name. -/
def looseStatement (rule : Rules) (alone : Bool) : Parser Node := do
  let i ← start
  if ← startsTyped then typedDeclaration rule i
  else
    match ← usingKeyword? with
    | some keyword => variableStatement rule i alone keyword
    | none =>
        if ← startsAsyncFunction then functionStatement rule alone
        else expressionStatement rule

/-- A statement or a declaration. -/
def statement (rule : Rules) (alone : Bool) : Parser Node := do
  let i ← start
  match ← lexeme with
  | .symbol "\x7b" => block rule
  | .symbol ";" => advance; node .emptyStatement i []
  | .symbol "@" =>
      let ds ← decorators rule
      if ← atWord "export" then exportDeclaration rule ds
      else
        require !alone
        decoratedClass rule i ds
  | .word "class" false =>
      require !alone
      classFrom rule i [] false
  | .word "export" false => exportDeclaration rule []
  | .word "import" false =>
      if ← nextIs (atSymbols [".", "("]) then expressionStatement rule
      else if ← startsTyped then typedDeclaration rule i
      else importDeclaration
  | .word w false =>
      if ← pure (w == "const") <&&> startsTyped then typedDeclaration rule i
      else
        match wordStatement? rule alone w with
        | some p => p
        | none => looseStatement rule alone
  | .word _ true => looseStatement rule alone
  | _ => expressionStatement rule

end ComponentCompiler.Script.Grammar
