import ComponentCompiler.Script.Grammar.Modifier

/-!
# Classes

## Main definitions

* `classMember` — one member of a class.
* `classFrom` — a class behind its decorators.
-/

namespace ComponentCompiler.Script.Grammar

open ComponentCompiler.Script.Parser

/-! ### Keys -/

/-- The key of a member, and whether it is computed. -/
def memberKey (rule : Rules) : Parser (Node × Bool) := do
  match ← lexeme with
  | .privateWord w =>
      require (w != "constructor")
      return (← privateName, false)
  | _ => propertyKey rule

/-- Whether a member has a name that is written out as a word or as a string. -/
def isNamed (word : String) (computed : Bool) (key : Node) : Bool :=
  match computed, key with
  | false, .node (.name w) _ _ => w == word
  | false, .node (.string v) _ _ => v == word.toList.map Char.toNat
  | _, _ => false

/-- Whether a function may have its name: the constructor is an ordinary function, and no member of
the class itself takes the place of its prototype. -/
def isMethodName (m : Modifiers) (style : PropertyStyle) (isGenerator : Bool) (computed : Bool)
    (key : Node) : Bool :=
  if m.has "static" then !isNamed "prototype" computed key
  else !isNamed "constructor" computed key ||
    (style == .method && !isGenerator && !m.has "async")

/-- Whether a field may have its name. -/
def isFieldName (m : Modifiers) (computed : Bool) (key : Node) : Bool :=
  !isNamed "constructor" computed key && !(m.has "static" && isNamed "prototype" computed key)

/-! ### Members -/

/-- A field, behind its key. -/
def classField (rule : Rules) (i : Nat) (ds : List Node) (m : Modifiers) (key : Node)
    (computed : Bool) : Parser Node := do
  let type ← typeAnnotation rule
  let value ← if ← eatSymbol "=" then
      withContext
        (fun c => { c with allowIn := true, inGenerator := false, inAsync := false })
        (rule (.assignment true))
    else pure .absent
  endStatement
  node (.classField (m.has "static") computed (m.has "accessor") ds.length) i
    (ds ++ [key, type, value])

/-- A block that runs when its class is made. -/
def staticBlock (rule : Rules) (i : Nat) : Parser Node := do
  expectWord "static"
  expectSymbol "\x7b"
  let items ← withContext
    (fun c =>
      { c with allowIn := true, inGenerator := false, inAsync := true, inFunction := false })
    (upTo "\x7d" (rule (.statement false)))
  node .staticBlock i items

/-- Skip the word that makes a function compute or take the value of a property. -/
def accessStyle : Parser PropertyStyle := do
  let (get, set) := (atWord "get", atWord "set")
  if ← get <&&> nextIs startsKey then advance; return .getter
  if ← set <&&> nextIs startsKey then advance; return .setter
  return .value

/-- A field or a function, behind its modifiers.  A question mark or an exclamation mark may stand
behind its key. -/
def classProperty (rule : Rules) (i : Nat) (ds : List Node) (m : Modifiers)
    (style : PropertyStyle) : Parser Node := do
  let isGenerator ← pure (style == .value) <&&> eatSymbol "*"
  let (key, computed) ← memberKey rule
  let isPrivate := key.form? matches some (.privateName _)
  require !((← typed) && isPrivate && m.hasAny accessWords)
  let optional ← pure (style == .value) <&&> eatSymbol "?"
  if style != .value || isGenerator || (← atSymbols ["(", "<"]) then
    let style := if style == .value then .method else style
    require (isMethodName m style isGenerator computed key)
    require (m.has "static" || ds.isEmpty || !isNamed "constructor" computed key)
    let f ← methodFrom rule style (m.has "async") isGenerator
    node (.classMethod style (m.has "static") computed ds.length) i (ds ++ [key, f])
  else
    require !(optional && m.has "accessor")
    if (← atSymbol "!") && !(← onNewLine) then
      require !optional
      advance
    require (isFieldName m computed key)
    classField rule i ds m key computed

/-- One member of a class. -/
def classMember (rule : Rules) : Parser Node := do
  let i ← start
  let ds ← decorators rule
  let m ← modifiers
  require !(m.hasAny ["const", "export"])
  if ← atWord "static" <&&> nextIs (atSymbol "\x7b") then
    require (ds.isEmpty && m.words.isEmpty)
    staticBlock rule i
  else if ← typed <&&> startsIndexSignature then
    require ds.isEmpty
    let n ← indexSignature rule i
    endTypeMember
    return n
  else
    classProperty rule i ds m (← accessStyle)

/-- The members of a class in braces; semicolons between them are skipped. -/
def classBody (rule : Rules) : Parser Node := do
  let i ← start
  expectSymbol "\x7b"
  let items ← loop (fun (acc : List Node) => do
    if ← eatSymbol "\x7d" then return .done acc
    if ← eatSymbol ";" then return .again acc
    return .again ((← classMember rule) :: acc)) []
  node .classBody i items.reverse

/-- The types that a class promises to implement. -/
def classInterfaces (rule : Rules) : Parser (List Node) := do
  if ← eatWord "implements" then
    let items ← loop (fun (acc : List Node) => do
      let i ← start
      let name ← qualifiedName
      let listed := (← atSymbols ["<", "<<"]) && !(← onNewLine)
      let types ← if listed then typeArguments rule else pure .absent
      let t ← typeNode i [name, types]
      if ← eatSymbol "," then return .again (t :: acc)
      return .done (t :: acc)) []
    return items.reverse
  else return []

/-- A class, from its keyword; its decorators have been read.  That a class which is a declaration
has a name is no matter of the grammar. -/
def classFrom (rule : Rules) (i : Nat) (ds : List Node) (isExpression : Bool) : Parser Node := do
  expectWord "class"
  let name ← if (← atIdentifier) && !(← atWord "implements") then identifier else pure .absent
  let types ← typeParameters rule
  let base ← if ← eatWord "extends" then rule .leftHandSide else pure .absent
  let arguments ← if base.isAbsent then pure .absent else typeArguments? rule
  let interfaces ← classInterfaces rule
  let body ← classBody rule
  node (.classForm isExpression ds.length) i
    (ds ++ [name, types, base, arguments] ++ interfaces ++ [body])

/-- A class declaration behind its decorators, with the modifiers that it may have. -/
def decoratedClass (rule : Rules) (i : Nat) (ds : List Node) : Parser Node := do
  let m ← modifiers
  require (m.within ["abstract", "declare"])
  classFrom rule i ds false

end ComponentCompiler.Script.Grammar
