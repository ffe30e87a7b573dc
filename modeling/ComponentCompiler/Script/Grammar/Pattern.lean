import ComponentCompiler.Script.Parser

/-!
# Names, keys and patterns

What introduces names (`binding`), and what an assignment may write to (`target?`).  The left side
of an assignment is read as an expression first and then turned into a target, since only the `=`
behind it tells the two apart.

## Main definitions

* `identifier`, `propertyKey` — names and keys.
* `binding` — a name or a pattern that declares names.
* `target?`, `simpleTarget?` — an expression as what an assignment writes to.
-/

namespace ComponentCompiler.Script.Grammar

open ComponentCompiler.Script.Parser

/-! ### Names and keys -/

/-- A name of a variable or a label.  `await` and `yield` are not names where they are
operators. -/
def identifier : Parser Node := do
  let t ← token
  match t.lexeme with
  | .word w _ =>
      let c ← context
      require (!isReserved w && !(w == "await" && c.inAsync) && !(w == "yield" && c.inGenerator))
      advance
      node (.name w) t.start []
  | _ => fail

/-- A name that may be any word. -/
def anyName : Parser Node := do
  let t ← token
  match t.lexeme with
  | .word w _ => advance; node (.name w) t.start []
  | _ => fail

/-- A name behind a number sign. -/
def privateName : Parser Node := do
  let t ← token
  match t.lexeme with
  | .privateWord w => advance; node (.privateName w) t.start []
  | _ => fail

/-- A string. -/
def stringLiteral : Parser Node := do
  let t ← token
  match t.lexeme with
  | .string v => advance; node (.string v) t.start []
  | _ => fail

/-- Whether a code point is one half of a surrogate pair. -/
def isSurrogate (n : Nat) : Bool := 0xD800 ≤ n && n ≤ 0xDFFF

/-- A name that a module gives or takes, or a string in its place.  The string may not hold one
half of a surrogate pair. -/
def moduleName : Parser Node := do
  match ← lexeme with
  | .string v =>
      require !(v.any isSurrogate)
      stringLiteral
  | _ => anyName

/-- The key of a property, and whether it is computed. -/
def propertyKey (rule : Rules) : Parser (Node × Bool) := do
  let t ← token
  match t.lexeme with
  | .word w _ => advance; return (← node (.name w) t.start [], false)
  | .string v => advance; return (← node (.string v) t.start [], false)
  | .number v => advance; return (← node (.number v) t.start [], false)
  | .bigint v => advance; return (← node (.bigint v) t.start [], false)
  | .symbol "[" =>
      advance
      let key ← withContext (fun c => { c with allowIn := true }) (rule (.assignment true))
      expectSymbol "]"
      return (key, true)
  | _ => fail

/-! ### Declaring names -/

/-- A target followed by a default, if there is one. -/
def withDefault (rule : Rules) (start : Nat) (target : Node) : Parser Node := do
  if ← eatSymbol "=" then
    let value ← withContext (fun c => { c with allowIn := true }) (rule (.assignment true))
    node .defaulted start [target, value]
  else return target

/-- An element of a pattern: a target with a default. -/
def bindingElement (rule : Rules) : Parser Node := do
  let i ← start
  let target ← rule .binding
  withDefault rule i target

/-- The rest of an array or of a list of parameters. -/
def bindingRest (rule : Rules) : Parser Node := do
  let i ← start
  expectSymbol "..."
  let target ← rule .binding
  node .rest i [target]

/-- A pattern that takes an array apart; what takes the rest stands last. -/
def arrayBinding (rule : Rules) : Parser Node := do
  let i ← start
  expectSymbol "["
  let items ← loop (fun (acc : List Node) => do
    if ← atSymbol "]" then return .done acc
    if ← eatSymbol "," then return .again (.absent :: acc)
    if ← atSymbol "..." then
      let r ← bindingRest rule
      require (← atSymbol "]")
      return .done (r :: acc)
    let e ← bindingElement rule
    if ← eatSymbol "," then return .again (e :: acc)
    require (← atSymbol "]")
    return .done (e :: acc)) []
  expectSymbol "]"
  node .arrayPattern i items.reverse

/-- A property of a pattern that takes an object apart.  A name that stands for its own key may
also be `await` or `yield`. -/
def bindingProperty (rule : Rules) : Parser Node := do
  let i ← start
  if (← atIdentifier) && !(← nextIs (atSymbol ":")) then
    let name ← anyName
    let target ← withDefault rule i name
    node (.patternProperty true false) i [name, target]
  else
    let (key, computed) ← propertyKey rule
    expectSymbol ":"
    let target ← bindingElement rule
    node (.patternProperty false computed) i [key, target]

/-- A pattern that takes an object apart; the rest goes to a name. -/
def objectBinding (rule : Rules) : Parser Node := do
  let i ← start
  expectSymbol "\x7b"
  let items ← separated "\x7d" (do
    if ← atSymbol "..." then
      let j ← start
      advance
      let name ← identifier
      require (← atSymbol "\x7d")
      node .rest j [name]
    else bindingProperty rule)
  expectSymbol "\x7d"
  node .objectPattern i items

/-- A name or a pattern that declares names. -/
def binding (rule : Rules) : Parser Node := do
  if ← atSymbol "[" then arrayBinding rule
  else if ← atSymbol "\x7b" then objectBinding rule
  else identifier

/-! ### Writing to expressions -/

/-- An expression as a target that is not a pattern: a name, an access, or one of these with a
remark on its type. -/
def simpleTarget? : Node → Option Node
  | .node (.name w) s ps => some (.node (.name w) s ps)
  | .node (.member false) s ps => some (.node (.member false) s ps)
  | .node (.index false) s ps => some (.node (.index false) s ps)
  | .node .parenthesized _ [e] => simpleTarget? e
  | .node (.ascription false) s (e :: ps) =>
      (simpleTarget? e).map fun _ => .node (.ascription false) s (e :: ps)
  | .node (.ascription true) s [t, e] =>
      (simpleTarget? e).map fun _ => .node (.ascription true) s [t, e]
  | _ => none

mutual

/-- An expression as a target. -/
def target? : Node → Option Node
  | .node (.array comma) s ps => do return .node .arrayPattern s (← elementTargets? comma ps)
  | .node (.object comma) s ps => do return .node .objectPattern s (← propertyTargets? comma ps)
  | n => simpleTarget? n

/-- An expression as a target that may have a default. -/
def defaultedTarget? : Node → Option Node
  | .node (.assignment "=") s ps => some (.node .defaulted s ps)
  | .node (.array comma) s ps => do return .node .arrayPattern s (← elementTargets? comma ps)
  | .node (.object comma) s ps => do return .node .objectPattern s (← propertyTargets? comma ps)
  | n => simpleTarget? n

/-- The elements of an array as targets.  What takes the rest stands last, without a comma. -/
def elementTargets? (comma : Bool) : List Node → Option (List Node)
  | [] => some []
  | .absent :: ns => do return .absent :: (← elementTargets? comma ns)
  | [.node .spread s [e]] => do
      if comma then none else return [.node .rest s [← target? e]]
  | .node .spread _ _ :: _ => none
  | n :: ns => do return (← defaultedTarget? n) :: (← elementTargets? comma ns)

/-- The properties of an object as targets.  What takes the rest stands last, without a comma,
and is no pattern. -/
def propertyTargets? (comma : Bool) : List Node → Option (List Node)
  | [] => some []
  | [.node .spread s [e]] => do
      if comma then none else return [.node .rest s [← simpleTarget? e]]
  | .node .defaultedName s [n, v] :: ns => do
      return .node (.patternProperty true false) s [n, .node .defaulted s [n, v]] ::
        (← propertyTargets? comma ns)
  | .node (.property .shorthand false) s [n, v] :: ns => do
      return .node (.patternProperty true false) s [n, v] :: (← propertyTargets? comma ns)
  | .node (.property .value computed) s [k, v] :: ns => do
      return .node (.patternProperty false computed) s [k, ← defaultedTarget? v] ::
        (← propertyTargets? comma ns)
  | _ => none

end

/-- An expression that has been read, as a target; patterns only where they are allowed. -/
def asTarget (patterns : Bool) (n : Node) : Parser Node :=
  match (if patterns then target? n else simpleTarget? n) with
  | some t => pure t
  | none => fail

end ComponentCompiler.Script.Grammar
