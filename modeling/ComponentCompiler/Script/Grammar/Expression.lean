import ComponentCompiler.Script.Grammar.Class

/-!
# Expressions

## Main definitions

* `primary`, `leftHandSide` — operands, with the accesses and calls behind them.
* `unary`, `binary` — operators.
* `assignment`, `expression` — assignments, arrow functions, conditionals and sequences.
-/

namespace ComponentCompiler.Script.Grammar

open ComponentCompiler.Script.Parser

/-- Read something inside brackets, where `in` is an operator again. -/
def bracketed {α : Type} (p : Parser α) : Parser α :=
  withContext (fun c => { c with allowIn := true, inDecorator := false }) p

/-! ### Literals -/

/-- A template; one without a tag may not have escapes without a meaning. -/
def template (rule : Rules) (tagged : Bool) : Parser Node := do
  let i ← start
  let items ← loop (fun (acc : List Node) => do
    let t ← token
    match t.lexeme with
    | .template raw sound last =>
        require (tagged || sound)
        advance
        let text ← node (.templateText raw) t.start []
        if last then return .done (text :: acc)
        let e ← bracketed (rule .expression)
        require (← atSymbol "\x7d")
        rescan scanTemplate
        return .again (e :: text :: acc)
    | _ => fail) []
  node .template i items.reverse

/-- An argument behind three dots. -/
def spread (rule : Rules) : Parser Node := do
  let i ← start
  expectSymbol "..."
  let e ← rule (.assignment true)
  node .spread i [e]

/-- An array. -/
def array (rule : Rules) : Parser Node := do
  let i ← start
  expectSymbol "["
  let (items, comma) ← bracketed (loop (fun (acc : List Node × Bool) => do
    if ← atSymbol "]" then return .done acc
    if ← eatSymbol "," then return .again (.absent :: acc.1, false)
    let e ← if ← atSymbol "..." then spread rule else rule (.assignment true)
    if ← eatSymbol "," then return .again (e :: acc.1, true)
    require (← atSymbol "]")
    return .done (e :: acc.1, false)) ([], false))
  expectSymbol "]"
  node (.array comma) i items.reverse

/-- The function of a method, getter or setter of an object literal. -/
def objectMethod (rule : Rules) (i : Nat) (style : PropertyStyle) (isAsync isGenerator : Bool) :
    Parser Node := do
  let (key, computed) ← propertyKey rule
  let f ← methodFrom rule style isAsync isGenerator
  node (.property style computed) i [key, f]

/-- A name that is a property by itself.  With a default it is the property of a pattern. -/
def shorthand (rule : Rules) (i : Nat) : Parser Node := do
  let name ← identifier
  if ← eatSymbol "=" then
    let value ← rule (.assignment true)
    node .defaultedName i [name, value]
  else node (.property .shorthand false) i [name, name]

/-- A property of an object literal. -/
def objectMember (rule : Rules) : Parser Node := do
  let i ← start
  if ← atSymbol "..." then spread rule
  else if ← eatSymbol "*" then objectMethod rule i .method false true
  else if ← atWord "async" <&&>
      nextIs (do return !(← onNewLine) && ((← startsKey) || (← atSymbol "*"))) then
    advance
    let isGenerator ← eatSymbol "*"
    objectMethod rule i .method true isGenerator
  else if ← atWord "get" <&&> nextIs startsKey then
    advance
    objectMethod rule i .getter false false
  else if ← atWord "set" <&&> nextIs startsKey then
    advance
    objectMethod rule i .setter false false
  else if ← atIdentifier <&&> (not <$> nextIs (atSymbols [":", "(", "<"])) then
    shorthand rule i
  else
    let (key, computed) ← propertyKey rule
    if ← eatSymbol ":" then
      let value ← rule (.assignment true)
      node (.property .value computed) i [key, value]
    else
      let f ← methodFrom rule .method false false
      node (.property .method computed) i [key, f]

/-- An object literal. -/
def object (rule : Rules) : Parser Node := do
  let i ← start
  expectSymbol "\x7b"
  let (items, comma) ← bracketed (loop (fun (acc : List Node × Bool) => do
    if ← atSymbol "\x7d" then return .done acc
    let e ← objectMember rule
    if ← eatSymbol "," then return .again (e :: acc.1, true)
    require (← atSymbol "\x7d")
    return .done (e :: acc.1, false)) ([], false))
  expectSymbol "\x7d"
  node (.object comma) i items.reverse

/-! ### Operands -/

/-- The arguments of a call in parentheses. -/
def arguments (rule : Rules) : Parser (List Node) := do
  expectSymbol "("
  let items ← bracketed (separated ")" (do
    if ← atSymbol "..." then spread rule else rule (.assignment true)))
  expectSymbol ")"
  return items

/-- An expression in parentheses; a comma may not stand behind it. -/
def parenthesized (rule : Rules) : Parser Node := do
  let i ← start
  expectSymbol "("
  let e ← bracketed (rule .expression)
  expectSymbol ")"
  if (← context).keepParens then node .parenthesized i [e] else return e

/-- A call that loads a module, behind `import`. -/
def importCall (rule : Rules) (i : Nat) (phase : String) : Parser Node := do
  expectSymbol "("
  let parts ← bracketed (do
    let source ← rule (.assignment true)
    let more ← eatSymbol ","
    if more && !(← atSymbol ")") then
      let options ← rule (.assignment true)
      discard (eatSymbol ",")
      return [source, options]
    return [source, .absent])
  expectSymbol ")"
  node (.importCall phase) i parts

/-- An expression that starts with `import`. -/
def importExpression (rule : Rules) : Parser Node := do
  let i ← start
  expectWord "import"
  if ← eatSymbol "." then
    if ← eatWord "meta" then node (.metaProperty "import.meta") i []
    else if ← eatWord "source" then importCall rule i "source"
    else
      expectWord "defer"
      importCall rule i "defer"
  else importCall rule i ""

/-- A word that is an expression by itself. -/
def keyword (i : Nat) (w : String) : Parser Node := do
  advance
  if w == "super" then require (← atSymbols ["(", ".", "["])
  node (.keyword w) i []

/-- Whether an asynchronous function starts here. -/
def startsAsyncFunction : Parser Bool :=
  atWord "async" <&&> nextIs (do return (← atWord "function") && !(← onNewLine))

/-- Some accesses behind an operand, and whether one of them was optional. -/
structure Accessed where
  /-- The expression so far. -/
  expr : Node
  /-- Whether one of its accesses was optional. -/
  optional : Bool := false

/-- The name behind a dot. -/
def memberName : Parser Node := do
  match ← lexeme with
  | .privateWord _ => privateName
  | _ => anyName

/-- The accesses behind an operand that are no calls. -/
def memberRest (rule : Rules) (i : Nat) (a : Accessed) : Parser Accessed :=
  loop (fun (a : Accessed) => do
    match ← lexeme with
    | .symbol "." =>
        advance
        let name ← memberName
        return .again { a with expr := ← node (.member false) i [a.expr, name] }
    | .symbol "?." =>
        if ← nextIs (atSymbol "[") then
          advance
          advance
          let key ← bracketed (rule .expression)
          expectSymbol "]"
          return .again { expr := ← node (.index true) i [a.expr, key], optional := true }
        else if ← nextIs (do
            match ← lexeme with
            | .word _ _ | .privateWord _ => return true
            | _ => return false) then
          advance
          let name ← memberName
          return .again { expr := ← node (.member true) i [a.expr, name], optional := true }
        else return .done a
    | .symbol "[" =>
        if (← context).inDecorator then return .done a
        advance
        let key ← bracketed (rule .expression)
        expectSymbol "]"
        return .again { a with expr := ← node (.index false) i [a.expr, key] }
    | .template _ _ _ =>
        require !a.optional
        let t ← template rule true
        return .again { a with expr := ← node .taggedTemplate i [a.expr, .absent, t] }
    | .symbol "!" =>
        if (← typed) && !(← onNewLine) then
          advance
          return .again { a with expr := ← node (.ascription false) i [a.expr] }
        else return .done a
    | .symbol s =>
        if s == "<" || s == "<<" then
          match ← typeArgumentsInExpression? rule with
          | some types => return .again { a with expr := ← typeNode i [a.expr, types] }
          | none => return .done a
        else return .done a
    | _ => return .done a) a

/-- A construction behind `new`, or `new.target`.  A call that loads a module constructs
nothing. -/
def newFrom (rule : Rules) (operand : Parser Node) : Parser Node := do
  let i ← start
  expectWord "new"
  if ← eatSymbol "." then
    expectWord "target"
    node (.metaProperty "new.target") i []
  else
    let j ← start
    let callee ← operand
    let a ← memberRest rule j { expr := callee }
    require !(a.expr.form? matches some (.importCall _))
    require (!a.optional && !(← atSymbol "?."))
    let args ← if ← atSymbol "(" then arguments rule else pure []
    node .newForm i (a.expr :: .absent :: args)

/-- An operand other than a construction. -/
def simplePrimary (rule : Rules) : Parser Node := do
  let t ← token
  match t.lexeme with
  | .number v => advance; node (.number v) t.start []
  | .bigint v => advance; node (.bigint v) t.start []
  | .string v => advance; node (.string v) t.start []
  | .template _ _ _ => template rule false
  | .symbol "/" | .symbol "/=" =>
      rescan scanRegex
      match ← lexeme with
      | .regex p f => advance; node (.regex p f) t.start []
      | _ => fail
  | .symbol "[" => array rule
  | .symbol "\x7b" => object rule
  | .symbol "(" => parenthesized rule
  | .symbol "@" =>
      let ds ← decorators rule
      classFrom rule t.start ds true
  | .word "function" false => functionExpression rule
  | .word "class" false => classFrom rule t.start [] true
  | .word "import" false => importExpression rule
  | .word w false =>
      if ["this", "null", "true", "false", "super"].contains w then keyword t.start w
      else if ← startsAsyncFunction then functionExpression rule
      else identifier
  | .word _ true => identifier
  | _ => fail

/-- An operand, at most `n` constructions deep. -/
def primaryFrom (rule : Rules) : Nat → Parser Node
  | 0 => fail
  | n + 1 => do
      if ← atWord "new" then newFrom rule (primaryFrom rule n) else simplePrimary rule

/-- An operand. -/
def primary (rule : Rules) : Parser Node := do
  let s ← get
  primaryFrom rule (s.size - s.token.start + 1)

/-- A call, an access or simpler. -/
def leftHandSide (rule : Rules) : Parser Node := do
  let i ← start
  let first ← primary rule
  let a ← loop (fun (a : Accessed) => do
    let a ← memberRest rule i a
    if ← atSymbol "?." then
      advance
      let types ← typeArguments? rule
      let args ← arguments rule
      return .again { expr := ← node (.call true) i (a.expr :: types :: args), optional := true }
    if ← atSymbol "(" then
      let args ← arguments rule
      return .again { a with expr := ← node (.call false) i (a.expr :: .absent :: args) }
    return .done a) { expr := first }
  if a.optional then node .chain i [a.expr] else return a.expr

/-! ### Operators -/

/-- Whether an `await` here is an operator. -/
def startsAwait : Parser Bool := do
  unless ← atWord "await" do return false
  if (← context).inAsync then return true
  nextIs (do
    if ← onNewLine then return false
    match ← lexeme with
    | .word _ _ | .number _ | .bigint _ | .string _ => return true
    | _ => return false)

/-- An operand with the update operators around it. -/
def update (rule : Rules) : Parser Node := do
  let i ← start
  match ← lexeme with
  | .symbol "++" | .symbol "--" =>
      let op := match ← lexeme with
        | .symbol s => s
        | _ => ""
      advance
      let e ← rule .unary
      let t ← asTarget false e
      node (.update op true) i [t]
  | _ =>
      let e ← leftHandSide rule
      match ← lexeme with
      | .symbol s =>
          if (s == "++" || s == "--") && !(← onNewLine) then
            let t ← asTarget false e
            advance
            node (.update s false) i [t]
          else return e
      | _ => return e

/-- An operand of a binary operator. -/
def unary (rule : Rules) : Parser Node := do
  let i ← start
  match ← lexeme with
  | .symbol s =>
      if ["+", "-", "~", "!"].contains s then
        advance
        let e ← rule .unary
        node (.unary s) i [e]
      else if s == "<" then
        require (← typed)
        advance
        let t ← rule .type
        expectSymbol ">"
        let e ← rule .unary
        node (.ascription true) i [t, e]
      else update rule
  | .word w false =>
      if ["typeof", "void", "delete"].contains w then
        advance
        let e ← rule .unary
        node (.unary w) i [e]
      else if ← startsAwait then
        require (← context).inAsync
        advance
        let e ← rule .unary
        node .awaitForm i [e]
      else update rule
  | _ => update rule

/-- How tightly a binary operator binds; zero for what is none. -/
def precedence (operator : String) : Nat :=
  match operator with
  | "??" => 1
  | "||" => 2
  | "&&" => 3
  | "|" => 4
  | "^" => 5
  | "&" => 6
  | "==" | "!=" | "===" | "!==" => 7
  | "<" | ">" | "<=" | ">=" | "instanceof" | "in" | "as" | "satisfies" => 8
  | "<<" | ">>" | ">>>" => 9
  | "+" | "-" => 10
  | "*" | "/" | "%" => 11
  | "**" => 12
  | _ => 0

/-- The binary operator that the current token is, if any. -/
def binaryOperator? : Parser (Option String) := do
  if ← atSymbol ">" then rescan scanGreater
  let c ← context
  match ← lexeme with
  | .symbol s => return if precedence s == 0 then none else some s
  | .word w false =>
      if w == "instanceof" then return some w
      else if w == "in" then return if c.allowIn then some w else none
      else if w == "as" || w == "satisfies" then
        return if c.typed && !(← onNewLine) then some w else none
      else return none
  | _ => return none

/-- Whether an operand read from an offset is the given kind of operation, outside parentheses. -/
def isBare (i : Nat) (p : Form → Bool) (n : Node) : Bool :=
  match n with
  | .node f s _ => s.start == i && p f
  | .absent => false

/-- The operators that choose between their operands. -/
def choiceOperators : List String := ["??", "||", "&&"]

/-- The operator of an operation that chooses between its operands. -/
def choice? : Node → Option String
  | .node (.binary op) _ _ => if choiceOperators.contains op then some op else none
  | _ => none

/-- Whether `??` meets `||` or `&&` without a parenthesis in front of them.  The right operand is
looked at first, and the left one only if the right one makes no choice. -/
def mixesCoalescing (operator : String) (leftParen rightParen : Bool) (left right : Node) : Bool :=
  let met := match choice? right with
    | some op => if rightParen then none else some op
    | none => if leftParen then none else choice? left
  match met with
  | some op => choiceOperators.contains operator && (operator == "??") != (op == "??")
  | none => false

/-- Whether an operand is a signed one, which may not be raised to a power. -/
def isSigned : Form → Bool
  | .unary _ | .awaitForm | .ascription true => true
  | _ => false

/-- Whether an operation asks for a private name. -/
def asksPrivately : Node → Bool
  | .node (.binary "in") _ (.node (.privateName _) _ _ :: _) => true
  | _ => false

/-- Join operands whose operators bind more tightly than `min`, at most `n` operators deep. -/
def binaryFrom (rule : Rules) : Nat → Nat → Parser Node
  | 0, _ => fail
  | n + 1, min => do
      let i ← start
      let leftParen ← atSymbol "("
      let first ← match ← lexeme with
        | .privateWord _ => do
            require (← context).allowIn
            let name ← privateName
            expectWord "in"
            let right ← binaryFrom rule n (precedence "in")
            require !(asksPrivately right)
            node (.binary "in") i [name, right]
        | _ => unary rule
      loop (fun (left : Node) => do
        match ← binaryOperator? with
        | none => return .done left
        | some op =>
            let p := precedence op
            if p ≤ min && !(op == "**" && p == min) then return .done left
            advance
            if op == "as" || op == "satisfies" then
              let t ← if ← atWord "const" then anyName else rule .type
              return .again (← node (.ascription false) i [left, t])
            require !(op == "**" && isBare i isSigned left)
            let rightParen ← atSymbol "("
            let right ← binaryFrom rule n (if op == "**" then p - 1 else p)
            require !(mixesCoalescing op leftParen rightParen left right)
            return .again (← node (.binary op) i [left, right])) first

/-- Operands joined by binary operators. -/
def binary (rule : Rules) : Parser Node := do
  let s ← get
  binaryFrom rule (s.size - s.token.start + 1) 0

/-! ### Arrow functions -/

/-- Whether an arrow function starts at a parenthesis. -/
inductive Answer where
  | yes
  | no
  | maybe
  deriving DecidableEq

/-- What the tokens behind an opening parenthesis say about an arrow function. -/
def arrowBehindParen : Parser Answer := do
  match ← lexeme with
  | .symbol ")" =>
      advance
      if ← atSymbols ["=>", "\x7b"] then return .yes
      return if (← typed) && (← atSymbol ":") then .maybe else .no
  | .symbol "[" | .symbol "\x7b" | .symbol "..." => return .maybe
  | .word w _ =>
      if isReserved w && w != "this" then return .no
      advance
      if ["public", "private", "protected", "readonly", "override"].contains w &&
          (← atIdentifier) && !(← atWord "as") then return .yes
      match ← lexeme with
      | .symbol ":" => return .yes
      | .symbol "?" =>
          advance
          return if ← atSymbols [":", ",", "=", ")"] then .yes else .no
      | .symbol "," | .symbol "=" | .symbol ")" => return .maybe
      | _ => return .no
  | _ => return .no

/-- Whether an arrow function with parameters in parentheses starts here. -/
def startsArrow : Parser Answer := do
  let worker : Parser Answer := do
    if ← eatSymbol "(" then arrowBehindParen
    else if ← typed <&&> eatSymbol "<" then
      return if (← atIdentifier) || (← atWord "const") then .maybe else .no
    else return .no
  if ← atSymbols ["(", "<"] then ahead worker .no
  else if ← atWord "async" then
    ahead (do
      advance
      if ← onNewLine then return .no
      worker) .no
  else return .no

/-- The body of an arrow function, and whether it is one expression.  An expression stands in the
body as a statement of its own. -/
def arrowBody (rule : Rules) (isAsync resultTypes : Bool) : Parser (Node × Bool) := do
  if ← atSymbol "\x7b" then
    let body ← withContext (insideFunction isAsync false) (functionBody rule)
    return (body, false)
  else
    let e ← withContext
      (fun c => { c with inAsync := isAsync, inGenerator := false, inDecorator := false })
      (rule (.assignment resultTypes))
    let stmt : Node := .node .expressionStatement e.span [e]
    return (.node .functionBody e.span [stmt], true)

/-- What stands in front of the body of an arrow function. -/
structure ArrowHead where
  /-- Where the function starts. -/
  start : Nat
  /-- Whether it is asynchronous. -/
  isAsync : Bool
  /-- Its type parameters, its parameters and its result. -/
  parts : List Node
  /-- Whether it declares its result. -/
  hasResult : Bool

/-- Read up to the arrow of an arrow function with parameters in parentheses. -/
def arrowHead (rule : Rules) : Parser ArrowHead := do
  let i ← start
  let isAsync ← eatWord "async"
  let parts ← withContext (fun c => { c with inAsync := c.inAsync || isAsync }) (do
    let types ← typeParameters rule
    let params ← parameters rule
    let result ← resultType rule
    return [types, params, result])
  require !(parts.any fun n => n.parts.any isThisParameter)
  require !(← onNewLine)
  expectSymbol "=>"
  let hasResult := match parts with
    | [_, _, .absent] => false
    | _ => true
  return { start := i, isAsync, parts, hasResult }

/-- The rest of an arrow function behind its arrow. -/
def arrowFrom (rule : Rules) (head : ArrowHead) (resultTypes : Bool) : Parser Node := do
  let (body, brief) ← arrowBody rule head.isAsync resultTypes
  node (.arrow head.isAsync brief) head.start (head.parts ++ [body])

/-- An arrow function that may turn out to be an expression in parentheses.  Where a conditional
awaits its colon, one that declares its result must be followed by that colon. -/
def possibleArrow? (rule : Rules) (resultTypes : Bool) : Parser (Option Node) := do
  let i ← start
  if (← get).notArrows.contains i then return none
  let found ← attemptIf (do
    let head ← attempt (arrowHead rule)
    match head with
    | none => return none
    | some head =>
        let f ← arrowFrom rule head resultTypes
        if !resultTypes && head.hasResult && !(← atSymbol ":") then return none
        return some f)
  if found.isNone then modify fun s => { s with notArrows := i :: s.notArrows }
  return found

/-- An arrow function whose parameters are in parentheses, if one starts here. -/
def parenthesizedArrow? (rule : Rules) (resultTypes : Bool) : Parser (Option Node) := do
  match ← startsArrow with
  | .no => return none
  | .yes =>
      let head ← arrowHead rule
      return some (← arrowFrom rule head true)
  | .maybe => possibleArrow? rule resultTypes

/-- An arrow function with a bare name for its parameter, from its arrow. -/
def simpleArrow (rule : Rules) (i : Nat) (isAsync : Bool) (name : Node) (resultTypes : Bool) :
    Parser Node := do
  require !(← onNewLine)
  expectSymbol "=>"
  let param : Node := .node .parameter name.span [name, .absent, .absent]
  let params : Node := .node .parameters name.span [param]
  arrowFrom rule { start := i, isAsync, parts := [.absent, params, .absent], hasResult := false }
    resultTypes

/-- Whether an asynchronous arrow function with a bare name for its parameter starts here. -/
def startsAsyncArrow : Parser Bool :=
  atWord "async" <&&> ahead (do
    advance
    if (← onNewLine) || !(← atIdentifier) then return false
    advance
    return (← atSymbol "=>") && !(← onNewLine)) false

/-! ### Assignments and above -/

/-- Whether a `yield` here is an operator. -/
def startsYield : Parser Bool := do
  unless ← atWord "yield" do return false
  if (← context).inGenerator then return true
  nextIs (do
    if ← onNewLine then return false
    match ← lexeme with
    | .word w _ => return !(["in", "instanceof", "as", "satisfies"].contains w)
    | .number _ | .bigint _ | .string _ => return true
    | _ => return false)

/-- A `yield` with what it hands out. -/
def yieldExpression (rule : Rules) : Parser Node := do
  require (← context).inGenerator
  let i ← start
  expectWord "yield"
  if ← onNewLine then node (.yieldForm false) i [.absent]
  else
    let delegates ← eatSymbol "*"
    let ends := (← atSymbols [";", "\x7d", "]", ")", ":", ","]) || (← atFinish) || (← atWord "in")
    if ends && !delegates then node (.yieldForm false) i [.absent]
    else
      let e ← rule (.assignment true)
      node (.yieldForm delegates) i [e]

/-- The operators of assignments. -/
def assignmentOperators : List String :=
  ["=", "+=", "-=", "*=", "/=", "%=", "**=", "<<=", ">>=", ">>>=", "&=", "|=", "^=", "&&=", "||=",
   "??="]

/-- A conditional, from its question mark, if there is one. -/
def conditionalRest (rule : Rules) (i : Nat) (test : Node) (resultTypes : Bool) :
    Parser Node := do
  if ← eatSymbol "?" then
    let yes ← withContext (fun c => { c with allowIn := true }) (rule (.assignment false))
    expectSymbol ":"
    let no ← rule (.assignment resultTypes)
    node .conditional i [test, yes, no]
  else return test

/-- An expression that does not start with an operator word of its own: an assignment, an arrow
function with a bare name, a conditional or simpler. -/
def plainAssignment (rule : Rules) (resultTypes : Bool) : Parser Node := do
  let i ← start
  let left ← binary rule
  match ← lexeme, left with
  | .symbol "=>", .node (.name w) s ps =>
      simpleArrow rule i false (.node (.name w) s ps) resultTypes
  | .symbol op, _ =>
      if assignmentOperators.contains op then
        let target ← asTarget true left
        advance
        let value ← rule (.assignment resultTypes)
        node (.assignment op) i [target, value]
      else conditionalRest rule i left resultTypes
  | _, _ => return left

/-- An expression without a comma at its top. -/
def assignment (rule : Rules) (resultTypes : Bool) : Parser Node := do
  if ← startsYield then yieldExpression rule
  else
    match ← parenthesizedArrow? rule resultTypes with
    | some f => return f
    | none =>
        if ← startsAsyncArrow then
          let i ← start
          advance
          let name ← withContext (fun c => { c with inAsync := true }) identifier
          simpleArrow rule i true name resultTypes
        else plainAssignment rule resultTypes

/-- An expression, commas included. -/
def expression (rule : Rules) : Parser Node := do
  let i ← start
  let first ← rule (.assignment true)
  if ← atSymbol "," then
    let items ← loop (fun (acc : List Node) => do
      unless ← eatSymbol "," do return .done acc
      return .again ((← rule (.assignment true)) :: acc)) [first]
    node .sequence i items.reverse
  else return first

end ComponentCompiler.Script.Grammar
