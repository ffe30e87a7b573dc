import ComponentCompiler.Script.Token

/-!
# The syntax of a script

A script is read into `Node`s, which are all of one shape: what the node is (its `Form`), where it
stands, and its parts in source order.  A part that was left out is `Node.absent`, so that the
parts of a form keep their places: the parts of an `if` are its test, its consequent and its
alternative, whether there is an alternative or not.

## Main definitions

* `Form` — what a node is, with the number and meaning of its parts.
* `Node` — a form with its place and its parts.
-/

namespace ComponentCompiler.Script

/-- How a property of an object literal or a member of a class is given. -/
inductive PropertyStyle where
  /-- A key with a value. -/
  | value
  /-- A name that is its own value. -/
  | shorthand
  /-- A function without the keyword. -/
  | method
  /-- A function that computes the value. -/
  | getter
  /-- A function that takes a new value. -/
  | setter
  deriving DecidableEq, Repr

/-- What a node is.  The parts of a form are listed in brackets; a `?` marks one that may be
absent, a `*` any number of them. -/
inductive Form where
  /-- `[directive*, statement*]` -/
  | program
  /-- A directive with its text as written between the quotes. -/
  | directive (raw : String)
  /-- `[expression]` -/
  | expressionStatement
  /-- `[statement*]` -/
  | block
  /-- A lone semicolon. -/
  | emptyStatement
  /-- `[test, consequent, alternative?]` -/
  | ifStatement
  /-- `[init?, test?, update?, body]` -/
  | forStatement
  /-- `[left, right, body]` -/
  | forInStatement
  /-- `[left, right, body]` -/
  | forOfStatement (isAwait : Bool)
  /-- `[test, body]` -/
  | whileStatement
  /-- `[body, test]` -/
  | doWhileStatement
  /-- `[argument?]` -/
  | returnStatement
  /-- `[argument]` -/
  | throwStatement
  /-- `[block, handler?, finalizer?]` -/
  | tryStatement
  /-- `[parameter?, type?, body]` -/
  | catchClause
  /-- `[discriminant, case*]` -/
  | switchStatement
  /-- `[test?, statement*]` -/
  | switchCase
  /-- `[label, body]` -/
  | labeledStatement
  /-- `[label?]` -/
  | breakStatement
  /-- `[label?]` -/
  | continueStatement
  /-- The statement that calls a debugger. -/
  | debuggerStatement
  /-- `[object, body]` -/
  | withStatement
  /-- `[declarator*]`, under the words that introduce them -/
  | variables (keyword : String)
  /-- `[target, type?, value?]` -/
  | declarator
  /-- `[name?, types?, parameters, type?, body?]` -/
  | function (isAsync isGenerator isExpression : Bool)
  /-- `[parameter*]` -/
  | parameters
  /-- `[decorator*, target, type?, default?]` -/
  | parameter
  /-- `[directive*, statement*]` -/
  | functionBody
  /-- `[types?, parameters, type?, body]`; the body of a `brief` arrow is one expression -/
  | arrow (isAsync brief : Bool)
  /-- `[decorator*, name?, types?, base?, arguments?, interface*, body]` -/
  | classForm (isExpression : Bool) (decorators : Nat)
  /-- `[member*]` -/
  | classBody
  /-- `[decorator*, key, value]` -/
  | classMethod (style : PropertyStyle) (isStatic computed : Bool) (decorators : Nat)
  /-- `[decorator*, key, type?, value?]` -/
  | classField (isStatic computed isAccessor : Bool) (decorators : Nat)
  /-- `[statement*]` -/
  | staticBlock
  /-- `[expression]` -/
  | decorator
  /-- A name that stands for itself: a variable, a label, a key. -/
  | name (text : String)
  /-- A name behind a number sign. -/
  | privateName (text : String)
  /-- A number. -/
  | number (value : Decimal)
  /-- An integer of any size. -/
  | bigint (value : Nat)
  /-- A string, as code points. -/
  | string (value : List Nat)
  /-- A regular expression. -/
  | regex (pattern flags : String)
  /-- A word that is an expression by itself: `this`, `null`, `true`, `false` or `super`. -/
  | keyword (text : String)
  /-- `[text, (expression, text)*]` -/
  | template
  /-- A stretch of a template. -/
  | templateText (raw : String)
  /-- `[tag, types?, template]` -/
  | taggedTemplate
  /-- `[element?*]`, with whether a comma stands behind the last one -/
  | array (comma : Bool)
  /-- `[property*]`, with whether a comma stands behind the last one -/
  | object (comma : Bool)
  /-- `[key, value]` -/
  | property (style : PropertyStyle) (computed : Bool)
  /-- `[name, default]`, a property that only a pattern can have -/
  | defaultedName
  /-- `[argument]` -/
  | spread
  /-- `[argument]` -/
  | unary (operator : String)
  /-- `[argument]` -/
  | update (operator : String) (leading : Bool)
  /-- `[left, right]` -/
  | binary (operator : String)
  /-- `[test, consequent, alternative]` -/
  | conditional
  /-- `[target, value]` -/
  | assignment (operator : String)
  /-- `[expression*]` -/
  | sequence
  /-- `[argument]` -/
  | awaitForm
  /-- `[argument?]` -/
  | yieldForm (delegates : Bool)
  /-- `[object, name]` -/
  | member (optional : Bool)
  /-- `[object, key]` -/
  | index (optional : Bool)
  /-- `[callee, types?, argument*]` -/
  | call (optional : Bool)
  /-- `[callee, types?, argument*]` -/
  | newForm
  /-- `[expression]`, around a run of optional accesses -/
  | chain
  /-- `[source, options?]`, with the phase that is asked for -/
  | importCall (phase : String)
  /-- `[]`, such as `new.target` -/
  | metaProperty (text : String)
  /-- `[expression]`, where parentheses are kept -/
  | parenthesized
  /-- `[expression, type?]`, an expression with a remark on its type; `[type, expression]` when
  the remark is in front -/
  | ascription (inFront : Bool)
  /-- `[element?*]` -/
  | arrayPattern
  /-- `[property*]` -/
  | objectPattern
  /-- `[key, target]` -/
  | patternProperty (isShorthand computed : Bool)
  /-- `[target, default]` -/
  | defaulted
  /-- `[target]` -/
  | rest
  /-- `[binding*, source, attributes?]`, with the phase that is asked for; an import without any
  bindings clause is `bare` -/
  | importDeclaration (phase : String) (bare : Bool)
  /-- `[local]` -/
  | importDefault
  /-- `[local]` -/
  | importNamespace
  /-- `[imported, local]` -/
  | importName
  /-- `[declaration]` -/
  | exportDeclaration
  /-- `[specifier*, source?, attributes?]` -/
  | exportNames
  /-- `[local, exported]` -/
  | exportName
  /-- `[exported?, source, attributes?]` -/
  | exportAll
  /-- `[expression or declaration]` -/
  | exportDefault
  /-- `[attribute*]` -/
  | importAttributes
  /-- `[key, value]` -/
  | importAttribute
  /-- A type, or a declaration or expression that only types have a use for. -/
  | typeLevel
  deriving DecidableEq, Repr

/-- A node of a script, placed by its bytes. -/
inductive Node where
  /-- A part that was left out. -/
  | absent : Node
  /-- A form at its place with its parts. -/
  | node (form : Form) (span : Span) (parts : List Node) : Node
  deriving Repr

namespace Node

/-- The form of a node that is present. -/
def form? : Node → Option Form
  | .absent => none
  | .node f _ _ => some f

/-- The place of a node; an absent one has none, and stands at the start. -/
def span : Node → Span
  | .absent => ⟨0, 0⟩
  | .node _ s _ => s

/-- The parts of a node. -/
def parts : Node → List Node
  | .absent => []
  | .node _ _ ps => ps

/-- Whether a node is absent. -/
def isAbsent : Node → Bool
  | .absent => true
  | .node _ _ _ => false

mutual

/-- Whether some node of a tree has a form of a kind. -/
def any (p : Form → Bool) : Node → Bool
  | .absent => false
  | .node f _ ps => p f || anyOf p ps

/-- Whether some node of a list of trees has a form of a kind. -/
def anyOf (p : Form → Bool) : List Node → Bool
  | [] => false
  | n :: ns => n.any p || anyOf p ns

end

end Node

end ComponentCompiler.Script
