import ComponentCompiler.Script.Printer.Function

/-!
# Printing expressions

## Main definitions

* `expressionText` — an expression, a pattern or a name at its spot.
-/

namespace ComponentCompiler.Script

/-! ### Literals -/

/-- A template. -/
def templateText (p : Printers) (indent : Nat) (parts : List Node) : List Char :=
  let piece : Node → List Char
    | .node (.templateText raw) _ _ => guardMarkup raw.toList
    | e => '$' :: '{' :: p.whole indent e ++ ['}']
  '\x60' :: parts.flatMap piece ++ ['\x60']

/-- An array: up to two elements in one line, more in lines of their own.  A missing element at the
end is told by a comma. -/
def arrayText (p : Printers) (indent : Nat) (elements : List Node) : List Char :=
  let isLong := 2 < elements.length
  let inner := if isLong then indent + 1 else indent
  let texts := elements.map (p.expression { indent := inner, level := Level.comma })
  let texts := if (elements.getLast?.map Node.isAbsent).getD false then
      texts.dropLast ++ [[',']]
    else texts
  '[' :: (if isLong then listLines indent texts else commaList texts) ++ [']']

/-- Whether a property can be told by its value alone. -/
def isShorthand (style : PropertyStyle) (computed : Bool) (key value : Node) : Bool :=
  match computed, key, value.bare with
  | false, .node (.name k) _ _, .node (.name v) _ _ =>
      if k == "__proto__" then style == .shorthand else k == v
  | _, _, _ => false

/-- A property of an object. -/
def propertyText (p : Printers) (indent : Nat) : Node → List Char
  | .node (.property style computed) _ [key, value] =>
      let plain := p.expression { indent, level := Level.comma } value
      match style with
      | .method | .getter | .setter => methodText p indent style computed key value
      | _ =>
          if isShorthand style computed key value then plain
          else keyText p indent computed key ++ ':' :: ' ' :: plain
  | n => p.expression { indent, level := Level.comma } n

/-- An object: one property in one line, more in lines of their own. -/
def objectText (p : Printers) (indent : Nat) : List Node → List Char
  | [] => ['{', '}']
  | [n] => '{' :: ' ' :: propertyText p indent n ++ [' ', '}']
  | ns => '{' :: listLines indent (ns.map (propertyText p (indent + 1))) ++ ['}']

/-! ### Patterns -/

/-- Whether a property of a pattern can be told by its target alone. -/
def isShorthandTarget (computed : Bool) (key target : Node) : Bool :=
  match computed, key, target with
  | false, .node (.name k) _ _, .node (.name v) _ _ => k == v
  | false, .node (.name k) _ _, .node .defaulted _ (.node (.name v) _ _ :: _) => k == v
  | _, _, _ => false

/-- A property of a pattern. -/
def targetPropertyText (p : Printers) (indent : Nat) : Node → List Char
  | .node (.patternProperty _ computed) _ [key, target] =>
      let plain := p.expression { indent, level := Level.comma } target
      if isShorthandTarget computed key target then plain
      else keyText p indent computed key ++ ':' :: ' ' :: plain
  | n => p.expression { indent, level := Level.comma } n

/-- A pattern that takes an object apart. -/
def objectPatternText (p : Printers) (indent : Nat) : List Node → List Char
  | [] => ['{', '}']
  | ns => '{' :: ' ' :: commaList (ns.map (targetPropertyText p indent)) ++ [' ', '}']

/-- A pattern that takes an array apart. -/
def arrayPatternText (p : Printers) (indent : Nat) (ns : List Node) : List Char :=
  let texts := ns.map (p.expression { indent, level := Level.comma })
  let comma := if (ns.getLast?.map Node.isAbsent).getD false then [','] else []
  '[' :: commaList texts ++ comma ++ [']']

/-! ### Operators -/

/-- Whether two texts would run together as one operator. -/
def runTogether (operator : List Char) (operand : List Char) : Bool :=
  (operator == ['+'] && operand.head? == some '+') ||
    (operator == ['-'] && operand.head? == some '-')

/-- An operator in front of its operand. -/
def unaryText (operator : String) (operand : List Char) : List Char :=
  let op := operator.toList
  op ++ (if op.all Char.isAlpha || runTogether op operand then [' '] else []) ++ operand

/-- Whether a node is an operation with one of some operators. -/
def isBinaryOf (operators : List String) (n : Node) : Bool :=
  match n.bare with
  | .node (.binary op) _ _ => operators.contains op
  | _ => false

/-- Whether a node is an operation that may not be raised to a power. -/
def isLeadingOperation (n : Node) : Bool :=
  match n.bare with
  | .node (.unary _) _ _ | .node .awaitForm _ _ => true
  | _ => false

/-- How tightly the two sides of a binary operator bind. -/
def sideLevels (operator : String) (left right : Node) : Level × Level :=
  let level := Level.ofBinary operator
  match operator with
  | "**" => (if isLeadingOperation left then Level.call else level, level - 1)
  | "??" =>
      let mixed := isBinaryOf ["||", "&&"]
      (if mixed left then Level.leading else level - 1,
        if mixed right then Level.leading else level)
  | _ => (level - 1, level)

/-- A binary operator between its operands. -/
def binaryText (p : Printers) (s : Spot) (operator : String) (left right : Node) : List Char :=
  let wrap := Level.ofBinary operator ≤ s.level || (operator == "in" && s.noIn)
  let (l, r) := sideLevels operator left right
  let noIn := s.noIn && !wrap
  let start := if wrap then .inner else s.start
  wrapIf wrap <|
    p.expression { indent := s.indent, level := l, start, noIn } left ++
      ' ' :: operator.toList ++ ' ' :: p.expression { indent := s.indent, level := r, noIn } right

/-- A choice between two expressions. -/
def conditionalText (p : Printers) (s : Spot) (test yes no : Node) : List Char :=
  let wrap := decide (Level.conditional ≤ s.level)
  let start := if wrap then .inner else s.start
  wrapIf wrap <|
    p.expression { indent := s.indent, level := Level.conditional, start, noIn := s.noIn } test ++
      " ? ".toList ++ p.expression (s.inside Level.yield) yes ++
      " : ".toList ++ p.expression { s.inside Level.yield with noIn := s.noIn } no

/-- An assignment.  One to the parts of an object stands in parentheses where a brace would be read
in another way. -/
def assignmentText (p : Printers) (s : Spot) (operator : String) (target value : Node) :
    List Char :=
  let opensBrace := (s.start == .statement || s.start == .arrowBody) &&
    target.form? == some .objectPattern
  let wrap := opensBrace || Level.assign ≤ s.level
  let start := if wrap then .inner else s.start
  wrapIf wrap <|
    p.expression { indent := s.indent, level := Level.comma, start, noIn := s.noIn } target ++
      ' ' :: operator.toList ++
      ' ' :: p.expression { s.inside Level.comma with noIn := s.noIn } value

/-- Expressions with commas between them. -/
def sequenceText (p : Printers) (s : Spot) (es : List Node) : List Char :=
  let wrap := decide (Level.comma ≤ s.level)
  let start := if wrap then .inner else s.start
  let spot : Spot := { indent := s.indent, noIn := s.noIn }
  wrapIf wrap <|
    match es with
    | [] => []
    | e :: es =>
        commaList (p.expression { spot with start } e :: es.map (p.expression spot))

/-! ### Accesses and calls -/

/-- The dot behind an operand; one behind digits would be read as part of the number. -/
def dotText (operand : Node) (text : List Char) : List Char :=
  match operand.bare with
  | .node (.number _) _ _ => if text.all Char.isDigit then [' ', '.'] else ['.']
  | _ => ['.']

/-- The arguments of a call. -/
def argumentsText (p : Printers) (indent : Nat) (args : List Node) : List Char :=
  wrapIf true (commaList (args.map (p.expression { indent, level := Level.comma })))

/-- An operand that an access or a call stands behind. -/
def operandText (p : Printers) (s : Spot) (operand : Node) : List Char :=
  p.expression { s.first Level.trailing with noCall := s.noCall } operand

/-! ### Expressions -/

/-- Whether a node is a function that is an expression. -/
def isFunctionValue (n : Node) : Bool :=
  match n with
  | .node (.function _ _ true) _ _ | .node (.arrow _ _) _ _ => true
  | _ => false

/-- An expression, a pattern or a name. -/
def expressionText (p : Printers) (s : Spot) : Node → List Char
  | .absent => []
  | .node form _ parts =>
      match form, parts with
      | .name w, _ => w.toList
      | .privateName w, _ => '#' :: w.toList
      | .number v, _ => v.text
      | .bigint v, _ => Nat.toDigits 10 v ++ ['n']
      | .string v, _ => quotedText v
      | .regex pattern flags, _ => '/' :: pattern.toList ++ '/' :: flags.toList
      | .keyword w, _ => w.toList
      | .metaProperty w, _ => w.toList
      | .template, ps => templateText p s.indent ps
      | .taggedTemplate, [tag, _, t] => operandText p s tag ++ p.whole s.indent t
      | .array _, es => arrayText p s.indent es
      | .object _, ps =>
          wrapIf (s.start == .statement || s.start == .arrowBody) (objectText p s.indent ps)
      | .spread, [e] => "...".toList ++ p.expression (s.inside Level.comma) e
      | .rest, [e] => "...".toList ++ p.expression (s.inside Level.comma) e
      | .arrayPattern, ps => arrayPatternText p s.indent ps
      | .objectPattern, ps => objectPatternText p s.indent ps
      | .defaulted, [t, v] => p.expression (s.inside Level.comma) t ++ initializerText p s v
      | .parenthesized, [e] =>
          if isFunctionValue e then wrapIf true (p.expression (s.inside Level.lowest) e)
          else p.expression s e
      | .function isAsync isGenerator isExpression, ps =>
          wrapIf (isExpression && (s.start == .statement || s.start == .defaultExport))
            (functionText p s.indent isAsync isGenerator ps)
      | .arrow isAsync brief, ps =>
          wrapIf (Level.assign ≤ s.level) (arrowText p s isAsync brief ps)
      | .classForm isExpression decorators, ps =>
          wrapIf (isExpression && (s.start == .statement || s.start == .defaultExport))
            (classText p s.indent decorators ps)
      | .decorator, [e] => '@' :: p.expression (s.inside Level.trailing) e
      | .unary op, [e] =>
          wrapIf (Level.leading ≤ s.level)
            (unaryText op (p.expression { s.inside Level.power with noIn := s.noIn } e))
      | .update op true, [e] =>
          wrapIf (Level.leading ≤ s.level) (op.toList ++ p.expression (s.inside Level.leading) e)
      | .update op false, [e] =>
          let wrap := decide (Level.trailing ≤ s.level)
          let start := if wrap then .inner else s.start
          wrapIf wrap
            (p.expression { indent := s.indent, level := Level.trailing, start } e ++ op.toList)
      | .binary op, [l, r] => binaryText p s op l r
      | .conditional, [t, y, n] => conditionalText p s t y n
      | .assignment op, [t, v] => assignmentText p s op t v
      | .sequence, es => sequenceText p s es
      | .awaitForm, [e] =>
          wrapIf (Level.leading ≤ s.level)
            ("await ".toList ++ p.expression (s.inside Level.power) e)
      | .yieldForm delegates, [e] =>
          wrapIf (Level.assign ≤ s.level)
            ("yield".toList ++ (if delegates then ['*'] else []) ++
              (if e.isAbsent then [] else ' ' :: p.expression (s.inside Level.yield) e))
      | .member optional, [o, name] =>
          let t := operandText p s o
          t ++ (if optional then ['?', '.'] else dotText o t) ++ p.whole s.indent name
      | .index optional, [o, key] =>
          operandText p s o ++ (if optional then ['?', '.'] else []) ++
            '[' :: p.whole s.indent key ++ [']']
      | .call optional, callee :: _ :: args =>
          wrapIf (Level.construct ≤ s.level || s.noCall)
            (p.expression (s.first Level.trailing) callee ++
              (if optional then ['?', '.'] else []) ++ argumentsText p s.indent args)
      | .newForm, callee :: _ :: args =>
          "new ".toList ++
            p.expression { s.inside Level.construct with noCall := true } callee ++
            argumentsText p s.indent args
      | .chain, [e] =>
          let wrap := decide (Level.trailing ≤ s.level)
          wrapIf wrap (p.expression { s.first Level.lowest with
            start := if wrap then .inner else s.start } e)
      | .importCall phase, ps =>
          wrapIf (Level.construct ≤ s.level || s.noCall)
            ("import".toList ++ (if phase.isEmpty then [] else '.' :: phase.toList) ++
              argumentsText p s.indent (ps.filter (!·.isAbsent)))
      | _, _ => []

end ComponentCompiler.Script
