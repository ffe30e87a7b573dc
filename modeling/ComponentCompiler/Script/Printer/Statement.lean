import ComponentCompiler.Script.Printer.Expression

/-!
# Printing statements

## Main definitions

* `statementText` — a statement, without the tabs in front and with the end of its line.
-/

namespace ComponentCompiler.Script

/-- The end of a statement. -/
def semicolon : List Char := [';', '\n']

/-- Statements in braces. -/
def blockText (p : Printers) (indent : Nat) (statements : List Node) : List Char :=
  braced indent (statements.map (p.line (indent + 1)))

/-- A statement that belongs to another one, in its line. -/
def tailText (p : Printers) (indent : Nat) : Node → List Char
  | .node .block _ ps => ' ' :: blockText p indent ps ++ ['\n']
  | .node .emptyStatement _ _ => semicolon
  | n => ' ' :: p.statement indent n

/-- Whether an `else` behind a statement would be read as part of it. -/
def takesElse : Node → Bool
  | .node .ifStatement _ [_, _, .absent] => true
  | .node .ifStatement _ [_, _, no] => takesElse no
  | .node .forStatement _ [_, _, _, body] => takesElse body
  | .node .forInStatement _ [_, _, body] => takesElse body
  | .node (.forOfStatement _) _ [_, _, body] => takesElse body
  | .node .whileStatement _ [_, body] => takesElse body
  | .node .withStatement _ [_, body] => takesElse body
  | .node .labeledStatement _ [_, body] => takesElse body
  | _ => false

/-- What follows behind `else`. -/
def elseText (p : Printers) (indent : Nat) : Node → List Char
  | .node .ifStatement s ps => ' ' :: p.statement indent (.node .ifStatement s ps)
  | n => tailText p indent n

/-- A choice. -/
def ifText (p : Printers) (indent : Nat) (test yes no : Node) : List Char :=
  let head := "if (".toList ++ p.whole indent test ++ [')']
  let other := "else".toList ++ elseText p indent no
  let inBraces (block : List Char) : List Char :=
    head ++ ' ' :: block ++ (if no.isAbsent then ['\n'] else ' ' :: other)
  match yes with
  | .node .block _ ps => inBraces (blockText p indent ps)
  | yes =>
      if takesElse yes then inBraces (braced indent [p.line (indent + 1) yes])
      else head ++ tailText p indent yes ++ (if no.isAbsent then [] else tabs indent ++ other)

/-- A variable with its value. -/
def declaratorText (p : Printers) (s : Spot) : Node → List Char
  | .node .declarator _ [target, _, value] =>
      p.expression (s.inside Level.comma) target ++ initializerText p s value
  | _ => []

/-- Variables behind the words that introduce them. -/
def variablesText (p : Printers) (s : Spot) (keyword : String) (ds : List Node) : List Char :=
  keyword.toList ++ ' ' :: commaList (ds.map (declaratorText p s))

/-- What stands in front of the first semicolon or the connecting word of a loop. -/
def loopHeadText (p : Printers) (indent : Nat) : Node → List Char
  | .node (.variables keyword) _ ds => variablesText p { indent, noIn := true } keyword ds
  | n => p.expression { indent, noIn := true } n

/-- An expression behind a blank, if there is one. -/
def blankText (p : Printers) (indent : Nat) : Node → List Char
  | .absent => []
  | n => ' ' :: p.whole indent n

/-- One case of a choice by value. -/
def caseText (p : Printers) (indent : Nat) (test : Node) (statements : List Node) : List Char :=
  (if test.isAbsent then "default:".toList else "case ".toList ++ p.whole indent test ++ [':']) ++
    match statements with
    | [n] => tailText p indent n
    | ns => '\n' :: ns.flatMap (p.line (indent + 1))

/-- What is done about errors, and what follows in any case. -/
def tryText (p : Printers) (indent : Nat) (block handler finalizer : Node) : List Char :=
  let caught := match handler with
    | .node .catchClause _ [param, _, body] =>
        " catch ".toList ++
          (if param.isAbsent then [] else wrapIf true (p.whole indent param) ++ [' ']) ++
          blockText p indent body.parts
    | _ => []
  let final := if finalizer.isAbsent then []
    else " finally ".toList ++ blockText p indent finalizer.parts
  "try ".toList ++ blockText p indent block.parts ++ caught ++ final ++ ['\n']

/-! ### Modules -/

/-- A name in a list, with the other name under which it is known. -/
def renamedText (p : Printers) (name other : Node) : List Char :=
  if name.form? == other.form? then p.whole 0 name
  else p.whole 0 name ++ " as ".toList ++ p.whole 0 other

/-- Where something comes from, with the remarks on how to load it. -/
def sourceText (p : Printers) (source attributes : Node) : List Char :=
  let remarks := match attributes with
    | .node .importAttributes _ as => " with ".toList ++ '{' :: ' ' :: commaList (as.map fun a =>
        match a.parts with
        | [k, v] => p.whole 0 k ++ ':' :: ' ' :: p.whole 0 v
        | _ => []) ++ [' ', '}']
    | _ => []
  p.whole 0 source ++ remarks

/-- Names in braces. -/
def namesText (ts : List (List Char)) : List Char :=
  if ts.isEmpty then ['{', '}'] else '{' :: ' ' :: commaList ts ++ [' ', '}']

/-- What an import binds. -/
def importBindingsText (p : Printers) (bindings : List Node) : List Char :=
  let single : Node → Option (List Char)
    | .node .importDefault _ [n] => some (p.whole 0 n)
    | .node .importNamespace _ [n] => some ("* as ".toList ++ p.whole 0 n)
    | _ => none
  let listed : Node → Option (List Char)
    | .node .importName _ [n, l] => some (renamedText p n l)
    | _ => none
  let names := bindings.filterMap listed
  let singles := bindings.filterMap single
  commaList (singles ++ (if names.isEmpty && !singles.isEmpty then [] else [namesText names]))

/-- The parts of a list, without its last two. -/
def withoutSource (ps : List Node) : List Node := ps.take (ps.length - 2)

/-- What a module takes from another one. -/
def importText (p : Printers) (phase : String) (bare : Bool) (ps : List Node) : List Char :=
  match ps.drop (ps.length - 2) with
  | [source, attributes] =>
      "import ".toList ++ (if phase.isEmpty then [] else phase.toList ++ [' ']) ++
        (if bare then [] else importBindingsText p (withoutSource ps) ++ " from ".toList) ++
        sourceText p source attributes ++ semicolon
  | _ => []

/-- The names that a module gives. -/
def exportNamesText (p : Printers) (ps : List Node) : List Char :=
  let names := (withoutSource ps).map fun n =>
    match n.parts with
    | [l, e] => renamedText p l e
    | _ => []
  match ps.drop (ps.length - 2) with
  | [source, attributes] =>
      "export ".toList ++ namesText names ++
        (if source.isAbsent then [] else " from ".toList ++ sourceText p source attributes) ++
        semicolon
  | _ => []

/-- What a module gives by default. -/
def exportDefaultText (p : Printers) (indent : Nat) (n : Node) : List Char :=
  let isDeclaration := match n with
    | .node (.function _ _ false) _ _ | .node (.classForm false _) _ _ => true
    | _ => false
  "export default ".toList ++
    if isDeclaration then p.statement indent n
    else p.expression { indent, level := Level.comma, start := .defaultExport } n ++ semicolon

/-! ### Statements -/

/-- A statement, without the tabs in front and with the end of its line. -/
def statementText (p : Printers) (indent : Nat) : Node → List Char
  | .absent => []
  | .node form span parts =>
      match form, parts with
      | .expressionStatement, [e] => p.expression { indent, start := .statement } e ++ semicolon
      | .block, ps => blockText p indent ps ++ ['\n']
      | .emptyStatement, _ => semicolon
      | .ifStatement, [t, y, n] => ifText p indent t y n
      | .forStatement, [init, test, step, body] =>
          "for (".toList ++ loopHeadText p indent init ++ ';' :: blankText p indent test ++
            ';' :: blankText p indent step ++ ')' :: tailText p indent body
      | .forInStatement, [left, right, body] =>
          "for (".toList ++ loopHeadText p indent left ++ " in ".toList ++ p.whole indent right ++
            ')' :: tailText p indent body
      | .forOfStatement isAwait, [left, right, body] =>
          "for ".toList ++ (if isAwait then "await ".toList else []) ++
            '(' :: loopHeadText p indent left ++ " of ".toList ++
            p.expression { indent, level := Level.comma } right ++ ')' :: tailText p indent body
      | .whileStatement, [test, body] =>
          "while (".toList ++ p.whole indent test ++ ')' :: tailText p indent body
      | .doWhileStatement, [body, test] =>
          let inside := match body with
            | .node .block _ ps => ' ' :: blockText p indent ps ++ [' ']
            | n => '\n' :: p.line (indent + 1) n ++ tabs indent
          "do".toList ++ inside ++ "while (".toList ++ p.whole indent test ++ ')' :: semicolon
      | .returnStatement, [e] => "return".toList ++ blankText p indent e ++ semicolon
      | .throwStatement, [e] => "throw".toList ++ blankText p indent e ++ semicolon
      | .breakStatement, [l] => "break".toList ++ blankText p indent l ++ semicolon
      | .continueStatement, [l] => "continue".toList ++ blankText p indent l ++ semicolon
      | .debuggerStatement, _ => "debugger".toList ++ semicolon
      | .tryStatement, [b, h, f] => tryText p indent b h f
      | .switchStatement, e :: cases =>
          "switch (".toList ++ p.whole indent e ++ ')' :: ' ' ::
            braced indent (cases.map (p.line (indent + 1))) ++ ['\n']
      | .switchCase, test :: ns => caseText p indent test ns
      | .labeledStatement, [l, body] => p.whole indent l ++ ':' :: tailText p indent body
      | .withStatement, [o, body] =>
          "with(".toList ++ p.whole indent o ++ ')' :: tailText p indent body
      | .variables keyword, ds => variablesText p { indent } keyword ds ++ semicolon
      | .importDeclaration phase bare, ps => importText p phase bare ps
      | .exportDeclaration, [d] => "export ".toList ++ p.statement indent d
      | .exportNames, ps => exportNamesText p ps
      | .exportAll, [name, source, attributes] =>
          "export *".toList ++
            (if name.isAbsent then [] else " as ".toList ++ p.whole indent name) ++
            " from ".toList ++ sourceText p source attributes ++ semicolon
      | .exportDefault, [n] => exportDefaultText p indent n
      | form, parts => p.whole indent (.node form span parts) ++ ['\n']

end ComponentCompiler.Script
