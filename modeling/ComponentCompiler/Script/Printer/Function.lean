import ComponentCompiler.Script.Printer.Double
import ComponentCompiler.Script.Printer.Layout
import ComponentCompiler.Script.Printer.Quoted

/-!
# Printing functions and classes

## Main definitions

* `bodyText` — directives and statements in braces.
* `parametersText`, `functionText`, `methodText`, `arrowText` — functions.
* `classText` — classes.
-/

namespace ComponentCompiler.Script

/-- Statements with the directives in front of them, each on its lines.  A string that is the first
statement but no directive stands in parentheses. -/
def statementLines (p : Printers) (indent : Nat) (items : List Node) : List (List Char) :=
  let line (n : Node) : List Char :=
    match n with
    | .node (.directive raw) _ _ => tabs indent ++ directiveText raw ++ [';', '\n']
    | n => p.line indent n
  match items with
  | [] => []
  | n :: ns =>
      let first := match n with
        | .node .expressionStatement _ [e] =>
            match e.bare with
            | .node (.string v) _ _ => tabs indent ++ wrapIf true (quotedText v) ++ [';', '\n']
            | _ => line n
        | _ => line n
      first :: ns.map line

/-- A body in braces. -/
def bodyText (p : Printers) (indent : Nat) (body : Node) : List Char :=
  braced indent (statementLines p (indent + 1) body.parts)

/-- A value behind an equals sign, if there is one. -/
def initializerText (p : Printers) (s : Spot) : Node → List Char
  | .absent => []
  | value => " = ".toList ++ p.expression { s with level := Level.comma, start := .inner } value

/-- One parameter. -/
def parameterText (p : Printers) (indent : Nat) (param : Node) : List Char :=
  match param.parts.reverse with
  | value :: _ :: target :: decorators =>
      decorators.reverse.flatMap (fun d => p.whole indent d ++ [' ']) ++
        p.expression { indent, level := Level.comma } target ++ initializerText p { indent } value
  | _ => []

/-- Parameters in parentheses. -/
def parametersText (p : Printers) (indent : Nat) (params : Node) : List Char :=
  wrapIf true (commaList (params.parts.map (parameterText p indent)))

/-- A function with its keyword. -/
def functionText (p : Printers) (indent : Nat) (isAsync isGenerator : Bool) :
    List Node → List Char
  | [name, _, params, _, body] =>
      (if isAsync then "async ".toList else []) ++ "function".toList ++
        (if isGenerator then "* ".toList else if name.isAbsent then [] else [' ']) ++
        p.whole indent name ++ parametersText p indent params ++ ' ' :: bodyText p indent body
  | _ => []

/-- The key of a property or a member. -/
def keyText (p : Printers) (indent : Nat) (computed : Bool) (key : Node) : List Char :=
  let t := p.expression { indent, level := Level.comma } key
  if computed then '[' :: t ++ [']'] else t

/-- A function without its keyword, behind its key. -/
def methodText (p : Printers) (indent : Nat) (style : PropertyStyle) (computed : Bool)
    (key function : Node) : List Char :=
  match function with
  | .node (.function isAsync isGenerator _) _ [_, _, params, _, body] =>
      (match style with
        | .getter => "get ".toList
        | .setter => "set ".toList
        | _ => []) ++
        (if isAsync then "async ".toList else []) ++ (if isGenerator then ['*'] else []) ++
        keyText p indent computed key ++ parametersText p indent params ++
        ' ' :: bodyText p indent body
  | _ => []

/-- An arrow function. -/
def arrowText (p : Printers) (s : Spot) (isAsync brief : Bool) : List Node → List Char
  | [_, params, _, body] =>
      let inside := match brief, body.parts with
        | true, [.node .expressionStatement _ [e]] =>
            p.expression { indent := s.indent, level := Level.comma, start := .arrowBody,
                           noIn := s.noIn } e
        | _, _ => bodyText p s.indent body
      (if isAsync then "async ".toList else []) ++ parametersText p s.indent params ++
        " => ".toList ++ inside
  | _ => []

/-! ### Classes -/

/-- Decorators, each in front of a blank. -/
def decoratorsText (p : Printers) (indent : Nat) (ds : List Node) : List Char :=
  ds.flatMap fun d => p.whole indent d ++ [' ']

/-- One member of a class. -/
def memberText (p : Printers) (indent : Nat) : Node → List Char
  | .node (.classMethod style isStatic computed k) _ ps =>
      match ps.drop k with
      | [key, f] =>
          decoratorsText p indent (ps.take k) ++ (if isStatic then "static ".toList else []) ++
            methodText p indent style computed key f ++ ['\n']
      | _ => []
  | .node (.classField isStatic computed isAccessor k) _ ps =>
      match ps.drop k with
      | [key, _, value] =>
          decoratorsText p indent (ps.take k) ++ (if isStatic then "static ".toList else []) ++
            (if isAccessor then "accessor ".toList else []) ++ keyText p indent computed key ++
            initializerText p { indent } value ++ [';', '\n']
      | _ => []
  | .node .staticBlock _ ps =>
      "static ".toList ++ braced indent (ps.map (p.line (indent + 1))) ++ ['\n']
  | _ => []

/-- A class. -/
def classText (p : Printers) (indent decorators : Nat) (ps : List Node) : List Char :=
  match ps.drop decorators, ps.getLast? with
  | name :: _ :: base :: _, some body =>
      decoratorsText p indent (ps.take decorators) ++ "class".toList ++
        (if name.isAbsent then [] else ' ' :: p.whole indent name) ++
        (if base.isAbsent then []
          else " extends ".toList ++ p.expression { indent, level := Level.trailing } base) ++
        ' ' :: braced indent
          (body.parts.map fun m => tabs (indent + 1) ++ memberText p (indent + 1) m)
  | _, _ => []

end ComponentCompiler.Script
