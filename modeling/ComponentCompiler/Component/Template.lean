import ComponentCompiler.Json.Printer
import ComponentCompiler.Json.Record

/-!
# The template in the script

The markup of the template goes into the script twice: as a field of the exported object, written
as a template literal, and as render functions, which one statement in front of the script binds to
a name.

## Main definitions

* `escapeLiteral`, `templateField` — markup as a template literal and as a field.
* `insertTemplate` — the script with the field in every line that starts the export.
* `RenderFunctions`, `TemplateModule`, `bindingCode` — render functions and their statement.
-/

namespace ComponentCompiler

/-! ### The field -/

/-- Markup inside a template literal: backslashes, backquotes and the starts of substitutions are
escaped. -/
def escapeLiteral : List Char → List Char
  | [] => []
  | '$' :: '{' :: cs => '\\' :: '$' :: '{' :: escapeLiteral cs
  | c :: cs =>
      if c == '\\' || c == '\x60' then '\\' :: c :: escapeLiteral cs else c :: escapeLiteral cs

/-- The field that carries markup. -/
def templateField (markup : List Char) : List Char :=
  " template:`".toList ++ escapeLiteral markup ++ "`,".toList

/-- How the line starts that exports the object. -/
def exportKeyword : List Char := "export default".toList

/-- Where in a line reading stands. -/
inductive LinePlace where
  /-- At the start of the line. -/
  | start
  /-- In a line that starts the export, before its first brace. -/
  | before
  /-- In a line, or in the part of one, that stays as it is. -/
  | rest
  deriving DecidableEq, Repr

/-- The place, once it is known how the line starts. -/
def LinePlace.settle (p : LinePlace) (cs : List Char) : LinePlace :=
  if p == .start then (if exportKeyword.isPrefixOf cs then .before else .rest) else p

/-- Two further line ends; they end the part of a line in which a brace counts, but start no
line. -/
def isSoftLineEnd (c : Char) : Bool := c.toNat == 0x2028 || c.toNat == 0x2029

/-- Insert a text behind the first brace of every line that starts the export. -/
def insertInExport (field : List Char) : LinePlace → List Char → List Char
  | _, [] => []
  | p, c :: cs =>
      if c == '\n' then c :: insertInExport field .start cs
      else if c == '\r' then
        c :: insertInExport field (if cs.head? == some '\n' then .rest else .start) cs
      else if isSoftLineEnd c then c :: insertInExport field .rest cs
      else if p.settle (c :: cs) == .before && c == '{' then
        c :: field ++ insertInExport field .rest cs
      else c :: insertInExport field (p.settle (c :: cs)) cs

/-- A script with the template as a field of its exported object. -/
def insertTemplate (script markup : List Char) : List Char :=
  insertInExport (templateField markup) .start script

/-! ### The render functions -/

/-- What a render compiler makes of markup. -/
structure RenderFunctions where
  /-- The body of the render function. -/
  render : String
  /-- The bodies of the functions for static parts. -/
  staticRenderFns : List String := []
  deriving DecidableEq, Repr

/-- The render functions of a component as a module of their own. -/
structure TemplateModule where
  /-- The name of the module. -/
  name : String
  /-- The name of the component, as a JSON string. -/
  component : String
  /-- The render function. -/
  render : String
  /-- The functions for static parts. -/
  staticRenderFns : List String
  deriving DecidableEq, Repr

/-- A template module from a JSON value. -/
def TemplateModule.ofJson? (v : Json) : Option TemplateModule := do
  let r ← v.record? ["name", "component", "render", "staticRenderFns"]
  return {
    name := ← r.required 0 Json.text?
    component := ← r.required 1 Json.text?
    render := ← r.required 2 Json.text?
    staticRenderFns := ← r.required 3 Json.texts? }

/-- A function with a given body. -/
def functionSource (body : String) : String := "function render () \x7b" ++ body ++ "\x7d"

/-- A text in a comment, which must not end it. -/
def inComment : List Char → List Char
  | '*' :: '/' :: cs => '*' :: '\\' :: '/' :: inComment cs
  | c :: cs => c :: inComment cs
  | [] => []

/-- The name of a component as a JSON string. -/
def componentText (name : String) : List Char := quoted name.toList

/-- The statement that binds the render functions of a component to a name. -/
def bindingCode (component : List Char) (binding render : String) (statics : List String) :
    List Char :=
  "/* ".toList ++ inComment component ++ " */\nvar ".toList ++ binding.toList ++
    " = \x7b render: ".toList ++ render.toList ++ ", staticRenderFns: [".toList ++
    [','].intercalate (statics.map String.toList) ++ "] \x7d;\n".toList

end ComponentCompiler
