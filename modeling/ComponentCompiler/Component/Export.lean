import ComponentCompiler.Syntax.Walk

/-!
# Render fields in the exported object

The object that a script exports, with `export default` or by an assignment to the target of the
older way of exporting, is given fields that refer to the render functions.  They go directly
behind its opening brace, and only into the first such object in the order of a walk.

## Main definitions

* `ExportPatch`, `ExportPatch.opening` — what goes into the object.
* `attachRenderFields`, `PatchedScript` — the script with the fields, and how many objects it
  exports.
-/

namespace ComponentCompiler

/-- What goes into the exported object. -/
structure ExportPatch where
  /-- The name under which the render functions are known. -/
  binding : String := "__renderFns__"
  /-- The scope of the component, if it has one. -/
  scopeId : Option String := none
  /-- How the target of the older way of exporting is spelled. -/
  legacyTarget : String := "module.exports"

namespace ExportPatch

/-- The field that tells the scope of the component. -/
def scopeField : Option String → List Char
  | none => []
  | some id => "_scopeId:\"".toList ++ id.toList ++ "\",".toList

/-- The fields for the object, each with a comma behind it. -/
def fields (p : ExportPatch) : List Char :=
  "render:".toList ++ p.binding.toList ++ ".render,staticRenderFns:".toList ++ p.binding.toList ++
    ".staticRenderFns,".toList ++ scopeField p.scopeId

/-- What takes the place of the opening brace. -/
def opening (p : ExportPatch) : List Char := '{' :: p.fields

end ExportPatch

/-- A script with render fields. -/
structure PatchedScript where
  /-- Its text. -/
  code : List Char
  /-- How many exported objects it has. -/
  found : Nat
  deriving DecidableEq, Repr

/-- How many objects of a script were given the fields: one if that changed its text.  An exported
object that does not start with its brace is met, but left as it is. -/
def PatchedScript.changes (script : List Char) (r : PatchedScript) : Nat :=
  if r.code == script then 0 else 1

/-- Whether the object being visited is exported: by its parent, whose left side is read as it
stands. -/
def isExported (p : ExportPatch) (c : Cursor Nat) : Edit Nat RangeError Bool :=
  match c.parent.map Tree.kind with
  | some .exportDefault => return true
  | some (.assignment left) => return (← c.textIn left) == p.legacyTarget.toList
  | _ => return false

/-- Patch the first exported object, and count them all. -/
def exportVisitor (p : ExportPatch) (c : Cursor Nat) : Edit Nat RangeError Unit := do
  if c.node.kind == .object then
    if ← isExported p c then
      Edit.note (· + 1)
      if (← get).notes == 1 then
        match ← c.text with
        | '{' :: rest => c.patch (p.opening ++ rest)
        | _ => pure ()

/-- Give the exported object of a script the render fields.  `tree` is the tree of the script. -/
def attachRenderFields (p : ExportPatch) (tree : Tree) (script : List Char) :
    Except RangeError PatchedScript :=
  let walk : Walk Nat RangeError := { tree, visit := exportVisitor p }
  match walk.run { links := tree.noLinks, desk := { buffer := .ofText script, notes := 0 } } with
  | .ok _ s => .ok { code := s.desk.buffer.text, found := s.desk.notes }
  | .error e _ => .error e

end ComponentCompiler
