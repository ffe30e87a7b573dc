import ComponentCompiler.Script.Parse

/-!
# The tree of a script

The syntax of a script as a `Tree`: one node of the tree for each node of the syntax, placed by
characters instead of bytes.

## Main definitions

* `kindOf` — the kind under which editing knows a node.
* `Node.build` — the steps of building the tree of some syntax.
* `readTree` — the tree of a script.
-/

namespace ComponentCompiler.Script

/-- A range of bytes as a range of characters. -/
def spanOf (offsets : CharOffsets) (s : Span) : Span := ⟨offsets.get s.start, offsets.get s.stop⟩

/-- The kind under which editing knows a node. -/
def kindOf (offsets : CharOffsets) (f : Form) (parts : List Node) : NodeKind :=
  match f, parts with
  | .program, _ => .program
  | .expressionStatement, _ => .expressionStatement
  | .exportDefault, _ => .exportDefault
  | .assignment _, target :: _ => .assignment (spanOf offsets target.span)
  | .object _, _ => .object
  | .property _ _, _ => .property
  | _, _ => .other

namespace Node

mutual

/-- Build the tree of some syntax. -/
def build (offsets : CharOffsets) : Node → TreeBuilder → TreeBuilder
  | .absent, b => b
  | .node f s ps, b =>
      let b := b.openNode (kindOf offsets f ps) (spanOf offsets s)
      (buildAll offsets ps b).closeNode

/-- Build the trees of some parts, in order. -/
def buildAll (offsets : CharOffsets) : List Node → TreeBuilder → TreeBuilder
  | [], b => b
  | p :: ps, b => buildAll offsets ps (build offsets p b)

end

end Node

/-- Why a script has no tree. -/
inductive ReadError where
  /-- The script breaks the grammar. -/
  | grammar (e : SyntaxError)
  /-- The syntax does not build a tree. -/
  | tree (e : TreeError)
  deriving DecidableEq, Repr

/-- The tree of a script. -/
def readTree (typed : Bool) (cs : List Char) : Except ReadError Tree :=
  match parse { typed } cs with
  | .error e => .error (.grammar e)
  | .ok root =>
      match (root.build (CharOffsets.ofText cs) {}).finish with
      | .error e => .error (.tree e)
      | .ok t => .ok t

end ComponentCompiler.Script
