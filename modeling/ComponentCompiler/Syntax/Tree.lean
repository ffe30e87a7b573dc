/-!
# Syntax trees

A `Tree` is an ordered tree whose nodes carry a kind, a range of characters and a number.  Numbers
are given out by a `TreeBuilder` in the order in which nodes are opened, so that a finished tree is
numbered from its root in pre-order.

## Main definitions

* `Span`, `NodeKind`, `Tree` — what a tree is made of.
* `Tree.preorder`, `Tree.postorder` — the nodes of a tree in two orders.
* `TreeBuilder.openNode`, `TreeBuilder.closeNode`, `TreeBuilder.finish` — building a tree.
* `TreeError` — why a build does not give a tree.
-/

namespace ComponentCompiler

/-- A range of characters. -/
structure Span where
  /-- Where the range starts. -/
  start : Nat
  /-- Where the range stops, exclusively. -/
  stop : Nat
  deriving DecidableEq, Repr

namespace Span

/-- The number of characters in a range, zero for an inverted one. -/
def length (s : Span) : Nat := s.stop - s.start

/-- Whether a range holds no character. -/
def isEmpty (s : Span) : Bool := s.length == 0

end Span

/-- The kinds of nodes that editing tells apart. -/
inductive NodeKind where
  /-- The whole script. -/
  | program
  /-- A statement that is an expression. -/
  | expressionStatement
  /-- A default export. -/
  | exportDefault
  /-- An assignment, with the range of its left side. -/
  | assignment (left : Span)
  /-- An object literal. -/
  | object
  /-- A property of an object literal. -/
  | property
  /-- Anything else. -/
  | other
  deriving DecidableEq, Repr

/-- The name under which a kind is known. -/
def NodeKind.name : NodeKind → String
  | .program => "Program"
  | .expressionStatement => "ExpressionStatement"
  | .exportDefault => "ExportDefaultDeclaration"
  | .assignment _ => "AssignmentExpression"
  | .object => "ObjectExpression"
  | .property => "ObjectProperty"
  | .other => "Other"

/-- A node with the nodes below it, in source order. -/
inductive Tree where
  /-- The node numbered `id`. -/
  | node (id : Nat) (kind : NodeKind) (span : Span) (children : List Tree) : Tree
  deriving Repr

namespace Tree

/-- The number of the top node. -/
def id : Tree → Nat
  | .node i _ _ _ => i

/-- The kind of the top node. -/
def kind : Tree → NodeKind
  | .node _ k _ _ => k

/-- The range of the top node. -/
def span : Tree → Span
  | .node _ _ s _ => s

/-- The trees directly below the top node. -/
def children : Tree → List Tree
  | .node _ _ _ ts => ts

mutual

/-- The nodes of a tree, every node before the nodes below it. -/
def preorder : Tree → List Tree
  | .node i k s ts => .node i k s ts :: preorderAll ts

/-- The nodes of a list of trees, tree by tree. -/
def preorderAll : List Tree → List Tree
  | [] => []
  | t :: ts => t.preorder ++ preorderAll ts

end

mutual

/-- The nodes of a tree, every node behind the nodes below it. -/
def postorder : Tree → List Tree
  | .node i k s ts => postorderAll ts ++ [.node i k s ts]

/-- The nodes of a list of trees, tree by tree, in post-order. -/
def postorderAll : List Tree → List Tree
  | [] => []
  | t :: ts => t.postorder ++ postorderAll ts

end

/-- The number of nodes of a tree. -/
def size (t : Tree) : Nat := t.preorder.length

/-- The node with a given number. -/
def find? (t : Tree) (i : Nat) : Option Tree := t.preorder.find? (·.id == i)

end Tree

/-! ### Building -/

/-- Why a build does not give a tree. -/
inductive TreeError where
  /-- No node was opened. -/
  | empty
  /-- A node was opened after the first tree was complete. -/
  | multipleRoots
  /-- Some nodes are still open. -/
  | unclosed (count : Nat)
  deriving DecidableEq, Repr

/-- The text of the error. -/
def TreeError.message : TreeError → String
  | .empty => "syntax tree has no root node"
  | .multipleRoots => "syntax tree has more than one root node"
  | .unclosed n => s!"{n} node(s) were opened but never closed"

/-- A node that is still open, with the complete trees below it, latest first. -/
structure OpenNode where
  /-- The number of the node. -/
  id : Nat
  /-- The kind of the node. -/
  kind : NodeKind
  /-- The range of the node. -/
  span : Span
  /-- The complete trees directly below the node, latest first. -/
  done : List Tree := []

/-- The tree of an open node that is complete. -/
def OpenNode.toTree (n : OpenNode) : Tree := .node n.id n.kind n.span n.done.reverse

/-- A tree under construction. -/
structure TreeBuilder where
  /-- The number of nodes opened so far, which numbers the next one. -/
  count : Nat := 0
  /-- The nodes that are open, innermost first. -/
  stack : List OpenNode := []
  /-- The complete trees, latest first. -/
  roots : List Tree := []

namespace TreeBuilder

/-- Open a node below the innermost open one. -/
def openNode (b : TreeBuilder) (kind : NodeKind) (span : Span) : TreeBuilder :=
  { b with count := b.count + 1, stack := { id := b.count, kind, span } :: b.stack }

/-- Close the innermost open node; nothing happens when none is open. -/
def closeNode (b : TreeBuilder) : TreeBuilder :=
  match b.stack with
  | [] => b
  | [n] => { b with stack := [], roots := n.toTree :: b.roots }
  | n :: parent :: rest =>
      { b with stack := { parent with done := n.toTree :: parent.done } :: rest }

/-- Open a node and close it at once. -/
def leaf (b : TreeBuilder) (kind : NodeKind) (span : Span) : TreeBuilder :=
  (b.openNode kind span).closeNode

/-- The tree that was built.  Several roots are reported before open nodes. -/
def finish (b : TreeBuilder) : Except TreeError Tree :=
  match b.roots, b.stack with
  | [], [] => .error .empty
  | [], open_ => .error (.unclosed open_.length)
  | [t], [] => .ok t
  | _, _ => .error .multipleRoots

end TreeBuilder

end ComponentCompiler
