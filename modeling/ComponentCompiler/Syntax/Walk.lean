import ComponentCompiler.Buffer
import ComponentCompiler.Syntax.Tree

/-!
# Walking a tree

A walk visits every node of a tree once, the nodes below a node before the node itself, and links
a node to its parent when it first reaches it.  The visitor reads and edits a `Buffer`; since
children come first, it sees the text that its visits of them have left.  A hook attached to a
node runs before the node's own replacement.

## Main definitions

* `Desk` — the buffer under editing together with what the visitor keeps for itself.
* `Cursor` — the node being visited, with its links; `Cursor.text`, `Cursor.patch` and so on.
* `Walk`, `Walk.run` — a walk with its visitor, and how it goes.
-/

namespace ComponentCompiler

/-- What visitors and hooks work on. -/
structure Desk (σ : Type) where
  /-- The text under editing. -/
  buffer : Buffer
  /-- What visitors and hooks keep for themselves. -/
  notes : σ

/-- A computation on a desk that may stop with an error; the desk stays as it is then. -/
abbrev Edit (σ ε α : Type) := EStateM ε (Desk σ) α

namespace Edit

variable {σ ε α : Type}

/-- The same computation with its error seen as an error of another kind. -/
def mapError {ε' : Type} (f : ε → ε') (x : Edit σ ε α) : Edit σ ε' α := fun d =>
  match x d with
  | .ok a d => .ok a d
  | .error e d => .error (f e) d

/-- Change the notes. -/
def note (f : σ → σ) : Edit σ ε Unit :=
  modify fun d => { d with notes := f d.notes }

/-- Read a range of the buffer. -/
def slice (start stop : Nat) : Edit σ RangeError (List Char) := fun d =>
  match d.buffer.slice start stop with
  | .ok t => .ok t d
  | .error e => .error e d

/-- Replace a range of the buffer. -/
def replace (start stop : Nat) (t : List Char) : Edit σ RangeError Unit := fun d =>
  match d.buffer.replace start stop t with
  | .ok b => .ok () { d with buffer := b }
  | .error e => .error e d

/-- The outcome of a computation as a value; it does not stop. -/
def observe (x : Edit σ ε α) : Edit σ ε (Except ε α) := fun d =>
  match x d with
  | .ok a d => .ok (.ok a) d
  | .error e d => .ok (.error e) d

end Edit

/-- A replacement about to be made. -/
structure PatchEvent where
  /-- The node that is replaced. -/
  node : Nat
  /-- The range of the node. -/
  span : Span
  /-- The text that goes there. -/
  replacement : List Char

/-- Behaviour attached to a node. -/
structure Hook (σ : Type) where
  /-- The node that the hook is attached to. -/
  node : Nat
  /-- What runs before the node's replacement. -/
  run : PatchEvent → Edit σ RangeError Unit

/-- The parent of each node, by the node's number; `none` where no walk has made a link. -/
abbrev Links := Array (Option Nat)

/-- The links of a tree that was never walked. -/
def Tree.noLinks (t : Tree) : Links := Array.replicate t.size none

/-- The node being visited. -/
structure Cursor (σ : Type) where
  /-- The whole tree. -/
  tree : Tree
  /-- The links made so far. -/
  links : Links
  /-- The hooks in force. -/
  hooks : List (Hook σ)
  /-- The node being visited. -/
  node : Tree

namespace Cursor

variable {σ : Type}

/-- The parent of a node according to the links. -/
def parentOf (c : Cursor σ) (i : Nat) : Option Tree :=
  (c.links[i]?.join).bind c.tree.find?

/-- The parent of the node being visited. -/
def parent (c : Cursor σ) : Option Tree := c.parentOf c.node.id

/-- The nodes met when the links are followed from a node, at most `n` of them. -/
def ancestorsOf (c : Cursor σ) : Nat → Nat → List Tree
  | 0, _ => []
  | n + 1, i =>
      match c.parentOf i with
      | none => []
      | some p => p :: c.ancestorsOf n p.id

/-- The nodes above the node being visited, nearest first. -/
def ancestors (c : Cursor σ) : List Tree := c.ancestorsOf c.tree.size c.node.id

/-- The text of a range as it stands. -/
def textIn (_ : Cursor σ) (s : Span) : Edit σ RangeError (List Char) := Edit.slice s.start s.stop

/-- The text of the node being visited as it stands. -/
def text (c : Cursor σ) : Edit σ RangeError (List Char) := c.textIn c.node.span

/-- Replace the text of any node: its hooks run first, in the order in which they were attached,
and the first error among them prevents the replacement. -/
def patchTree (c : Cursor σ) (n : Tree) (t : List Char) : Edit σ RangeError Unit := do
  let event : PatchEvent := { node := n.id, span := n.span, replacement := t }
  (c.hooks.filter (·.node == n.id)).forM (·.run event)
  Edit.replace n.span.start n.span.stop t

/-- Replace the text of the node with a given number. -/
def patchNode (c : Cursor σ) (i : Nat) (t : List Char) : Edit σ RangeError Unit :=
  match c.tree.find? i with
  | some n => c.patchTree n t
  | none => pure ()

/-- Replace the text of the node being visited. -/
def patch (c : Cursor σ) (t : List Char) : Edit σ RangeError Unit := c.patchTree c.node t

end Cursor

/-! ### The walk -/

/-- What is done at each node. -/
abbrev Visitor (σ ε : Type) := Cursor σ → Edit σ ε Unit

/-- The state of a walk. -/
structure WalkState (σ : Type) where
  /-- The links made so far. -/
  links : Links
  /-- What the visitor works on. -/
  desk : Desk σ

/-- One walk: the tree that is walked, the hooks in force and the visitor. -/
structure Walk (σ ε : Type) where
  /-- The whole tree. -/
  tree : Tree
  /-- The hooks in force. -/
  hooks : List (Hook σ) := []
  /-- What is done at each node. -/
  visit : Visitor σ ε

namespace Walk

variable {σ ε : Type}

/-- Visit one node. -/
def visitNode (w : Walk σ ε) (n : Tree) : EStateM ε (WalkState σ) Unit := fun s =>
  match w.visit { tree := w.tree, links := s.links, hooks := w.hooks, node := n } s.desk with
  | .ok _ d => .ok () { s with desk := d }
  | .error e d => .error e { s with desk := d }

/-- Link a node to its parent. -/
def link (i : Nat) (parent : Option Nat) : EStateM ε (WalkState σ) Unit :=
  modify fun s => { s with links := s.links.setIfInBounds i parent }

mutual

/-- Link a node, walk what is below it, and visit it. -/
def below (w : Walk σ ε) (parent : Option Nat) : Tree → EStateM ε (WalkState σ) Unit
  | .node i k s ts => do
      link i parent
      w.belowAll i ts
      w.visitNode (.node i k s ts)

/-- Walk the trees below one node, in order. -/
def belowAll (w : Walk σ ε) (parent : Nat) : List Tree → EStateM ε (WalkState σ) Unit
  | [] => pure ()
  | t :: ts => do
      w.below (some parent) t
      w.belowAll parent ts

end

/-- Walk the whole tree. -/
def run (w : Walk σ ε) : EStateM ε (WalkState σ) Unit := w.below none w.tree

end Walk

end ComponentCompiler
