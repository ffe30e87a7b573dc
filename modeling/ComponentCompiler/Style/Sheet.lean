/-!
# Stylesheets

A stylesheet is a list of nodes: rules for selectors, groups of further nodes under a condition,
other rules that start with an at-sign, and comments.  What a rule or a group holds are items:
declarations, nodes nested in it, and comments.

## Main definitions

* `Node`, `Item`, `Stylesheet` — the tree.
* `isGroupName` — the names whose blocks hold further nodes.
* `Stylesheet.withoutComments` — the tree with its comments removed at every depth.
-/

namespace ComponentCompiler.Style

mutual

/-- A node of a stylesheet. -/
inductive Node where
  /-- Declarations and nested nodes for the elements that one of the selectors finds. -/
  | rule (selectors : List String) (body : List Item) : Node
  /-- Items that hold under a condition. -/
  | group (name prelude : String) (body : List Item) : Node
  /-- Any other rule with an at-sign; its block is kept as it is written. -/
  | atRule (name prelude : String) (block : Option String) : Node
  /-- A comment. -/
  | comment (text : String) : Node
  deriving Repr

/-- What a rule or a group holds. -/
inductive Item where
  /-- A property with its value. -/
  | declaration (property value : String) : Item
  /-- A node inside another one. -/
  | nested (node : Node) : Item
  /-- A comment. -/
  | comment (text : String) : Item
  deriving Repr

end

mutual

/-- Whether two nodes are equal. -/
def Node.beq : Node → Node → Bool
  | .rule ss is, .rule ss' is' => ss == ss' && Item.beqAll is is'
  | .group n p is, .group n' p' is' => n == n' && p == p' && Item.beqAll is is'
  | .atRule n p b, .atRule n' p' b' => n == n' && p == p' && b == b'
  | .comment t, .comment t' => t == t'
  | _, _ => false

/-- Whether two items are equal. -/
def Item.beq : Item → Item → Bool
  | .declaration p v, .declaration p' v' => p == p' && v == v'
  | .nested n, .nested n' => n.beq n'
  | .comment t, .comment t' => t == t'
  | _, _ => false

/-- Whether two lists of items are equal. -/
def Item.beqAll : List Item → List Item → Bool
  | [], [] => true
  | i :: is, j :: js => i.beq j && Item.beqAll is js
  | _, _ => false

end

mutual

theorem Node.beq_self : ∀ n : Node, n.beq n = true
  | .rule _ is => by simp [Node.beq, Item.beqAll_self is]
  | .group _ _ is => by simp [Node.beq, Item.beqAll_self is]
  | .atRule _ _ _ => by simp [Node.beq]
  | .comment _ => by simp [Node.beq]

theorem Item.beq_self : ∀ i : Item, i.beq i = true
  | .declaration _ _ => by simp [Item.beq]
  | .nested n => n.beq_self
  | .comment _ => by simp [Item.beq]

theorem Item.beqAll_self : ∀ is : List Item, Item.beqAll is is = true
  | [] => rfl
  | i :: is => by rw [Item.beqAll, i.beq_self, Item.beqAll_self is, Bool.and_self]

end

mutual

theorem Node.eq_of_beq : ∀ {n m : Node}, n.beq m = true → n = m
  | .rule _ _, .rule _ _, h => by
    simp only [Node.beq, Bool.and_eq_true, beq_iff_eq] at h
    rw [h.1, Item.eq_of_beqAll h.2]
  | .group _ _ _, .group _ _ _, h => by
    simp only [Node.beq, Bool.and_eq_true, beq_iff_eq] at h
    rw [h.1.1, h.1.2, Item.eq_of_beqAll h.2]
  | .atRule _ _ _, .atRule _ _ _, h => by
    simp only [Node.beq, Bool.and_eq_true, beq_iff_eq] at h
    rw [h.1.1, h.1.2, h.2]
  | .comment _, .comment _, h => by
    simp only [Node.beq, beq_iff_eq] at h
    rw [h]

theorem Item.eq_of_beq : ∀ {i j : Item}, i.beq j = true → i = j
  | .declaration _ _, .declaration _ _, h => by
    simp only [Item.beq, Bool.and_eq_true, beq_iff_eq] at h
    rw [h.1, h.2]
  | .nested _, .nested _, h => by rw [Node.eq_of_beq h]
  | .comment _, .comment _, h => by
    simp only [Item.beq, beq_iff_eq] at h
    rw [h]

theorem Item.eq_of_beqAll : ∀ {is js : List Item}, Item.beqAll is js = true → is = js
  | [], [], _ => rfl
  | _ :: _, _ :: _, h => by
    simp only [Item.beqAll, Bool.and_eq_true] at h
    rw [Item.eq_of_beq h.1, Item.eq_of_beqAll h.2]

end

instance : BEq Node := ⟨Node.beq⟩

instance : DecidableEq Node := fun n m =>
  decidable_of_iff (n.beq m = true) ⟨Node.eq_of_beq, fun h => h ▸ n.beq_self⟩

/-- A whole stylesheet. -/
structure Stylesheet where
  /-- Its nodes in source order. -/
  rules : List Node := []
  deriving BEq, DecidableEq, Repr

/-- The names whose blocks hold further nodes. -/
def groupNames : List String :=
  ["media", "supports", "document", "-moz-document", "container", "layer", "scope",
   "starting-style"]

/-- Whether a name, in upper or lower case, is one whose block holds further nodes. -/
def isGroupName (name : String) : Bool :=
  groupNames.contains (String.ofList (name.toList.map Char.toLower))

/-- The declarations directly in a body. -/
def declarations (body : List Item) : List (String × String) :=
  body.filterMap fun
    | .declaration p v => some (p, v)
    | _ => none

mutual

/-- A node without the comments below it. -/
def Node.withoutComments : Node → Node
  | .rule ss is => .rule ss (Item.withoutComments is)
  | .group n p is => .group n p (Item.withoutComments is)
  | n => n

/-- Items without comments, at every depth. -/
def Item.withoutComments : List Item → List Item
  | [] => []
  | .comment _ :: is => Item.withoutComments is
  | .nested (.comment _) :: is => Item.withoutComments is
  | .nested n :: is => .nested n.withoutComments :: Item.withoutComments is
  | .declaration p v :: is => .declaration p v :: Item.withoutComments is

end

/-- Nodes without comments, at every depth. -/
def Node.withoutCommentsAll : List Node → List Node
  | [] => []
  | .comment _ :: ns => Node.withoutCommentsAll ns
  | n :: ns => n.withoutComments :: Node.withoutCommentsAll ns

/-- A stylesheet without its comments, at every depth. -/
def Stylesheet.withoutComments (s : Stylesheet) : Stylesheet :=
  ⟨Node.withoutCommentsAll s.rules⟩

end ComponentCompiler.Style
