import ComponentCompiler.Style.Sheet

/-!
# Printing stylesheets

Stylesheets are printed without blanks that mean nothing and without comments.  A semicolon parts a
declaration from what follows it in the same block; behind the last one there is none.

## Main definitions

* `Node.print`, `Item.printAll` — the text of a node and of a body.
* `Stylesheet.print` — the text of a stylesheet.
-/

namespace ComponentCompiler.Style

/-- Selectors with commas between them. -/
def printSelectors (ss : List String) : List Char :=
  [','].intercalate (ss.map String.toList)

/-- The name behind an at-sign and, if it is not empty, what follows it. -/
def printAtWord (name prelude : String) : List Char :=
  '@' :: name.toList ++ (if prelude.isEmpty then [] else ' ' :: prelude.toList)

/-- A block with its braces. -/
def printBlock (inside : List Char) : List Char := '{' :: inside ++ ['}']

/-- A declaration. -/
def printDeclaration (property value : String) : List Char :=
  property.toList ++ ':' :: value.toList

/-- The semicolon that is due behind a declaration. -/
def separator (afterDeclaration : Bool) : List Char := if afterDeclaration then [';'] else []

mutual

/-- The text of a node. -/
def Node.print : Node → List Char
  | .rule ss body => printSelectors ss ++ printBlock (Item.printAll false body)
  | .group n p body => printAtWord n p ++ printBlock (Item.printAll false body)
  | .atRule n p (some block) => printAtWord n p ++ printBlock block.toList
  | .atRule n p none => printAtWord n p ++ [';']
  | .comment _ => []

/-- The text of a body; `after` tells whether a declaration stands in front. -/
def Item.printAll (after : Bool) : List Item → List Char
  | [] => []
  | .declaration p v :: is => separator after ++ printDeclaration p v ++ Item.printAll true is
  | .nested n :: is => separator after ++ n.print ++ Item.printAll false is
  | .comment _ :: is => Item.printAll after is

end

/-- The text of nodes, one after the other. -/
def Node.printAll (ns : List Node) : List Char := ns.flatMap Node.print

/-- The text of a stylesheet. -/
def Stylesheet.print (s : Stylesheet) : String := String.ofList (Node.printAll s.rules)

end ComponentCompiler.Style
