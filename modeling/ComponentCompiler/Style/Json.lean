import ComponentCompiler.Json.Printer
import ComponentCompiler.Json.Reader
import ComponentCompiler.Json.Record
import ComponentCompiler.Style.Sheet

/-!
# Stylesheets as JSON values

Every node and every item is a record with a tag.  A node inside a body carries the tag of nested
items and its own tag, both as the member `type`.  A reader that allows a member only once takes
no such object, so a stylesheet with nested nodes cannot be read back from its text.

## Main definitions

* `Stylesheet.toJson`, `Stylesheet.serialize` — a stylesheet as a value and as a text.
* `Stylesheet.ofJson?`, `Stylesheet.deserialize?` — the way back.
-/

namespace ComponentCompiler.Style

/-! ### Writing -/

/-- The member that tells a tag. -/
def typeMember (tag : String) : String × Json := ("type", .ofText tag)

mutual

/-- The members of a node. -/
def Node.members : Node → List (String × Json)
  | .rule ss body => [typeMember "rule", ("selectors", .array (ss.map .ofText)),
      ("body", .array (Item.toJsonAll body))]
  | .group n p body => [typeMember "group", ("name", .ofText n), ("prelude", .ofText p),
      ("body", .array (Item.toJsonAll body))]
  | .atRule n p block => [typeMember "atRule", ("name", .ofText n), ("prelude", .ofText p),
      ("block", (block.map Json.ofText).getD .null)]
  | .comment t => [typeMember "comment", ("text", .ofText t)]

/-- Items as values. -/
def Item.toJsonAll : List Item → List Json
  | [] => []
  | .declaration p v :: is =>
      .ofMembers [typeMember "declaration", ("property", .ofText p), ("value", .ofText v)] ::
        Item.toJsonAll is
  | .nested n :: is => .ofMembers (typeMember "nested" :: n.members) :: Item.toJsonAll is
  | .comment t :: is =>
      .ofMembers [typeMember "comment", ("text", .ofText t)] :: Item.toJsonAll is

end

/-- A node as a value. -/
def Node.toJson (n : Node) : Json := .ofMembers n.members

/-- A stylesheet as a value. -/
def Stylesheet.toJson (s : Stylesheet) : Json :=
  .ofMembers [("rules", .array (s.rules.map Node.toJson))]

/-- A stylesheet as a JSON text. -/
def Stylesheet.serialize (s : Stylesheet) : String := String.ofList s.toJson.print

/-! ### Reading -/

/-- The tags of nodes. -/
def nodeTags : List String := ["rule", "group", "atRule", "comment"]

/-- The tags of items. -/
def itemTags : List String := ["declaration", "nested", "comment"]

/-- A node from a value, with a reader for the items in it. -/
def readNode (readItem : Json → Option Item) (numbered : Bool) (v : Json) : Option Node := do
  let (tag, v) ← v.variant? nodeTags numbered
  match tag with
  | 0 =>
      let r ← v.record? ["selectors", "body"]
      return .rule (← r.required 0 Json.texts?) (← r.required 1 (Json.list? readItem))
  | 1 =>
      let r ← v.record? ["name", "prelude", "body"]
      return .group (← r.required 0 Json.text?) (← r.required 1 Json.text?)
        (← r.required 2 (Json.list? readItem))
  | 2 =>
      let r ← v.record? ["name", "prelude", "block"]
      return .atRule (← r.required 0 Json.text?) (← r.required 1 Json.text?)
        (← r.nullable 2 Json.text?)
  | _ =>
      let r ← v.record? ["text"]
      return .comment (← r.required 0 Json.text?)

/-- An item from a value whose containers are nested at most `depth` deep.  Inside a body, tags may
be given by their place. -/
def readItem : (depth : Nat) → Json → Option Item
  | 0, _ => none
  | depth + 1, v => do
      let (tag, v) ← v.variant? itemTags true
      match tag with
      | 0 =>
          let r ← v.record? ["property", "value"]
          return .declaration (← r.required 0 Json.text?) (← r.required 1 Json.text?)
      | 1 => return .nested (← readNode (readItem depth) true v)
      | _ =>
          let r ← v.record? ["text"]
          return .comment (← r.required 0 Json.text?)

/-- How deep the containers of a text may be nested. -/
def depthLimit : Nat := 127

/-- A node of a stylesheet from a value.  The two containers around it count towards the limit. -/
def Node.ofJson? (v : Json) : Option Node := do
  guard (v.readable && v.depth + 2 ≤ depthLimit)
  readNode (readItem v.depth) false v

/-- A stylesheet from a value. -/
def Stylesheet.ofJson? (v : Json) : Option Stylesheet := do
  let r ← v.record? ["rules"]
  return ⟨← r.required 0 (Json.list? Node.ofJson?)⟩

/-- A stylesheet from a JSON text. -/
def Stylesheet.deserialize? (s : String) : Option Stylesheet := do
  Stylesheet.ofJson? (← Json.parse? s)

end ComponentCompiler.Style
