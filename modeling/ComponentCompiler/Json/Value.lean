import ComponentCompiler.Json.Number

/-!
# JSON values

Objects keep their members in the order of the text, and keep a name that comes twice.  A string
may hold half of a surrogate pair, which stands for no text.

## Main definitions

* `Json` — values.
* `Json.depth`, `Json.readable` — how deep containers are nested, and whether every string and
  number in a value has a meaning.
-/

namespace ComponentCompiler

/-- A value of a JSON text. -/
inductive Json where
  /-- The null value. -/
  | null
  /-- A truth value. -/
  | bool (b : Bool)
  /-- A number. -/
  | number (n : Number)
  /-- A string; `none` if it stands for no text. -/
  | string (s : Option String)
  /-- An array. -/
  | array (elements : List Json)
  /-- An object. -/
  | object (members : List (Option String × Json))
  deriving Inhabited, Repr

namespace Json

mutual

/-- How deep containers are nested. -/
def depth : Json → Nat
  | .array es => depthAll es + 1
  | .object ms => depthMembers ms + 1
  | _ => 0

/-- How deep containers are nested in the elements of an array. -/
def depthAll : List Json → Nat
  | [] => 0
  | e :: es => max e.depth (depthAll es)

/-- How deep containers are nested in the members of an object. -/
def depthMembers : List (Option String × Json) → Nat
  | [] => 0
  | (_, v) :: ms => max v.depth (depthMembers ms)

end

mutual

/-- Whether every string stands for a text and every number is in range. -/
def readable : Json → Bool
  | .null => true
  | .bool _ => true
  | .number n => n.inRange
  | .string s => s.isSome
  | .array es => readableAll es
  | .object ms => readableMembers ms

/-- Whether all elements of an array are readable. -/
def readableAll : List Json → Bool
  | [] => true
  | e :: es => e.readable && readableAll es

/-- Whether all members of an object, and their names, are readable. -/
def readableMembers : List (Option String × Json) → Bool
  | [] => true
  | (k, v) :: ms => k.isSome && v.readable && readableMembers ms

end

/-- A string of a text. -/
def ofText (s : String) : Json := .string (some s)

/-- An object with named members. -/
def ofMembers (ms : List (String × Json)) : Json := .object (ms.map fun (k, v) => (some k, v))

/-- The text of a string. -/
def text? : Json → Option String
  | .string s => s
  | _ => none

/-- The elements of an array, each read by `read`. -/
def list? {α : Type} (read : Json → Option α) : Json → Option (List α)
  | .array es => es.mapM read
  | _ => none

/-- The texts of an array of strings. -/
def texts? : Json → Option (List String) := list? text?

/-- A truth value. -/
def bool? : Json → Option Bool
  | .bool b => some b
  | _ => none

end Json

end ComponentCompiler
