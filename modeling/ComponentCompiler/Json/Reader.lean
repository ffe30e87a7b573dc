import ComponentCompiler.Json.Token
import ComponentCompiler.Json.Value

/-!
# Reading JSON texts

A text is read token by token, with the containers that are open on a stack.

## Main definitions

* `JsonReader`, `JsonReader.step` — reading token by token.
* `Json.parse?` — the value of a text, if it is a JSON text.
-/

namespace ComponentCompiler

/-- A container that is open, with its contents so far, latest first. -/
inductive OpenContainer where
  /-- An array. -/
  | array (elements : List Json)
  /-- An object, between members. -/
  | object (members : List (Option String × Json))
  /-- An object, behind the name of its next member. -/
  | member (members : List (Option String × Json)) (name : Option String)

/-- What may come next. -/
inductive Expected where
  /-- A value. -/
  | value
  /-- A value, or the end of the array that has just been opened. -/
  | firstElement
  /-- A name, or the end of the object that has just been opened. -/
  | firstName
  /-- A name. -/
  | name
  /-- The colon behind a name. -/
  | colon
  /-- A comma, or the end of the innermost container. -/
  | separator
  /-- Nothing: the text is complete, and this is its value. -/
  | nothing (value : Json)

/-- The state of reading. -/
structure JsonReader where
  /-- The containers that are open, innermost first. -/
  containers : List OpenContainer := []
  /-- What may come next. -/
  expected : Expected := .value

namespace JsonReader

/-- The reader behind a complete value. -/
def accept (r : JsonReader) (v : Json) : Option JsonReader :=
  match r.containers with
  | [] => some { containers := [], expected := .nothing v }
  | .array es :: cs => some { containers := .array (v :: es) :: cs, expected := .separator }
  | .member ms k :: cs =>
      some { containers := .object ((k, v) :: ms) :: cs, expected := .separator }
  | .object _ :: _ => none

/-- The reader where a value may stand. -/
def startValue (r : JsonReader) : JsonToken → Option JsonReader
  | .openObject => some { containers := .object [] :: r.containers, expected := .firstName }
  | .openArray => some { containers := .array [] :: r.containers, expected := .firstElement }
  | .string s => r.accept (.string s)
  | .null => r.accept .null
  | .bool b => r.accept (.bool b)
  | .number n => r.accept (.number n)
  | _ => none

/-- The reader behind the end of the innermost container. -/
def close (r : JsonReader) (t : JsonToken) : Option JsonReader :=
  match t, r.containers with
  | .closeArray, .array es :: cs => accept { r with containers := cs } (.array es.reverse)
  | .closeObject, .object ms :: cs => accept { r with containers := cs } (.object ms.reverse)
  | _, _ => none

/-- The reader behind the name of a member. -/
def startMember (r : JsonReader) (name : Option String) : Option JsonReader :=
  match r.containers with
  | .object ms :: cs => some { containers := .member ms name :: cs, expected := .colon }
  | _ => none

/-- The reader behind a comma. -/
def next (r : JsonReader) : Option JsonReader :=
  match r.containers with
  | .array _ :: _ => some { r with expected := .value }
  | .object _ :: _ => some { r with expected := .name }
  | _ => none

/-- Read a token. -/
def step (r : JsonReader) (t : JsonToken) : Option JsonReader :=
  match r.expected, t with
  | .value, t => r.startValue t
  | .firstElement, .closeArray => r.close .closeArray
  | .firstElement, t => r.startValue t
  | .firstName, .closeObject => r.close .closeObject
  | .firstName, .string s => r.startMember s
  | .name, .string s => r.startMember s
  | .colon, .colon => some { r with expected := .value }
  | .separator, .comma => r.next
  | .separator, t => r.close t
  | _, _ => none

/-- The value that was read, if the text is complete. -/
def finish (r : JsonReader) : Option Json :=
  match r.expected with
  | .nothing v => some v
  | _ => none

end JsonReader

/-- The value of tokens. -/
def Json.ofTokens? (ts : List JsonToken) : Option Json := do
  (← ts.foldlM JsonReader.step {}).finish

/-- The value of a text, if it is a JSON text. -/
def Json.parse? (s : String) : Option Json := do Json.ofTokens? (← jsonTokens s.toList)

end ComponentCompiler
