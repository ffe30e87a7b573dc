import ComponentCompiler.Json.Value

/-!
# Records and variants in JSON values

A record is written as an object with its fields as members, in any order, or as an array of its
fields.  A variant is written as a record that also tells its tag: as the member `type`, or as the
first element.

## Main definitions

* `Record`, `Json.record?` — a value as the fields of a record.
* `Json.variant?` — a value as a tag and the rest of it.
-/

namespace ComponentCompiler

/-- The fields of a record, in the order of their declaration. -/
structure Record where
  /-- Whether the record was written as an array. -/
  positional : Bool
  /-- The values; `none` for a field that is not there. -/
  values : List (Option Json)

namespace Record

/-- The value of the `i`-th field. -/
def get? (r : Record) (i : Nat) : Option Json := r.values[i]?.join

/-- The `i`-th field, which must be there. -/
def required {α : Type} (r : Record) (i : Nat) (read : Json → Option α) : Option α :=
  r.get? i >>= read

/-- The `i`-th field, which has a default. -/
def optional {α : Type} (r : Record) (i : Nat) (default : α) (read : Json → Option α) : Option α :=
  match r.get? i with
  | none => some default
  | some v => read v

/-- The `i`-th field, which may be null.  An object may also leave it out. -/
def nullable {α : Type} (r : Record) (i : Nat) (read : Json → Option α) : Option (Option α) :=
  match r.get? i with
  | none => if r.positional then none else some none
  | some .null => some none
  | some v => (read v).map some

end Record

/-- The value of the only member of a name: `some none` if there is no such member, and `none` if
there are several. -/
def soleMember? (ms : List (Option String × Json)) (name : String) : Option (Option Json) :=
  match ms.filter (·.1 == some name) with
  | [] => some none
  | [(_, v)] => some (some v)
  | _ => none

namespace Json

/-- A value as a record with the given fields.  Members that are no field are passed over, but
their names must be texts; a field must not come twice, and an array must not be too long. -/
def record? (fields : List String) : Json → Option Record
  | .object ms => do
      guard (ms.all (·.1.isSome))
      return ⟨false, ← fields.mapM (soleMember? ms)⟩
  | .array es => do
      guard (es.length ≤ fields.length)
      return ⟨true, es.map some⟩
  | _ => none

/-- The place of a tag among the known ones.  Where `numbered` holds, a tag may also be given by
its place. -/
def tag? (tags : List String) (numbered : Bool) : Json → Option Nat
  | .string (some s) => tags.findIdx? (· == s)
  | .number n => do
      guard numbered
      let i ← n.index?
      guard (i < tags.length)
      return i
  | _ => none

/-- A value as a variant: the place of its tag, and the value without it. -/
def variant? (tags : List String) (numbered : Bool) : Json → Option (Nat × Json)
  | .object ms => do
      let tag ← (← soleMember? ms "type")
      return (← tag.tag? tags numbered, .object (ms.filter (·.1 != some "type")))
  | .array (tag :: es) => do return (← tag.tag? tags numbered, .array es)
  | _ => none

end Json

end ComponentCompiler
