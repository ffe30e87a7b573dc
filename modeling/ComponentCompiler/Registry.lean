/-!
# Registries

A registry holds one value for each key.  Keys stay in the order in which they first came.

## Main definitions

* `Registry`, with `get?`, `insert` and `size`.
-/

namespace ComponentCompiler

/-- Values by key. -/
structure Registry (κ ν : Type) where
  /-- The keys with their values. -/
  entries : List (κ × ν) := []
  deriving Repr

namespace Registry

variable {κ ν : Type} [DecidableEq κ]

/-- The value of a key among entries. -/
def lookup (k : κ) : List (κ × ν) → Option ν
  | [] => none
  | (k', v) :: es => if k = k' then some v else lookup k es

/-- Entries with a value for a key, in place of the one it had. -/
def put (k : κ) (v : ν) : List (κ × ν) → List (κ × ν)
  | [] => [(k, v)]
  | (k', v') :: es => if k = k' then (k, v) :: es else (k', v') :: put k v es

/-- The value of a key. -/
def get? (r : Registry κ ν) (k : κ) : Option ν := lookup k r.entries

/-- Give a key a value. -/
def insert (r : Registry κ ν) (k : κ) (v : ν) : Registry κ ν := ⟨put k v r.entries⟩

omit [DecidableEq κ] in
/-- The number of keys. -/
def size (r : Registry κ ν) : Nat := r.entries.length

theorem lookup_put (k k' : κ) (v : ν) (es : List (κ × ν)) :
    lookup k' (put k v es) = if k' = k then some v else lookup k' es := by
  induction es with
  | nil => simp [put, lookup]
  | cons e es ih =>
    obtain ⟨k₀, v₀⟩ := e
    by_cases h : k = k₀
    · subst h
      by_cases hk : k' = k <;> simp [put, lookup, hk]
    · by_cases hk : k' = k₀
      · subst hk
        simp [put, lookup, h, Ne.symm h]
      · simp [put, lookup, h, hk, ih]

@[simp] theorem get?_insert (r : Registry κ ν) (k k' : κ) (v : ν) :
    (r.insert k v).get? k' = if k' = k then some v else r.get? k' := lookup_put k k' v r.entries

end Registry

end ComponentCompiler
