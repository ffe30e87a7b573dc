import ComponentCompiler.Registry

/-!
# Scopes of components

Every component that asks for a scope has a token of its own: the first one has 1, and each further
one has the next number.  A token is kept for good.  Compilations may share a registry: looking for
a token is one step, and giving out a token is another one.

## Main definitions

* `ScopeRegistry`, with `get?`, `allocate`, `assign` and `size`.
* `scopeString` — the scope of a token.
-/

namespace ComponentCompiler

/-- The tokens of components. -/
structure ScopeRegistry where
  /-- The token of each component, by name. -/
  tokens : Registry String Nat := {}
  /-- The token for the next component. -/
  next : Nat := 1

/-- How many tokens there are, those of 32 bits; behind the last one the numbers start again at
0. -/
def tokenCount : Nat := UInt32.size

/-- A scope: a text with a token behind it. -/
def scopeString (scopePrefix : String) (token : Nat) : String := scopePrefix ++ toString token

namespace ScopeRegistry

/-- The token of a component, if it has one. -/
def get? (r : ScopeRegistry) (name : String) : Option Nat := r.tokens.get? name

/-- The token of a component; if it has none, it gets the next one in the same step. -/
def allocate (r : ScopeRegistry) (name : String) : Nat × ScopeRegistry :=
  match r.get? name with
  | some token => (token, r)
  | none =>
      (r.next, { tokens := r.tokens.insert name r.next, next := (r.next + 1) % tokenCount })

/-- The token of a component, in two steps: one is given out if none was found. -/
def assign (r : ScopeRegistry) (name : String) : Nat × ScopeRegistry :=
  match r.get? name with
  | some token => (token, r)
  | none => r.allocate name

/-- The number of components with a token. -/
def size (r : ScopeRegistry) : Nat := r.tokens.size

end ScopeRegistry

end ComponentCompiler
