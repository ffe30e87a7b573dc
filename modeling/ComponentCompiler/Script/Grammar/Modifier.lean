import ComponentCompiler.Script.Grammar.Function

/-!
# Modifiers

The words in front of the key of a member, or in front of the keyword of a declaration.  A word is
a modifier only if something that it can modify follows, so that it is a name otherwise.  Most of
the words matter to types alone, but they are read in every script.

## Main definitions

* `Modifiers` — the modifiers of a member or of a declaration.
* `modifiers` — read them.
-/

namespace ComponentCompiler.Script.Grammar

open ComponentCompiler.Script.Parser

/-- The words that can be modifiers. -/
def modifierWords : List String :=
  ["abstract", "accessor", "async", "const", "declare", "export", "in", "out", "override",
   "private", "protected", "public", "readonly", "static"]

/-- The words that say from where a member can be accessed. -/
def accessWords : List String := ["public", "private", "protected"]

/-- The modifiers that may not stand in front of a modifier: the modifier itself, and those that
it has to precede. -/
def barredBefore (word : String) : List String :=
  match word with
  | "public" | "private" | "protected" =>
      accessWords ++ ["override", "static", "accessor", "readonly", "async"]
  | "static" => ["static", "readonly", "async", "accessor", "override"]
  | "override" => ["override", "readonly", "accessor", "async"]
  | "abstract" => ["abstract", "override", "accessor"]
  | "export" => ["export", "declare", "abstract", "async"]
  | word => [word]

/-- The modifiers of a member or of a declaration. -/
structure Modifiers where
  /-- The words, latest first. -/
  words : List String := []

namespace Modifiers

/-- Whether a word is among the modifiers. -/
def has (m : Modifiers) (word : String) : Bool := m.words.contains word

/-- Whether one of some words is among the modifiers. -/
def hasAny (m : Modifiers) (words : List String) : Bool := words.any m.has

/-- Whether all modifiers are among some words. -/
def within (m : Modifiers) (words : List String) : Bool := m.words.all words.contains

/-- Whether a word may follow the modifiers as another one. -/
def admits (m : Modifiers) (word : String) : Bool := !m.hasAny (barredBefore word)

end Modifiers

/-- Whether the key of a member may start here, so that the word before it modified it. -/
def startsKey : Parser Bool := do
  match ← lexeme with
  | .word _ _ | .string _ | .number _ | .bigint _ | .privateWord _ => return true
  | .symbol s => return s == "["
  | _ => return false

/-- Whether something that can be modified starts here. -/
def startsModified : Parser Bool := do
  return (← startsKey) || (← atSymbols ["*", "\x7b", "..."])

/-- The modifier that the current word is, if it is one.  A block that runs when its class is made
does not start with a modifier. -/
def modifier? (m : Modifiers) : Parser (Option String) := do
  match ← lexeme with
  | .word "static" false =>
      let isModifier ← pure !(m.has "static") <&&>
        nextIs (do return (← startsModified) && !(← atSymbol "\x7b"))
      return if isModifier then some "static" else none
  | .word w false =>
      let isModifier ← pure (modifierWords.contains w) <&&>
        nextIs (do return !(← onNewLine) && (← startsModified))
      return if isModifier then some w else none
  | _ => return none

/-- The modifiers of a member or of a declaration. -/
def modifiers : Parser Modifiers :=
  loop (fun m => do
    match ← modifier? m with
    | none => return .done m
    | some w =>
        require (m.admits w)
        advance
        return .again { words := w :: m.words }) {}

end ComponentCompiler.Script.Grammar
