/-!
# What can be wrong with a stylesheet

## Main definitions

* `SelectorError` — why a selector has no components.
* `Fault` — why a text is no stylesheet.
* `CssError` — a fault at its place, a selector error, or what kept a stylesheet from being made
  small.
-/

namespace ComponentCompiler.Style

/-- Why a selector cannot be taken apart. -/
inductive SelectorError where
  /-- Nothing is left of the selector without the blanks around it. -/
  | empty
  /-- A bracket without its partner. -/
  | unbalanced (opening : Char) (selector : String)
  /-- A string that is never closed. -/
  | unterminatedString (selector : String)
  deriving DecidableEq, Repr

/-- The text of the error. -/
def SelectorError.message : SelectorError → String
  | .empty => "empty selector"
  | .unbalanced c s => "unbalanced '" ++ c.toString ++ "' in selector `" ++ s ++ "`"
  | .unterminatedString s => "unterminated string in selector `" ++ s ++ "`"

/-- Why a text is no stylesheet. -/
inductive Fault where
  /-- A comment is never closed. -/
  | unterminatedComment
  /-- A string is never closed. -/
  | unterminatedString
  /-- A block is never closed. -/
  | unclosedBlock
  /-- A closing brace without a block. -/
  | unexpectedClose
  /-- A selector outside every block is not followed by one. -/
  | missingBlock
  /-- A declaration has no colon. -/
  | missingColon
  deriving DecidableEq, Repr

/-- What can be wrong with a stylesheet. -/
inductive CssError where
  /-- The text is no stylesheet, because of what stands at an offset in bytes. -/
  | fault (f : Fault) (offset : Nat)
  /-- A selector cannot be taken apart. -/
  | selector (e : SelectorError)
  /-- The stylesheet cannot be made small, because of what went wrong at a stage of that. -/
  | minifier (stage message : String)
  deriving DecidableEq, Repr

/-- The text of the error. -/
def CssError.message : CssError → String
  | .fault .unterminatedComment n => s!"unterminated comment starting at offset {n}"
  | .fault .unterminatedString n => s!"unterminated string starting at offset {n}"
  | .fault .unclosedBlock n => s!"missing '\x7d' for block opened at offset {n}"
  | .fault .unexpectedClose n => s!"unexpected '\x7d' at offset {n}"
  | .fault .missingBlock n => s!"missing '\x7b' after selector at offset {n}"
  | .fault .missingColon n => s!"declaration at offset {n} is missing ':'"
  | .selector e => e.message
  | .minifier stage message => "CSS " ++ stage ++ " error: " ++ message

end ComponentCompiler.Style
