/-!
# Finding and replacing texts

## Main definitions

* `cutAtText?` — a text before and behind the first occurrence of another one.
* `containsText`, `replaceText` — whether a text occurs, and with every occurrence replaced.
-/

namespace ComponentCompiler.Text

/-- What stands before and behind the first occurrence of a text. -/
def cutAtText? (pattern : List Char) : List Char → Option (List Char × List Char)
  | [] => if pattern.isEmpty then some ([], []) else none
  | c :: cs =>
      if pattern.isPrefixOf (c :: cs) then some ([], (c :: cs).drop pattern.length)
      else (cutAtText? pattern cs).map fun (before, behind) => (c :: before, behind)

/-- Whether a text occurs in another one. -/
def containsText (pattern cs : List Char) : Bool := (cutAtText? pattern cs).isSome

/-- Replace a text that is not empty wherever it occurs, from left to right.  `skip` characters of
an occurrence are still to be passed over. -/
def replaceFrom (pattern replacement : List Char) (skip : Nat) : List Char → List Char
  | [] => []
  | c :: cs =>
      match skip with
      | n + 1 => replaceFrom pattern replacement n cs
      | 0 =>
          if pattern.isPrefixOf (c :: cs) then
            replacement ++ replaceFrom pattern replacement (pattern.length - 1) cs
          else c :: replaceFrom pattern replacement 0 cs

/-- A text with every occurrence of another one, which is not empty, replaced. -/
def replaceText (pattern replacement cs : List Char) : List Char :=
  replaceFrom pattern replacement 0 cs

end ComponentCompiler.Text
