import ComponentCompiler.Script.Parse
import ComponentCompiler.Script.Printer.Statement
import ComponentCompiler.Text.Blank

/-!
# Printing scripts

## Main definitions

* `printersAtHeight`, `Node.print` — a script as text.
* `reformat` — a script read and printed again.
-/

namespace ComponentCompiler.Script

/-- How nodes are printed that are nested at most `n` deep. -/
def printersAtHeight : Nat → Printers
  | 0 => { expression := fun _ _ => [], statement := fun _ _ => [] }
  | n + 1 =>
      { expression := expressionText (printersAtHeight n)
        statement := statementText (printersAtHeight n) }

/-- A script as text. -/
def Node.print (n : Node) : List Char :=
  (statementLines (printersAtHeight (2 * n.height)) 0 n.parts).flatten

/-- The line in front of a script that names its interpreter. -/
def interpreterLine : List Char → List Char
  | '#' :: '!' :: cs => '#' :: '!' :: cs.takeWhile (· != '\n') ++ ['\n']
  | _ => []

/-- A script read and printed again, without blanks at its end. -/
def reformat (source : String) : Except SyntaxError String := do
  let n ← parse { keepParens := true } source.toList
  return String.ofList (Text.trimEnd (interpreterLine source.toList ++ n.print))

end ComponentCompiler.Script
