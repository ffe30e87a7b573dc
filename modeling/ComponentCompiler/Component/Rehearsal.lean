import ComponentCompiler.Component.Loader
import ComponentCompiler.Text.Blank
import ComponentCompiler.Text.Search

/-!
# Rehearsing a toolchain

Collaborators for trying out a compiler.  They do simple things with the texts they are given, and
marks in these texts make them wait or fail: `@@yield 2@@` is a wait of two rounds, and `@@fail@@`
is a failure.

## Main definitions

* `Rehearsal.yields`, `Rehearsal.fails` — what the marks in a text ask for.
* `Rehearsal.style`, `Rehearsal.template`, `Rehearsal.render`, `Rehearsal.transpile` — the
  collaborators.
* `Rehearsal.fixedSplit`, `Rehearsal.stripName` — further parts of a toolchain.
-/

namespace ComponentCompiler.Rehearsal

open Text (containsText cutAtText? replaceText trim)

/-- A decimal number; a plus may stand in front. -/
def decimal? (cs : List Char) : Option Nat :=
  let digits := if cs.head? == some '+' then cs.tail else cs
  if digits.isEmpty || !digits.all Char.isDigit then none
  else some (digits.foldl (fun n d => 10 * n + (d.toNat - '0'.toNat)) 0)

/-- The number of rounds that a text asks to wait: its first mark counts. -/
def yields (text : String) : Nat :=
  ((do
    let (_, rest) ← cutAtText? "@@yield ".toList text.toList
    let (number, _) ← cutAtText? "@@".toList rest
    decimal? number) : Option Nat).getD 0

/-- Whether a text asks for a failure. -/
def fails (text : String) : Bool := containsText "@@fail@@".toList text.toList

/-- A job that waits and fails as a text asks. -/
def job (text cause result : String) : Job Cause String :=
  { rounds := yields text
    outcome := if fails text then .error (some cause) else .ok result }

/-- Replace a text in another one. -/
def replace (pattern replacement text : String) : String :=
  String.ofList (replaceText pattern.toList replacement.toList text.toList)

/-- A compiler for style languages that knows three variables. -/
def style : StyleCompiler := fun content context =>
  job content ("cannot compile " ++ context.lang ++ " for " ++ context.address ++ ": " ++ content)
    (replace "$address" context.address (replace "$lang" context.lang
      (replace "$color" "red" content)))

/-- A compiler for template languages that puts the text into an element. -/
def template : TemplateCompiler := fun content name =>
  job content ("cannot compile template of " ++ name ++ ": " ++ content)
    (replace "$name" name ("<div>" ++ String.ofList (trim content.toList) ++ "</div>"))

/-- A render compiler that gives fixed functions, in which the markup may stand. -/
def render (functions : RenderFunctions) (markup : String) : Except Cause RenderFunctions :=
  if containsText "<broken".toList markup.toList then
    .error (some ("unexpected tag in " ++ markup))
  else
    .ok {
      render := replace "%MARKUP%" markup functions.render
      staticRenderFns := functions.staticRenderFns.map (replace "%MARKUP%" markup) }

/-- The functions of a render compiler that is given none. -/
def defaultFunctions : RenderFunctions := { render := "return _c('div')" }

/-- Leaves functions as they are. -/
def transpile (source : String) : Job Cause String :=
  job source ("cannot transpile " ++ source) source

/-- A splitter that gives the same answer for every source. -/
def fixedSplit (answer : Except SplitError Blocks) (_ : String) : Assembly :=
  match answer with
  | .ok blocks => { blocks }
  | .error e => { error := some e }

/-- A splitter that gives the parts in a JSON value for every source. -/
def splitOfJson (v : Json) : String → Assembly :=
  fixedSplit (match Blocks.ofJson? v with
    | some blocks => .ok blocks
    | none => .error (.custom "bad blocks"))

/-- A name without a text that may stand in front. -/
def stripName (front name : String) : String :=
  if front.toList.isPrefixOf name.toList then
    String.ofList (name.toList.drop front.toList.length)
  else name

end ComponentCompiler.Rehearsal
