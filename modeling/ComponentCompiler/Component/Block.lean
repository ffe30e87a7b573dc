import ComponentCompiler.Json.Record

/-!
# The blocks of a component

A component is one text that holds at most one script, at most one template and any number of
styles.

## Main definitions

* `TemplateBlock`, `StyleBlock`, `Blocks` — the parts of a component.
* `Blocks.hasScopedStyle` — whether the component has a scope of its own.
* `Blocks.ofJson?` — the parts of a component from a JSON value.
* `SplitError` — why a text is no component.
-/

namespace ComponentCompiler

/-- The template of a component. -/
structure TemplateBlock where
  /-- Its text. -/
  content : String
  /-- The language it is written in, if it names one. -/
  lang : Option String := none
  deriving DecidableEq, Repr

/-- A style of a component. -/
structure StyleBlock where
  /-- Its text. -/
  content : String
  /-- The language it is written in, if it names one. -/
  lang : Option String := none
  /-- Whether it applies to this component only. -/
  isScoped : Bool := false
  deriving DecidableEq, Repr

/-- The parts of a component. -/
structure Blocks where
  /-- The text of the script. -/
  script : Option String := none
  /-- The template. -/
  template : Option TemplateBlock := none
  /-- The styles, in source order. -/
  styles : List StyleBlock := []
  deriving DecidableEq, Repr

/-- Whether some style asks for a scope: then the whole component has one. -/
def Blocks.hasScopedStyle (b : Blocks) : Bool := b.styles.any (·.isScoped)

/-! ### From JSON values -/

/-- The text of a script from a JSON value. -/
def scriptOfJson? (v : Json) : Option String := do
  let r ← v.record? ["content"]
  r.required 0 Json.text?

/-- A template from a JSON value. -/
def TemplateBlock.ofJson? (v : Json) : Option TemplateBlock := do
  let r ← v.record? ["content", "lang"]
  return { content := ← r.required 0 Json.text?, lang := ← r.nullable 1 Json.text? }

/-- A style from a JSON value. -/
def StyleBlock.ofJson? (v : Json) : Option StyleBlock := do
  let r ← v.record? ["content", "lang", "scoped"]
  return {
    content := ← r.required 0 Json.text?
    lang := ← r.nullable 1 Json.text?
    isScoped := ← r.optional 2 false Json.bool? }

/-- The parts of a component from a JSON value. -/
def Blocks.ofJson? (v : Json) : Option Blocks := do
  let r ← v.record? ["script", "template", "styles"]
  return {
    script := ← r.nullable 0 scriptOfJson?
    template := ← r.nullable 1 TemplateBlock.ofJson?
    styles := ← r.optional 2 [] (Json.list? StyleBlock.ofJson?) }

/-! ### Errors -/

/-- Why a text is no component. -/
inductive SplitError where
  /-- A block comes twice of which there may be one. -/
  | duplicate (tag : String)
  /-- A block is never closed; its tag stands at an offset in bytes. -/
  | unclosed (tag : String) (offset : Nat)
  /-- A splitter has a reason of its own. -/
  | custom (reason : String)
  deriving DecidableEq, Repr

/-- The text of the error. -/
def SplitError.message : SplitError → String
  | .duplicate tag => s!"component can only contain one <{tag}> block"
  | .unclosed tag offset => s!"<{tag}> block opened at offset {offset} is never closed"
  | .custom reason => reason

end ComponentCompiler
