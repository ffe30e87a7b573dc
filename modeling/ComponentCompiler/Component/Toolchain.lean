import ComponentCompiler.Component.Error
import ComponentCompiler.Component.Language
import ComponentCompiler.Component.Split
import ComponentCompiler.Component.Template
import ComponentCompiler.Job
import ComponentCompiler.Registry
import ComponentCompiler.Script.Print

/-!
# The collaborators of a compiler

A compiler leaves the languages of styles and templates, render functions and their final form, and
the size of stylesheets to collaborators.  A toolchain names them.

## Main definitions

* `StyleCompiler`, `TemplateCompiler` — collaborators for one family of languages.
* `plainStyle`, `plainTemplate`, `uniformScript` — the collaborators that need nothing else.
* `Toolchain`, `Toolchain.styleCompilerFor`, `Toolchain.templateCompilerFor`.
-/

namespace ComponentCompiler

/-- Where a style comes from. -/
structure StyleContext where
  /-- The language that the style names. -/
  lang : String
  /-- The address of the component. -/
  address : String
  deriving DecidableEq, Repr

/-- Turns the text of a style into a plain stylesheet. -/
abbrev StyleCompiler := String → StyleContext → Job Cause String

/-- Turns the text of the template of a named component into markup. -/
abbrev TemplateCompiler := String → String → Job Cause String

/-- For styles that are plain stylesheets already. -/
def plainStyle : StyleCompiler := fun content _ => .now (.ok content)

/-- For templates that are markup already. -/
def plainTemplate : TemplateCompiler := fun content _ => .now (.ok content)

/-- For functions whose final form is the uniform layout of scripts. -/
def uniformScript (source : String) : Job Cause String :=
  .now ((Script.reformat source).mapError fun _ => none)

/-- The collaborators of a compiler. -/
structure Toolchain where
  /-- Splits a component into its parts. -/
  split : String → Assembly := ComponentCompiler.split
  /-- Reads the tree of a script. -/
  readScript : List Char → Except Script.ReadError Tree := Script.readTree false
  /-- Makes render functions of markup. -/
  render : String → Except Cause RenderFunctions
  /-- Gives a function its final form. -/
  transpile : String → Job Cause String
  /-- The compilers for style languages. -/
  styles : Registry StyleFamily StyleCompiler := ⟨[(.css, plainStyle)]⟩
  /-- The compilers for template languages. -/
  templates : Registry TemplateFamily TemplateCompiler := ⟨[(.html, plainTemplate)]⟩
  /-- Makes the stylesheet of a component small; the second text is the address of the component. -/
  minify : String → String → Except Style.CssError String := fun css _ => .ok css
  /-- The name of a component in the names of modules. -/
  canonical : String → String := id

namespace Toolchain

/-- The compiler for the language of a style. -/
def styleCompilerFor (t : Toolchain) (lang : String) : Except CompileError StyleCompiler :=
  match StyleFamily.ofLang? lang with
  | none => .error (.unsupportedStyleLanguage lang)
  | some family =>
      match t.styles.get? family with
      | none => .error (.missingPreprocessor lang)
      | some c => .ok c

/-- The compiler for the language of a template. -/
def templateCompilerFor (t : Toolchain) (lang : String) : Except CompileError TemplateCompiler :=
  match TemplateFamily.ofLang? lang with
  | none => .error (.unsupportedTemplateLanguage lang)
  | some family =>
      match t.templates.get? family with
      | none => .error (.missingTemplateCompiler lang)
      | some c => .ok c

/-- Names in quotes, with commas between them. -/
def namesText (names : List String) : String :=
  "[" ++ ", ".intercalate (names.map fun n => "\"" ++ n ++ "\"") ++ "]"

/-- A short description: the families of languages, by name. -/
def describe (t : Toolchain) : String :=
  let styles := (StyleFamily.all.filter fun f => (t.styles.get? f).isSome).map StyleFamily.name
  let templates :=
    (TemplateFamily.all.filter fun f => (t.templates.get? f).isSome).map TemplateFamily.name
  "Toolchain \x7b preprocessors: " ++ namesText styles ++ ", template_compilers: " ++
    namesText templates ++ ", .. \x7d"

end Toolchain

end ComponentCompiler
