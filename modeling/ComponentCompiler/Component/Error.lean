import ComponentCompiler.Buffer
import ComponentCompiler.Component.Block
import ComponentCompiler.Script.Outline
import ComponentCompiler.Style.Error

/-!
# What can go wrong when a component is compiled

## Main definitions

* `Cause` — what a collaborator gives as its reason.
* `CompileError`, `CompileError.message` — the errors and their texts.
-/

namespace ComponentCompiler

/-- What a collaborator gives as its reason, if it gives one. -/
abbrev Cause := Option String

/-- Why a component does not compile. -/
inductive CompileError where
  /-- The source is no component. -/
  | split (e : SplitError)
  /-- The script cannot be read. -/
  | script (e : Script.ReadError)
  /-- The script cannot be patched. -/
  | patch (e : RangeError)
  /-- Nobody knows the language of a style. -/
  | unsupportedStyleLanguage (lang : String)
  /-- Nobody knows the language of the template. -/
  | unsupportedTemplateLanguage (lang : String)
  /-- No compiler is there for the language of a style. -/
  | missingPreprocessor (lang : String)
  /-- No compiler is there for the language of the template. -/
  | missingTemplateCompiler (lang : String)
  /-- The compiler for the language of a style failed. -/
  | stylePreprocess (lang : String) (cause : Cause)
  /-- The compiler for the language of the template failed. -/
  | templateLanguage (lang : String) (cause : Cause)
  /-- The template has no render functions. -/
  | renderCompile (cause : Cause)
  /-- A render function could not be given its final form. -/
  | transpile (cause : Cause)
  /-- A style cannot be read or scoped. -/
  | css (e : Style.CssError)
  /-- The script exports no object that could carry the template. -/
  | missingExportObject (component : String)
  deriving DecidableEq, Repr

namespace CompileError

/-- The text of the error. -/
def message : CompileError → String
  | .split e => e.message
  | .script _ => "failed to parse script"
  | .patch e => "failed to patch script: " ++ e.message
  | .unsupportedStyleLanguage lang => "unsupported style language `" ++ lang ++ "`"
  | .unsupportedTemplateLanguage lang => "unsupported template language `" ++ lang ++ "`"
  | .missingPreprocessor lang =>
      "no preprocessor registered for style language `" ++ lang ++ "`"
  | .missingTemplateCompiler lang =>
      "no compiler registered for template language `" ++ lang ++ "`"
  | .stylePreprocess lang _ => "failed to preprocess `" ++ lang ++ "` style"
  | .templateLanguage lang _ => "failed to compile `" ++ lang ++ "` template"
  | .renderCompile _ => "failed to compile template to render functions"
  | .transpile _ => "failed to transpile render function"
  | .css e => e.message
  | .missingExportObject component =>
      "component `" ++ component ++ "` has a template but no exported object to attach it to"

/-- The reason that a collaborator gave. -/
def cause : CompileError → Cause
  | .stylePreprocess _ c => c
  | .templateLanguage _ c => c
  | .renderCompile c => c
  | .transpile c => c
  | _ => none

end CompileError

end ComponentCompiler
