import ComponentCompiler.Component.Export
import ComponentCompiler.Component.Options
import ComponentCompiler.Component.ScopeRegistry
import ComponentCompiler.Component.Toolchain
import ComponentCompiler.Style.Scope

/-!
# Compiling a component

A component is split into its parts.  It gets a scope if one of its styles asks for it.  All
styles and the template are brought into their plain form side by side, and the first error among
them ends the work.  Styles that ask for the scope get it, and then all are made small if the
options say so.  If there is a template, it goes into the exported object of the script, the
object gets the render fields, and the statement with the render functions goes in front.

## Main definitions

* `Component`, `CompileOutput` — what goes in and what comes out.
* `Event` — what happens on the way.
* `Compilation` — computations that may fail, with the scopes, the events and the rounds so far.
* `Compiler.compile` — the whole way.
-/

namespace ComponentCompiler

/-- A component to compile. -/
structure Component where
  /-- Its name, under which it has its scope. -/
  name : String
  /-- Its source. -/
  source : String
  /-- Where it comes from. -/
  address : String := name
  deriving DecidableEq, Repr

/-- A compiled style. -/
structure StyleResult where
  /-- The language that it was written in. -/
  lang : String
  /-- Whether it applies to its component only. -/
  isScoped : Bool
  /-- The plain stylesheet. -/
  payload : String
  deriving DecidableEq, Repr

/-- A compiled component. -/
structure CompileOutput where
  /-- The script. -/
  script : String
  /-- The styles, in source order. -/
  styles : List StyleResult
  /-- The render functions as a module of their own. -/
  templateModule : Option TemplateModule
  /-- The scope of the component, if it has one. -/
  scopeId : Option String
  deriving DecidableEq, Repr

/-! ### Events -/

/-- What happens when a component is compiled. -/
inductive Event where
  /-- A block of another name was skipped. -/
  | skippedBlock
  /-- The component is split. -/
  | split
  /-- It is known whether the component has a scope. -/
  | scopingDecided
  /-- The work on styles and template starts. -/
  | fannedOut
  /-- A style is finished. -/
  | compiledStyle
  /-- The work on styles and template is finished. -/
  | allFinished
  /-- The script is read. -/
  | parsedScript
  /-- The exported object is patched. -/
  | patchingExport
  /-- A further exported object is left alone. -/
  | ignoredExport
  /-- There is no exported object. -/
  | noExport
  /-- The script is complete. -/
  | patched
  /-- The component is compiled. -/
  | done
  deriving DecidableEq, Repr

/-- How much an event matters. -/
inductive Level where
  /-- Of interest for those who look at every step. -/
  | trace
  /-- Of interest for those who look for errors. -/
  | debug
  /-- Of interest for everybody. -/
  | warn
  deriving DecidableEq, Repr

namespace Event

/-- How much an event matters. -/
def level : Event → Level
  | .skippedBlock | .compiledStyle | .parsedScript | .patchingExport => .trace
  | .ignoredExport | .noExport => .warn
  | _ => .debug

/-- The text of an event. -/
def message : Event → String
  | .skippedBlock => "skipping custom block"
  | .split => "split"
  | .scopingDecided => "scoping decided"
  | .fannedOut => "fanned out"
  | .compiledStyle => "compiled style"
  | .allFinished => "all tasks finished"
  | .parsedScript => "parsed script"
  | .patchingExport => "patching export object"
  | .ignoredExport => "ignoring additional export object"
  | .noExport => "template has no export object to attach render functions to"
  | .patched => "patched"
  | .done => "done"

end Event

/-! ### Computations -/

/-- What compiling works on. -/
structure CompileState where
  /-- The scopes of components. -/
  scopes : ScopeRegistry := {}
  /-- The events so far. -/
  events : List Event := []
  /-- The number of rounds waited so far. -/
  rounds : Nat := 0

/-- A computation that may fail; what it did to its state stays. -/
abbrev Compilation := EStateM CompileError CompileState

namespace Compilation

/-- Note that something happened. -/
def tell (e : Event) : Compilation Unit := modify fun s => { s with events := s.events ++ [e] }

/-- Note that something happened a number of times. -/
def tellTimes (n : Nat) (e : Event) : Compilation Unit :=
  modify fun s => { s with events := s.events ++ List.replicate n e }

/-- The value of a result. -/
def check {α : Type} : Except CompileError α → Compilation α
  | .ok a => pure a
  | .error e => throw e

/-- Wait for a job, and note every part that it reports. -/
def await {α : Type} (j : Job CompileError α) : Compilation α := do
  tellTimes j.reports.length .compiledStyle
  modify fun s => { s with rounds := s.rounds + j.rounds }
  check j.outcome

end Compilation

/-- A compiler. -/
structure Compiler where
  /-- Its collaborators. -/
  toolchain : Toolchain
  /-- Its options. -/
  options : Options := {}

namespace Compiler

open Compilation

/-- Split the source of a component. -/
def splitSource (c : Compiler) (source : String) : Compilation Blocks := do
  let assembly := c.toolchain.split source
  tellTimes assembly.skipped .skippedBlock
  check (assembly.outcome.mapError .split)

/-- The scope of a component with the given parts. -/
def decideScope (c : Compiler) (name : String) (blocks : Blocks) : Compilation (Option String) := do
  if blocks.hasScopedStyle then
    let (token, scopes) := (← get).scopes.assign name
    modify fun s => { s with scopes }
    return some (scopeString c.options.scopePrefix token)
  else return none

/-- The plain stylesheet of a style, before it is scoped, and the name of its language. -/
def plainCss (c : Compiler) (address : String) (style : StyleBlock) :
    Job CompileError (String × String) :=
  match style.lang with
  | none => .now (.ok ("css", style.content))
  | some lang =>
      match c.toolchain.styleCompilerFor lang with
      | .error e => .now (.error e)
      | .ok compile =>
          ((compile style.content { lang, address }).mapError (.stylePreprocess lang)).andThen
            fun css => .ok (lang, css)

/-- The stylesheet of a style with a scope, if the style asks for one and the component has it. -/
def scopedCss (scopeId : Option String) (style : StyleBlock) (css : String) :
    Except Style.CssError String :=
  match scopeId, style.isScoped with
  | some id, true => Style.scopeCss id css
  | _, _ => .ok css

/-- A stylesheet as it goes out, made small if the options ask for that. -/
def minified (c : Compiler) (address css : String) : Except Style.CssError String :=
  if c.options.minifyStyles then c.toolchain.minify css address else .ok css

/-- Compile a style. -/
def compileStyle (c : Compiler) (address : String) (scopeId : Option String)
    (style : StyleBlock) : Job CompileError StyleResult :=
  ((c.plainCss address style).andThen fun (lang, css) => do
    let sheet ← (scopedCss scopeId style css).mapError .css
    let payload ← (c.minified address sheet).mapError .css
    return { lang, isScoped := style.isScoped, payload }).reported

/-- The markup of a template. -/
def compileTemplate (c : Compiler) (name : String) : Option TemplateBlock →
    Job CompileError (Option String)
  | none => .now (.ok none)
  | some template =>
      match template.lang with
      | none => .now (.ok (some template.content))
      | some lang =>
          match c.toolchain.templateCompilerFor lang with
          | .error e => .now (.error e)
          | .ok compile =>
              ((compile template.content name).mapError (.templateLanguage lang)).andThen
                fun markup => .ok (some markup)

/-- The final form of a function with a given body. -/
def finalFunction (c : Compiler) (body : String) : Job CompileError String :=
  (c.toolchain.transpile (functionSource body)).mapError .transpile

/-- The statement with the render functions of a component, and their module. -/
def renderBinding (c : Compiler) (name markup : String) :
    Compilation (List Char × TemplateModule) := do
  let functions ← check ((c.toolchain.render markup).mapError .renderCompile)
  let (render, statics) ← await <| (c.finalFunction functions.render).both
    (.batch (functions.staticRenderFns.map c.finalFunction))
  let component := componentText name
  return (bindingCode component c.options.renderBinding render statics,
    { name := c.toolchain.canonical name ++ c.options.templateModuleSuffix
      component := String.ofList component, render, staticRenderFns := statics })

/-- A script with the template in its exported object. -/
def patchScript (c : Compiler) (name : String) (scopeId : Option String)
    (script markup : List Char) : Compilation (List Char) := do
  let script := insertTemplate script markup
  let tree ← check ((c.toolchain.readScript script).mapError .script)
  tell .parsedScript
  let patch : ExportPatch := {
    binding := c.options.renderBinding, scopeId, legacyTarget := c.options.legacyExportTarget }
  let patched ← check ((attachRenderFields patch tree script).mapError .patch)
  tellTimes (patched.changes script) .patchingExport
  tellTimes (patched.found - 1) .ignoredExport
  if patched.found == 0 then
    if c.options.strictExportShape then throw (.missingExportObject name)
    tell .noExport
  return patched.code

/-- The script of a component, and the module of its template. -/
def compileScript (c : Compiler) (name : String) (scopeId : Option String) (script : String) :
    Option String → Compilation (String × Option TemplateModule)
  | none => return (script, none)
  | some markup => do
      let code ← c.patchScript name scopeId script.toList markup.toList
      let (binding, templateModule) ← c.renderBinding name markup
      tell .patched
      return (String.ofList (binding ++ code), some templateModule)

/-- The work on the styles and the template of a component, side by side. -/
def fanOut (c : Compiler) (component : Component) (scopeId : Option String) (blocks : Blocks) :
    Job CompileError (List StyleResult × Option String) :=
  (Job.batch (blocks.styles.map (c.compileStyle component.address scopeId))).both
    (c.compileTemplate component.name blocks.template)

/-- What is left to do once the styles and the markup are there. -/
def deliver (c : Compiler) (component : Component) (scopeId : Option String) (blocks : Blocks)
    (styles : List StyleResult) (markup : Option String) : Compilation CompileOutput := do
  tell .allFinished
  let (script, templateModule) ←
    c.compileScript component.name scopeId (blocks.script.getD "") markup
  tell .done
  return { script, styles, templateModule, scopeId }

/-- Wait for the work on styles and template, and go on when all of it is finished. -/
def fanIn (c : Compiler) (component : Component) (scopeId : Option String) (blocks : Blocks)
    (work : Job CompileError (List StyleResult × Option String)) : Compilation CompileOutput := do
  let (styles, markup) ← await work
  c.deliver component scopeId blocks styles markup

/-- Compile a component. -/
def compile (c : Compiler) (component : Component) : Compilation CompileOutput := do
  let blocks ← c.splitSource component.source
  tell .split
  let scopeId ← c.decideScope component.name blocks
  tell .scopingDecided
  tell .fannedOut
  c.fanIn component scopeId blocks (c.fanOut component scopeId blocks)

end Compiler

end ComponentCompiler
