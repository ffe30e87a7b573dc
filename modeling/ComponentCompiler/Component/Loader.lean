import ComponentCompiler.Component.Compile

/-!
# Loading components

A loader compiles components and publishes what comes out: styles by the address of the component
and their language, template modules by name.  What is published later takes the place of what was
there before, and a component that does not compile publishes nothing.

## Main definitions

* `StyleSheets`, `TemplateModules` — what is published.
* `Loader`, `Loader.load`, `Loader.loadBoth` — loading one component, and two side by side.
-/

namespace ComponentCompiler

/-- Published styles, by address and language. -/
abbrev StyleSheets := Registry (String × String) String

/-- Published template modules, by name. -/
abbrev TemplateModules := Registry String TemplateModule

/-- Publish a style. -/
def StyleSheets.inject (s : StyleSheets) (address : String) (style : StyleResult) : StyleSheets :=
  s.insert (address, style.lang) style.payload

/-- Publish a template module. -/
def TemplateModules.register (m : TemplateModules) (t : TemplateModule) : TemplateModules :=
  m.insert t.name t

/-- A loader. -/
structure Loader where
  /-- Its compiler. -/
  compiler : Compiler
  /-- The scopes of components. -/
  scopes : ScopeRegistry := {}
  /-- The published styles. -/
  sheets : StyleSheets := {}
  /-- The published template modules. -/
  modules : TemplateModules := {}

namespace Loader

/-- Publish a compiled component. -/
def publish (l : Loader) (address : String) (output : CompileOutput) : Loader :=
  { l with
    sheets := output.styles.foldl (fun s style => s.inject address style) l.sheets
    modules := match output.templateModule with
      | none => l.modules
      | some t => l.modules.register t }

/-- A component that has been compiled but not yet published. -/
structure Loaded where
  /-- Where the component comes from. -/
  address : String
  /-- What became of it. -/
  result : Except CompileError CompileOutput
  /-- The number of rounds it took. -/
  rounds : Nat

/-- Compile a component. -/
def compile (l : Loader) (c : Component) : Loaded × Loader :=
  match (l.compiler.compile c).run { scopes := l.scopes } with
  | .ok output s => (⟨c.address, .ok output, s.rounds⟩, { l with scopes := s.scopes })
  | .error e s => (⟨c.address, .error e, s.rounds⟩, { l with scopes := s.scopes })

/-- Publish a component if it compiled. -/
def settle (l : Loader) (c : Loaded) : Loader :=
  match c.result with
  | .ok output => l.publish c.address output
  | .error _ => l

/-- The script of a component. -/
def Loaded.script (c : Loaded) : Except CompileError String := c.result.map (·.script)

/-- Load a component. -/
def load (l : Loader) (c : Component) : Except CompileError String × Loader :=
  let (loaded, l) := l.compile c
  (loaded.script, l.settle loaded)

/-- Load two components side by side.  Each is published when it is finished; of two that are
finished in the same round, the first one is published first. -/
def loadBoth (l : Loader) (c₁ c₂ : Component) :
    (Except CompileError String × Except CompileError String) × Loader :=
  let (d₁, l) := l.compile c₁
  let (d₂, l) := l.compile c₂
  ((d₁.script, d₂.script),
    if d₁.rounds ≤ d₂.rounds then (l.settle d₁).settle d₂ else (l.settle d₂).settle d₁)

end Loader

end ComponentCompiler
