import ComponentCompiler.Component.Loader
import ComponentCompiler.Proofs.Component.ScriptText
import ComponentCompiler.Proofs.Registry
import Mathlib.Data.Set.Card

/-!
# What a history of loads has published

A load that fails publishes nothing.  One that ends well writes its styles under its address and
their languages, one after the other, and its template module under its name.  Over a whole history
the two registries are therefore nothing but what the loads that ended well have written, in order,
and the last one who wrote a key decides what is found under it.

## Main definitions

* `Loader.loadAll` — a loader behind a history of loads.
* `Load`, `Loader.loads` — the loads of a history that ended well, with what came out.
* `Load.GivesStyle`, `Load.GivesModule` — the keys that a load writes.

## Main results

* `load_cases` — what one load does, whether it fails or not.
* `sheets_loadAll`, `modules_loadAll` — the registries behind a history.
* `loadAll_last_writer_wins` — **publishing is all or nothing, and the last writer wins**.
-/

namespace ComponentCompiler

variable {c : Compiler} {component : Component} {s s' : CompileState} {out : CompileOutput}

/-! ### The template module -/

/-- The component has a template. -/
def Compiler.HasTemplate (c : Compiler) (component : Component) : Prop :=
  ∃ blocks, (c.toolchain.split component.source).outcome = .ok blocks ∧ blocks.template ≠ none

/-- The name of the template module of a component. -/
def Compiler.moduleName (c : Compiler) (component : Component) : String :=
  c.toolchain.canonical component.name ++ c.options.templateModuleSuffix

/-- A compiled component has a template module exactly if it has a template, and the module has its
name. -/
theorem templateModule_of_compile (h : c.compile component s = .ok out s') :
    (¬ c.HasTemplate component ∧ out.templateModule = none) ∨
      (c.HasTemplate component ∧
        ∃ m, out.templateModule = some m ∧ m.name = c.moduleName component) := by
  obtain ⟨blocks, markup, hcompiled⟩ := compiled_of_compile h
  obtain ⟨s₁, s₂, hscript⟩ := hcompiled.script
  have hsome := hcompiled.parts.template.isSome_iff
  cases markup with
  | none =>
    refine .inl ⟨?_, (compileScript_none hscript).2⟩
    rintro ⟨blocks', hblocks, htemplate⟩
    cases hcompiled.split.symm.trans hblocks
    exact absurd (hsome.2 (Option.isSome_iff_ne_none.2 htemplate)) Bool.false_ne_true
  | some markup =>
    obtain ⟨m, -, -, -, hm, hrenders, -⟩ := compileScript_some hscript
    have htemplate : blocks.template ≠ none := Option.isSome_iff_ne_none.1 (hsome.1 rfl)
    exact .inr ⟨⟨blocks, hcompiled.split, htemplate⟩, m, hm, hrenders.moduleName⟩

/-! ### One load -/

/-- A load that ended well. -/
structure Load where
  /-- The component that was loaded. -/
  component : Component
  /-- What came out. -/
  output : CompileOutput

namespace Load

/-- What a load writes into the published styles. -/
def sheetEntries (load : Load) : List ((String × String) × String) :=
  load.output.styles.map fun style => ((load.component.address, style.lang), style.payload)

/-- What a load writes into the published template modules. -/
def moduleEntries (load : Load) : List (String × TemplateModule) :=
  load.output.templateModule.toList.map fun m => (m.name, m)

/-- The load gives its address a style in a language. -/
def GivesStyle (load : Load) (key : String × String) : Prop :=
  load.component.address = key.1 ∧ ∃ style ∈ load.output.styles, style.lang = key.2

/-- The load has a template, and its module has this name. -/
def GivesModule (c : Compiler) (load : Load) (name : String) : Prop :=
  c.HasTemplate load.component ∧ c.moduleName load.component = name

end Load

namespace Loader

theorem sheets_publish (l : Loader) (load : Load) :
    (l.publish load.component.address load.output).sheets
      = l.sheets.insertAll load.sheetEntries := by
  simp only [publish, Registry.insertAll, Load.sheetEntries, List.foldl_map]
  rfl

theorem modules_publish (l : Loader) (load : Load) :
    (l.publish load.component.address load.output).modules
      = l.modules.insertAll load.moduleEntries := by
  rw [publish, Load.moduleEntries]
  cases load.output.templateModule with
  | none => rfl
  | some m => rfl

/-- **What one load does**: it publishes what came out, or it fails and leaves all but the scopes
as it was. -/
theorem load_cases (l : Loader) (component : Component) :
    (∃ out scopes, (∃ s s', l.compiler.compile component s = .ok out s') ∧
      (l.compile component).1.result = .ok out ∧
      l.load component
        = (.ok out.script, { l with scopes }.publish component.address out)) ∨
    ∃ e scopes, (l.compile component).1.result = .error e ∧
      l.load component = (.error e, { l with scopes }) := by
  unfold Loader.load Loader.compile
  rw [EStateM.run]
  cases h : l.compiler.compile component { scopes := l.scopes } with
  | ok out s' => exact .inl ⟨out, s'.scopes, ⟨_, s', h⟩, rfl, rfl⟩
  | error e s' => exact .inr ⟨e, s'.scopes, rfl, rfl⟩

/-! ### A history of loads -/

/-- The loader behind a history of loads. -/
def loadAll (l : Loader) (history : List Component) : Loader :=
  history.foldl (fun l component => (l.load component).2) l

/-- What came out of a load, if it ended well. -/
def loadOf (l : Loader) (component : Component) : List Load :=
  match (l.compile component).1.result with
  | .ok output => [{ component, output }]
  | .error _ => []

/-- The loads of a history that ended well, in order. -/
def loads (l : Loader) : List Component → List Load
  | [] => []
  | component :: history => l.loadOf component ++ (l.load component).2.loads history

theorem load_publishes (l : Loader) (component : Component) :
    (l.load component).2.compiler = l.compiler ∧
    (l.load component).2.sheets
      = l.sheets.insertAll ((l.loadOf component).flatMap Load.sheetEntries) ∧
    (l.load component).2.modules
      = l.modules.insertAll ((l.loadOf component).flatMap Load.moduleEntries) := by
  rcases l.load_cases component with ⟨out, scopes, -, hresult, hload⟩ | ⟨e, scopes, hresult, hload⟩
  · rw [hload, loadOf, hresult]
    simp only [List.flatMap_singleton]
    exact ⟨rfl, sheets_publish _ ⟨component, out⟩, modules_publish _ ⟨component, out⟩⟩
  · rw [hload, loadOf, hresult]
    exact ⟨rfl, rfl, rfl⟩

/-- The published styles behind a history are what its loads wrote. -/
theorem sheets_loadAll (l : Loader) (history : List Component) :
    (l.loadAll history).sheets
      = l.sheets.insertAll ((l.loads history).flatMap Load.sheetEntries) := by
  induction history generalizing l with
  | nil => rfl
  | cons component history ih =>
    have hhead := (l.load_publishes component).2.1
    rw [loads, List.flatMap_append, Registry.insertAll_append, ← hhead]
    exact ih _

/-- The published template modules behind a history are what its loads wrote. -/
theorem modules_loadAll (l : Loader) (history : List Component) :
    (l.loadAll history).modules
      = l.modules.insertAll ((l.loads history).flatMap Load.moduleEntries) := by
  induction history generalizing l with
  | nil => rfl
  | cons component history ih =>
    have hhead := (l.load_publishes component).2.2
    rw [loads, List.flatMap_append, Registry.insertAll_append, ← hhead]
    exact ih _

/-- Every load of a history was compiled. -/
theorem compiled_of_mem_loads {l : Loader} {history : List Component} {load : Load}
    (h : load ∈ l.loads history) :
    ∃ s s', l.compiler.compile load.component s = .ok load.output s' := by
  induction history generalizing l with
  | nil => cases h
  | cons component history ih =>
    rcases List.mem_append.1 h with h | h
    · rcases l.load_cases component with ⟨out, -, hcompile, hresult, -⟩ | ⟨e, -, hresult, -⟩
      · rw [loadOf, hresult] at h
        obtain rfl := List.mem_singleton.1 h
        exact hcompile
      · rw [loadOf, hresult] at h
        cases h
    · have hcompiler := (l.load_publishes component).1
      rw [← hcompiler]
      exact ih h

end Loader

/-! ### What is found -/

/-- The number of keys is the number of different keys that were written. -/
theorem Registry.size_insertAll_empty {κ ν : Type} [DecidableEq κ] (es : List (κ × ν)) :
    (({} : Registry κ ν).insertAll es).size = {k | ∃ e ∈ es, e.1 = k}.ncard := by
  have hnodup := nodup_keys_insertAll (r := ({} : Registry κ ν)) List.nodup_nil es
  have hkeys : {k | ∃ e ∈ es, e.1 = k} = (({} : Registry κ ν).insertAll es).keys.toFinset := by
    ext k
    rw [Finset.mem_coe, List.mem_toFinset, mem_keys_insertAll]
    simp [keys]
  rw [hkeys, Set.ncard_coe_finset, List.toFinset_card_of_nodup hnodup, length_keys]

namespace Load

theorem exists_mem_sheetEntries {load : Load} {key : String × String} :
    (∃ e ∈ load.sheetEntries, e.1 = key) ↔ load.GivesStyle key := by
  obtain ⟨address, lang⟩ := key
  simp only [sheetEntries, GivesStyle, List.mem_map]
  constructor
  · rintro ⟨-, ⟨style, hmem, rfl⟩, heq⟩
    obtain ⟨rfl, rfl⟩ := Prod.mk.inj heq
    exact ⟨rfl, style, hmem, rfl⟩
  · rintro ⟨rfl, style, hmem, rfl⟩
    exact ⟨_, ⟨style, hmem, rfl⟩, rfl⟩

/-- Of the styles of a load in one language, the last one is found. -/
theorem lastOf_sheetEntries {load : Load} {address lang payload : String}
    (h : load.component.address = address) :
    LastOf (fun e => e.1 = (address, lang)) load.sheetEntries ((address, lang), payload) ↔
      ∃ style, LastOf (fun style => style.lang = lang) load.output.styles style ∧
        style.payload = payload := by
  subst h
  rw [sheetEntries, lastOf_map]
  simp only [Prod.mk.injEq, true_and]
  constructor
  · rintro ⟨style, hlast, -, hpayload⟩
    exact ⟨style, hlast, hpayload⟩
  · rintro ⟨style, hlast, hpayload⟩
    exact ⟨style, hlast, hlast.holds, hpayload⟩

theorem exists_mem_moduleEntries {load : Load}
    (h : ∃ s s', c.compile load.component s = .ok load.output s') {name : String} :
    (∃ e ∈ load.moduleEntries, e.1 = name) ↔ load.GivesModule c name := by
  obtain ⟨s, s', h⟩ := h
  rw [moduleEntries, GivesModule]
  rcases templateModule_of_compile h with ⟨hno, hm⟩ | ⟨hyes, m, hm, hname⟩
  · simp [hm, hno]
  · simp [hm, hyes, hname]

theorem lastOf_moduleEntries {load : Load} {name : String} {m : TemplateModule} :
    LastOf (fun e => e.1 = name) load.moduleEntries (name, m) ↔
      load.output.templateModule = some m ∧ m.name = name := by
  rw [moduleEntries]
  cases load.output.templateModule with
  | none => simp [not_lastOf_nil]
  | some m' =>
    rw [Option.toList_some, List.map_singleton, lastOf_singleton]
    simp only [Prod.mk.injEq, Option.some.injEq]
    constructor
    · rintro ⟨hname, -, rfl⟩
      exact ⟨rfl, hname⟩
    · rintro ⟨rfl, hname⟩
      exact ⟨hname, hname.symm, rfl⟩

end Load

/-- **Publishing is all or nothing, and the last writer wins.**

A load that fails leaves what is published as it was.  Behind any history of loads with a new
loader, what is found under an address and a language is the payload of the last style in that
language, in the last load from that address that ended well and had one.  What is found under the
name of a module is the module of the last load that ended well, had a template and gives its module
that name.  Where there was no such load, nothing is found.  And there are as many entries as
different keys that were written. -/
theorem loadAll_last_writer_wins (compiler : Compiler) (scopes : ScopeRegistry)
    (history : List Component) :
    let l : Loader := { compiler, scopes }
    let loads := l.loads history
    let sheets := (l.loadAll history).sheets
    let modules := (l.loadAll history).modules
    (∀ (l : Loader) (component : Component) (e : CompileError),
      (l.load component).1 = .error e →
        (l.load component).2.sheets = l.sheets ∧ (l.load component).2.modules = l.modules) ∧
    (∀ address lang payload, sheets.get? (address, lang) = some payload ↔
      ∃ load style, LastOf (Load.GivesStyle · (address, lang)) loads load ∧
        LastOf (·.lang = lang) load.output.styles style ∧ style.payload = payload) ∧
    (∀ key, sheets.get? key = none ↔ ∀ load ∈ loads, ¬ load.GivesStyle key) ∧
    (∀ name m, modules.get? name = some m ↔
      ∃ load, LastOf (Load.GivesModule compiler · name) loads load ∧
        load.output.templateModule = some m) ∧
    (∀ name, modules.get? name = none ↔ ∀ load ∈ loads, ¬ load.GivesModule compiler name) ∧
    sheets.size = {key | ∃ load ∈ loads, load.GivesStyle key}.ncard ∧
    modules.size = {name | ∃ load ∈ loads, load.GivesModule compiler name}.ncard := by
  intro l loads sheets modules
  have hsheets : sheets = ({} : StyleSheets).insertAll (loads.flatMap Load.sheetEntries) :=
    l.sheets_loadAll history
  have hmodules : modules = ({} : TemplateModules).insertAll (loads.flatMap Load.moduleEntries) :=
    l.modules_loadAll history
  have hgives : ∀ name, ∀ load ∈ loads,
      ((∃ e ∈ load.moduleEntries, e.1 = name) ↔ load.GivesModule compiler name) :=
    fun name load hmem => Load.exists_mem_moduleEntries (Loader.compiled_of_mem_loads hmem)
  -- the keys that are written, load by load
  have hkeys : ∀ key, (∃ e ∈ loads.flatMap Load.sheetEntries, e.1 = key) ↔
      ∃ load ∈ loads, load.GivesStyle key := by
    intro key
    simp only [← Load.exists_mem_sheetEntries, exists_mem_flatMap]
  have hnames : ∀ name, (∃ e ∈ loads.flatMap Load.moduleEntries, e.1 = name) ↔
      ∃ load ∈ loads, load.GivesModule compiler name := by
    intro name
    rw [exists_mem_flatMap]
    exact exists_congr fun load => and_congr_right (hgives name load)
  refine ⟨?_, ?_, ?_, ?_, ?_, ?_, ?_⟩
  · intro l component e he
    rcases l.load_cases component with ⟨out, scopes, -, -, hload⟩ | ⟨e', scopes, -, hload⟩
    · rw [hload] at he
      cases he
    · rw [hload]
      exact ⟨rfl, rfl⟩
  · intro address lang payload
    rw [hsheets, Registry.get?_insertAll_empty, lastOf_flatMap]
    simp only [Load.exists_mem_sheetEntries]
    constructor
    · rintro ⟨load, hlast, hentry⟩
      obtain ⟨style, hstyle⟩ := (Load.lastOf_sheetEntries hlast.holds.1).1 hentry
      exact ⟨load, style, hlast, hstyle⟩
    · rintro ⟨load, style, hlast, hstyle⟩
      exact ⟨load, hlast, (Load.lastOf_sheetEntries hlast.holds.1).2 ⟨style, hstyle⟩⟩
  · intro key
    rw [hsheets, Registry.get?_insertAll_empty_eq_none, hkeys]
    simp only [not_exists, not_and]
  · intro name m
    rw [hmodules, Registry.get?_insertAll_empty, lastOf_flatMap]
    simp only [lastOf_congr (hgives name), Load.lastOf_moduleEntries]
    constructor
    · rintro ⟨load, hlast, hm, -⟩
      exact ⟨load, hlast, hm⟩
    · rintro ⟨load, hlast, hm⟩
      refine ⟨load, hlast, hm, ?_⟩
      -- the module has the name that the load gives it
      obtain ⟨s, s', hcompile⟩ := Loader.compiled_of_mem_loads hlast.mem
      rcases templateModule_of_compile hcompile with ⟨-, hnone⟩ | ⟨-, m', hm', hname⟩
      · cases hm.symm.trans hnone
      · cases hm.symm.trans hm'
        exact hname.trans hlast.holds.2
  · intro name
    rw [hmodules, Registry.get?_insertAll_empty_eq_none, hnames]
    simp only [not_exists, not_and]
  · rw [hsheets, Registry.size_insertAll_empty]
    simp only [hkeys]
  · rw [hmodules, Registry.size_insertAll_empty]
    simp only [hnames]

end ComponentCompiler
