import ComponentCompiler.Proofs.Component.Task
import ComponentCompiler.Proofs.Job
import ComponentCompiler.Proofs.Syntax.Rewrite
import Mathlib.Data.List.Forall2

/-!
# The stages of a compilation

One lemma for every stage says what it gives and what it does to the scopes.  Only one stage touches
them: a component with a style that asks for a scope is given its token.  Whatever fails behind that
stage leaves the token where it is.

## Main definitions

* `scopesAfter`, `KeepsScopes` — what a computation does to the scopes.
* `Compiler.scopeIn` — the scope of a component, and the registry behind that.
* `EndsWith`, `FailsWith` — how the work on the parts of a component ends.
* `Compiled` — the parts of a compiled component.

## Main results

* `compile_of_split`, `compile_of_split_error` — a compilation up to the work on its parts.
* `fanOut_outcome` — all results in order, or the error of one task.
* `scopesAfter_compile` — **what a compilation does to the scopes, whether it fails or not**.
* `compiled_of_compile` — **what a compilation gives if it ends well**.
-/

namespace ComponentCompiler

open Compilation

variable {α β : Type} {c : Compiler} {component : Component} {blocks : Blocks}
  {scopeId : Option String} {s s' : CompileState}

/-! ### Computations -/

theorem check_eq_ok {r : Except CompileError α} {a : α} :
    check r s = .ok a s' ↔ r = .ok a ∧ s' = s := by
  cases r with
  | ok b =>
    constructor
    · rintro ⟨⟩
      exact ⟨rfl, rfl⟩
    · rintro ⟨⟨⟩, rfl⟩
      rfl
  | error e => exact iff_of_false nofun nofun

theorem exists_eq_ok_of_run' {x : Compilation α} {a : α} (h : x.run' s = some a) :
    ∃ s', x s = .ok a s' := by
  delta EStateM.run' EStateM.run at h
  cases hx : x s with
  | ok b s' =>
    rw [hx] at h
    cases h
    exact ⟨s', rfl⟩
  | error e s' =>
    rw [hx] at h
    cases h

/-- The state when a job has been waited for. -/
def CompileState.waited (s : CompileState) (j : Job CompileError α) : CompileState :=
  { s with
    events := s.events ++ List.replicate j.reports.length .compiledStyle
    rounds := s.rounds + j.rounds }

theorem await_apply (j : Job CompileError α) (s : CompileState) :
    await j s = check j.outcome (s.waited j) := rfl

theorem await_eq_ok {j : Job CompileError α} {a : α} :
    await j s = .ok a s' ↔ j.outcome = .ok a ∧ s' = s.waited j := by
  rw [await_apply, check_eq_ok]

/-- The scopes behind a computation, whether it fails or not. -/
def scopesAfter (x : Compilation α) (s : CompileState) : ScopeRegistry :=
  match x s with
  | .ok _ s' => s'.scopes
  | .error _ s' => s'.scopes

/-- The computation does nothing to the scopes. -/
def KeepsScopes (x : Compilation α) : Prop := ∀ s, scopesAfter x s = s.scopes

theorem scopesAfter_of_ok {x : Compilation α} {a : α} (h : x s = .ok a s') :
    scopesAfter x s = s'.scopes := by rw [scopesAfter, h]

theorem scopesAfter_of_error {x : Compilation α} {e : CompileError} (h : x s = .error e s') :
    scopesAfter x s = s'.scopes := by rw [scopesAfter, h]

theorem KeepsScopes.bind {x : Compilation α} {f : α → Compilation β} (hx : KeepsScopes x)
    (hf : ∀ a, KeepsScopes (f a)) : KeepsScopes (x >>= f) := by
  intro s
  have hscopes := hx s
  cases h : x s with
  | ok a s' =>
    rw [scopesAfter_of_ok h] at hscopes
    have := hf a s'
    rw [scopesAfter] at this ⊢
    rw [bind_of_ok h, this, hscopes]
  | error e s' =>
    rw [scopesAfter_of_error h] at hscopes
    rw [scopesAfter_of_error (bind_of_error h f), hscopes]

theorem fanIn_of_ok {work : Job CompileError (List StyleResult × Option String)}
    {styles : List StyleResult} {markup : Option String} (h : work.outcome = .ok (styles, markup)) :
    c.fanIn component scopeId blocks work s
      = c.deliver component scopeId blocks styles markup (s.waited work) :=
  bind_of_ok (await_eq_ok.2 ⟨h, rfl⟩)

theorem fanIn_of_error {work : Job CompileError (List StyleResult × Option String)}
    {e : CompileError} (h : work.outcome = .error e) :
    c.fanIn component scopeId blocks work s = .error e (s.waited work) :=
  bind_of_error (by rw [await_apply, h]; rfl) _

theorem forall₂_of_settles {os : List (Except CompileError α)} {xs : List α}
    (h : Job.Settles os (.ok xs)) : List.Forall₂ (fun o x => o = .ok x) os xs := by
  cases h with
  | ok h =>
    rw [h, List.forall₂_map_left_iff]
    exact List.forall₂_same.2 fun _ _ => rfl

/-- All styles of a component and its template end well, with these results. -/
structure EndsWith (c : Compiler) (component : Component) (scopeId : Option String)
    (blocks : Blocks) (styles : List StyleResult) (markup : Option String) : Prop where
  /-- One result for every style, in source order. -/
  styles : List.Forall₂ (fun style result =>
    StyleEnds c component.address scopeId style (.ok result)) blocks.styles styles
  /-- The markup takes the place of the template. -/
  template : TemplateEnds c.toolchain component.name blocks.template (.ok markup)

/-- A style of a component or its template fails, with this error. -/
def FailsWith (c : Compiler) (component : Component) (scopeId : Option String) (blocks : Blocks)
    (e : CompileError) : Prop :=
  (∃ style ∈ blocks.styles, StyleEnds c component.address scopeId style (.error e)) ∨
    TemplateEnds c.toolchain component.name blocks.template (.error e)

/-- The styles and the template give all their results in order, or the error of one of them. -/
theorem fanOut_outcome (c : Compiler) (component : Component) (scopeId : Option String)
    (blocks : Blocks) :
    (∃ styles markup, EndsWith c component scopeId blocks styles markup ∧
      (c.fanOut component scopeId blocks).outcome = .ok (styles, markup)) ∨
    ∃ e, FailsWith c component scopeId blocks e ∧
      (c.fanOut component scopeId blocks).outcome = .error e := by
  have hbatch := Job.settles_batch (blocks.styles.map (c.compileStyle component.address scopeId))
  rw [List.map_map] at hbatch
  rcases Job.both_outcome (Job.batch (blocks.styles.map (c.compileStyle component.address scopeId)))
    (c.compileTemplate component.name blocks.template)
    with ⟨styles, markup, hstyles, htemplate, hboth⟩ | ⟨e, he, hboth⟩
  · refine .inl ⟨styles, markup, ⟨?_, templateEnds_iff.1 htemplate⟩, hboth⟩
    have hresults := forall₂_of_settles (hstyles ▸ hbatch)
    rw [List.forall₂_map_left_iff] at hresults
    exact hresults.imp fun _ _ h => styleEnds_iff.1 h
  · refine .inr ⟨e, ?_, hboth⟩
    rcases he with he | he
    · rw [he] at hbatch
      cases hbatch with
      | error h =>
        obtain ⟨style, hmem, hstyle⟩ := List.mem_map.1 h
        exact .inl ⟨style, hmem, styleEnds_iff.1 hstyle⟩
    · exact .inr (templateEnds_iff.1 he)

/-! ### The way to the parts -/

/-- The scope of a component with the given parts, and the registry behind that. -/
def Compiler.scopeIn (c : Compiler) (r : ScopeRegistry) (name : String) (blocks : Blocks) :
    Option String × ScopeRegistry :=
  if blocks.hasScopedStyle then
    (some (scopeString c.options.scopePrefix (r.assign name).1), (r.assign name).2)
  else (none, r)

theorem decideScope_apply (c : Compiler) (name : String) (blocks : Blocks) (s : CompileState) :
    c.decideScope name blocks s
      = .ok (c.scopeIn s.scopes name blocks).1
          { s with scopes := (c.scopeIn s.scopes name blocks).2 } := by
  unfold Compiler.decideScope Compiler.scopeIn
  split <;> rfl

/-- The state when a source has been split. -/
def CompileState.afterSplit (s : CompileState) (c : Compiler) (source : String) : CompileState :=
  { s with
    events := s.events ++ List.replicate (c.toolchain.split source).skipped .skippedBlock }

theorem splitSource_apply (c : Compiler) (source : String) (s : CompileState) :
    c.splitSource source s
      = check ((c.toolchain.split source).outcome.mapError .split) (s.afterSplit c source) := rfl

/-- A compilation up to the work on its parts. -/
theorem compile_of_split (h : (c.toolchain.split component.source).outcome = .ok blocks)
    (s : CompileState) :
    ∃ s₁ : CompileState, s₁.scopes = (c.scopeIn s.scopes component.name blocks).2 ∧
      c.compile component s
        = c.fanIn component (c.scopeIn s.scopes component.name blocks).1 blocks
            (c.fanOut component (c.scopeIn s.scopes component.name blocks).1 blocks) s₁ := by
  have hsplit : c.splitSource component.source s
      = .ok blocks (s.afterSplit c component.source) := by
    rw [splitSource_apply, h]
    rfl
  have htell : ∀ e s, tell e s = .ok () { s with events := s.events ++ [e] } := fun _ _ => rfl
  rw [Compiler.compile, bind_of_ok hsplit, bind_of_ok (htell ..), bind_of_ok (decideScope_apply ..),
    bind_of_ok (htell ..), bind_of_ok (htell ..)]
  exact ⟨_, rfl, rfl⟩

/-- A source that is no component. -/
theorem compile_of_split_error {e : SplitError}
    (h : (c.toolchain.split component.source).outcome = .error e) (s : CompileState) :
    c.compile component s = .error (.split e) (s.afterSplit c component.source) := by
  refine bind_of_error ?_ _
  rw [splitSource_apply, h]
  rfl

/-- The parts of a compiled component: `r` are the scopes before, `markup` is that of the template,
if there is one. -/
structure Compiled (c : Compiler) (r : ScopeRegistry) (component : Component) (blocks : Blocks)
    (markup : Option String) (out : CompileOutput) : Prop where
  /-- The source has these parts. -/
  split : (c.toolchain.split component.source).outcome = .ok blocks
  /-- The scope. -/
  scope : out.scopeId = (c.scopeIn r component.name blocks).1
  /-- The styles and the template. -/
  parts : EndsWith c component out.scopeId blocks out.styles markup
  /-- The script, and the module of the template. -/
  script : ∃ s s', c.compileScript component.name out.scopeId (blocks.script.getD "") markup s
    = .ok (out.script, out.templateModule) s'

theorem deliver_eq_ok {styles : List StyleResult} {markup : Option String} {out : CompileOutput}
    (h : c.deliver component scopeId blocks styles markup s = .ok out s') :
    out.styles = styles ∧ out.scopeId = scopeId ∧
      ∃ s₁ s₂, c.compileScript component.name scopeId (blocks.script.getD "") markup s₁
        = .ok (out.script, out.templateModule) s₂ := by
  obtain ⟨_, s₁, _, h⟩ := bind_eq_ok.1 h
  obtain ⟨⟨script, m⟩, s₂, hscript, h⟩ := bind_eq_ok.1 h
  obtain ⟨_, s₃, _, h⟩ := bind_eq_ok.1 h
  cases h
  exact ⟨rfl, rfl, s₁, s₂, hscript⟩

/-- **What a compilation gives if it ends well.** -/
theorem compiled_of_compile {out : CompileOutput} (h : c.compile component s = .ok out s') :
    ∃ blocks markup, Compiled c s.scopes component blocks markup out := by
  cases hsplit : (c.toolchain.split component.source).outcome with
  | error e =>
    rw [compile_of_split_error hsplit] at h
    cases h
  | ok blocks =>
    obtain ⟨s₁, -, heq⟩ := compile_of_split hsplit s
    rw [heq] at h
    rcases fanOut_outcome c component (c.scopeIn s.scopes component.name blocks).1 blocks
      with ⟨styles, markup, hends, hwork⟩ | ⟨e, -, hwork⟩
    · rw [fanIn_of_ok hwork] at h
      obtain ⟨rfl, hscope, hscript⟩ := deliver_eq_ok h
      rw [← hscope] at hends hscript
      exact ⟨blocks, markup, hsplit, hscope, hends, hscript⟩
    · rw [fanIn_of_error hwork] at h
      cases h

end ComponentCompiler
