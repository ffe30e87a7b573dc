import ComponentCompiler.Component.Loader
import ComponentCompiler.Proofs.Component.Compile
import Mathlib.Data.List.TakeWhile

/-!
# The work on a component in any order

The styles and the template of a component are worked on side by side, and the branches of this work
may complete in any order.  An intake has a slot for each of them.  A branch that ends well puts its
result into its own slot; the first one that fails ends the work, and what completes later is not
looked at.  There is a result only when every slot is filled.

After any order of completions, whether all branches are among them or not, the intake can be told
from the outcomes alone: a slot is filled exactly if its branch completed before the first failure.
So the result does not depend on the order, and only the choice among several errors does.

## Main definitions

* `Branch`, `Outcomes` — the branches of the work on a component, and how they end.
* `Intake`, with `finish`, `run` and `outcome` — what is there when branches complete in some order.
* `Intake.snapshot` — the intake, told from the outcomes.
* `CompletesIn` — work whose branches complete in some order.

## Main results

* `Intake.finish_snapshot`, `Intake.run_snapshot` — the slots after one completion and after any
  order of them.
* `Intake.outcome_run_eq_ok`, `Intake.outcome_run_eq_error` — when there is a result or an error.
* `fanIn_all_or_nothing` — **in every order the work on a component gives all its results in source
  order, or nothing but the error of a branch that fails**.
-/

namespace ComponentCompiler

/-! ### Branches -/

/-- A branch of the work on a component. -/
inductive Branch where
  /-- The style at a place. -/
  | style (i : Nat)
  /-- The template. -/
  | template
  deriving DecidableEq, Repr

/-- The branches of the work on a component with a number of styles. -/
def Branch.all (n : Nat) : List Branch := (List.range n).map .style ++ [.template]

theorem Branch.forall_mem_all {n : Nat} {p : Branch → Prop} :
    (∀ b ∈ Branch.all n, p b) ↔ (∀ i, i < n → p (.style i)) ∧ p .template := by
  simp [Branch.all, or_imp, forall_and]

/-- How the branches end. -/
structure Outcomes where
  /-- The styles, in source order. -/
  styles : List (Except CompileError StyleResult)
  /-- The template. -/
  template : Except CompileError (Option String)

/-- The error of an outcome. -/
def failure? {ε α : Type} : Except ε α → Option ε
  | .ok _ => none
  | .error e => some e

/-- The error of a branch, if it fails. -/
def Outcomes.error? (o : Outcomes) : Branch → Option CompileError
  | .style i => o.styles[i]?.bind failure?
  | .template => failure? o.template

/-- Only the branches of a component fail. -/
theorem Outcomes.mem_all_of_error? (o : Outcomes) {b : Branch} {e : CompileError}
    (h : o.error? b = some e) : b ∈ Branch.all o.styles.length := by
  cases b with
  | template => simp [Branch.all]
  | style i =>
    obtain ⟨r, hr, -⟩ := Option.bind_eq_some_iff.1 h
    have hi : i < o.styles.length := (List.getElem?_eq_some_iff.1 hr).1
    simp [Branch.all, hi]

theorem ok_or_mem_error {ε α : Type} (os : List (Except ε α)) :
    (∃ xs : List α, os = xs.map .ok) ∨ ∃ e, .error e ∈ os := by
  induction os with
  | nil => exact .inl ⟨[], rfl⟩
  | cons r os ih =>
    cases r with
    | error e => exact .inr ⟨e, List.mem_cons_self⟩
    | ok x =>
      rcases ih with ⟨xs, rfl⟩ | ⟨e, he⟩
      · exact .inl ⟨x :: xs, rfl⟩
      · exact .inr ⟨e, List.mem_cons_of_mem _ he⟩

theorem failure?_eq_some {ε α : Type} {r : Except ε α} {e : ε} :
    failure? r = some e ↔ r = .error e := by
  cases r <;> simp [failure?]

/-- The errors of branches are those of the styles and of the template. -/
theorem Outcomes.exists_error? (o : Outcomes) (e : CompileError) :
    (∃ b, o.error? b = some e) ↔ .error e ∈ o.styles ∨ o.template = .error e := by
  constructor
  · rintro ⟨b, hb⟩
    cases b with
    | template => exact .inr (failure?_eq_some.1 hb)
    | style i =>
      obtain ⟨r, hr, he⟩ := Option.bind_eq_some_iff.1 hb
      exact .inl (failure?_eq_some.1 he ▸ List.mem_of_getElem? hr)
  · rintro (h | h)
    · obtain ⟨i, hi⟩ := List.getElem?_of_mem h
      exact ⟨.style i, by rw [error?, hi]; rfl⟩
    · exact ⟨.template, failure?_eq_some.2 h⟩

/-- All branches end well, or one of them fails. -/
theorem Outcomes.ok_or_error (o : Outcomes) :
    (∃ (styles : List StyleResult) (markup : Option String),
      o.styles = styles.map .ok ∧ o.template = .ok markup) ∨
      ∃ b e, o.error? b = some e := by
  cases htemplate : o.template with
  | error e => exact .inr ⟨.template, e, failure?_eq_some.2 htemplate⟩
  | ok markup =>
    rcases ok_or_mem_error o.styles with ⟨styles, hstyles⟩ | ⟨e, he⟩
    · exact .inl ⟨styles, markup, hstyles, rfl⟩
    · obtain ⟨b, hb⟩ := (o.exists_error? e).2 (.inl he)
      exact .inr ⟨b, e, hb⟩

/-! ### Completions -/

/-- What is there of the work on a component. -/
structure Intake where
  /-- A slot for each style. -/
  styles : List (Option StyleResult)
  /-- The slot for the markup. -/
  markup : Option (Option String)
  /-- The error that ended the work. -/
  failure : Option CompileError

namespace Intake

/-- Take in what a branch ends with. -/
def receive (o : Outcomes) (g : Intake) : Branch → Intake
  | .style i =>
      match o.styles[i]? with
      | none => g
      | some (.ok result) => { g with styles := g.styles.set i (some result) }
      | some (.error e) => { g with failure := some e }
  | .template =>
      match o.template with
      | .ok markup => { g with markup := some markup }
      | .error e => { g with failure := some e }

/-- A branch completes; nothing is taken in once one failed. -/
def finish (o : Outcomes) (g : Intake) (b : Branch) : Intake :=
  match g.failure with
  | some _ => g
  | none => g.receive o b

/-- Branches complete in some order. -/
def run (o : Outcomes) (order : List Branch) : Intake :=
  order.foldl (finish o) ⟨List.replicate o.styles.length none, none, none⟩

/-- What comes out, if that is known yet. -/
def outcome (g : Intake) : Option (Except CompileError (List StyleResult × Option String)) :=
  match g.failure, g.styles.mapM id, g.markup with
  | some e, _, _ => some (.error e)
  | none, some styles, some markup => some (.ok (styles, markup))
  | none, _, _ => none

/-- The slots for styles, told from the outcomes: those of the branches in `front` are filled. -/
def slots (o : Outcomes) (front : List Branch) : List (Option StyleResult) :=
  o.styles.mapIdx fun i result => if .style i ∈ front then result.toOption else none

/-- The intake told from the outcomes: the branches in `front` completed, none of them with an
error. -/
def snapshot (o : Outcomes) (front : List Branch) (failure : Option CompileError) : Intake where
  styles := slots o front
  markup := if .template ∈ front then o.template.toOption else none
  failure := failure

variable {o : Outcomes} {order front : List Branch} {g : Intake} {e : CompileError}
  {styles : List StyleResult} {markup : Option String}

theorem getElem?_slots (o : Outcomes) (front : List Branch) (i : Nat) :
    (slots o front)[i]?
      = o.styles[i]?.map fun result => if .style i ∈ front then result.toOption else none :=
  List.getElem?_mapIdx

/-- A style that completes fills its own slot and no other one. -/
theorem slots_style {i : Nat} {slot : Option StyleResult}
    (h : ∀ result, o.styles[i]? = some result → result.toOption = slot) :
    slots o (front ++ [.style i]) = (slots o front).set i slot := by
  refine List.ext_getElem? fun j => ?_
  by_cases hij : i = j
  · subst hij
    rw [List.getElem?_set_self', getElem?_slots, getElem?_slots]
    cases hi : o.styles[i]? with
    | none => rfl
    | some result => simp [h result hi]
  · rw [List.getElem?_set_ne hij, getElem?_slots, getElem?_slots]
    simp [Ne.symm hij]

/-- **One completion.**  A branch that ends well fills its slot, and one that fails ends the
work. -/
theorem finish_snapshot (o : Outcomes) (front : List Branch) (b : Branch) :
    (snapshot o front none).finish o b
      = match o.error? b with
        | none => snapshot o (front ++ [b]) none
        | some e => snapshot o front (some e) := by
  cases b with
  | template =>
    have hslots : slots o (front ++ [.template]) = slots o front := by simp [slots]
    cases h : o.template with
    | ok markup =>
      simp [finish, receive, snapshot, Outcomes.error?, failure?, h, Except.toOption, hslots]
    | error e => simp [finish, receive, snapshot, Outcomes.error?, failure?, h]
  | style i =>
    cases h : o.styles[i]? with
    | none =>
      -- there is no such style, and no slot for it
      have hslots : slots o (front ++ [.style i]) = slots o front := by
        have hset : slots o (front ++ [.style i]) = (slots o front).set i none :=
          slots_style (by simp [h])
        rw [hset, List.set_eq_of_length_le]
        rw [slots, List.length_mapIdx]
        exact List.getElem?_eq_none_iff.1 h
      simp [finish, receive, snapshot, Outcomes.error?, h, hslots]
    | some result =>
      cases result with
      | ok result =>
        have hslots : slots o (front ++ [.style i]) = (slots o front).set i (some result) := by
          refine slots_style fun r hr => ?_
          rw [h] at hr
          cases hr
          rfl
        simp [finish, receive, snapshot, Outcomes.error?, failure?, h, hslots]
      | error e => simp [finish, receive, snapshot, Outcomes.error?, failure?, h]

theorem foldl_finish_of_failure (h : g.failure = some e) (order : List Branch) :
    order.foldl (finish o) g = g := by
  induction order with
  | nil => rfl
  | cons b order ih =>
    have hstep : g.finish o b = g := by simp only [finish, h]
    rw [List.foldl_cons, hstep, ih]

/-- **Any order of completions**: the slots of the branches before the first failure are filled. -/
theorem run_snapshot (o : Outcomes) (order : List Branch) :
    run o order = snapshot o (order.takeWhile fun b => (o.error? b).isNone)
      (order.findSome? o.error?) := by
  -- the branches that have completed go over to the front one by one
  have hgen : ∀ (order front : List Branch), order.foldl (finish o) (snapshot o front none)
      = snapshot o (front ++ order.takeWhile fun b => (o.error? b).isNone)
          (order.findSome? o.error?) := by
    intro order
    induction order with
    | nil => simp
    | cons b order ih =>
      intro front
      rw [List.foldl_cons, finish_snapshot]
      cases hb : o.error? b with
      | none => simp [ih, hb]
      | some e =>
        have hrest : order.foldl (finish o) (snapshot o front (some e))
            = snapshot o front (some e) := foldl_finish_of_failure rfl order
        simp [hrest, hb]
  have hstart : snapshot o [] none = ⟨List.replicate o.styles.length none, none, none⟩ := by
    simp [snapshot, slots, List.mapIdx_eq_replicate_iff]
  rw [run, ← hstart, hgen, List.nil_append]

/-! ### What comes out -/

theorem mapM_id_eq_some {α : Type} {xs : List (Option α)} {ys : List α} :
    xs.mapM id = some ys ↔ xs = ys.map some := by
  induction xs generalizing ys with
  | nil => cases ys <;> simp
  | cons x xs ih => cases ys <;> cases x <;> simp [ih, Option.bind_eq_some_iff, and_comm]

theorem outcome_eq_error (g : Intake) : g.outcome = some (.error e) ↔ g.failure = some e := by
  unfold outcome
  split <;> simp_all

theorem outcome_eq_ok (g : Intake) :
    g.outcome = some (.ok (styles, markup)) ↔
      g.failure = none ∧ g.styles = styles.map some ∧ g.markup = some markup := by
  rw [← mapM_id_eq_some]
  unfold outcome
  split <;> simp_all

/-- There is an error exactly if a branch that failed is among those that completed; it is that of
the first one. -/
theorem outcome_run_eq_error :
    (run o order).outcome = some (.error e) ↔ order.findSome? o.error? = some e := by
  rw [outcome_eq_error, run_snapshot, snapshot]

theorem slot_eq_some {α : Type} {p : Prop} [Decidable p] {r : Except CompileError α} {x : α} :
    (if p then r.toOption else none) = some x ↔ p ∧ r = .ok x := by
  by_cases hp : p <;> cases r <;> simp [hp, Except.toOption]

/-- All slots are filled exactly if all styles completed, and ended well. -/
theorem slots_eq_iff :
    slots o front = styles.map some ↔
      (∀ i, i < o.styles.length → .style i ∈ front) ∧ o.styles = styles.map .ok := by
  constructor
  · intro h
    have hlen : o.styles.length = styles.length := by
      simpa [slots] using congrArg List.length h
    -- a filled slot tells both that its branch completed and how it ended
    have hslot : ∀ i (hi : i < o.styles.length) (hi' : i < styles.length),
        .style i ∈ front ∧ o.styles[i] = .ok styles[i] := by
      intro i hi hi'
      have := congrArg (·[i]?) h
      simp only [getElem?_slots, List.getElem?_eq_getElem hi, List.getElem?_map,
        List.getElem?_eq_getElem hi', Option.map_some, Option.some.injEq] at this
      exact slot_eq_some.1 this
    refine ⟨fun i hi => (hslot i hi (hlen ▸ hi)).1, List.ext_getElem ?_ fun i hi hi' => ?_⟩
    · rw [hlen, List.length_map]
    · rw [List.getElem_map, (hslot i hi (hlen ▸ hi)).2]
  · rintro ⟨hfront, hstyles⟩
    refine List.ext_getElem? fun i => ?_
    rw [getElem?_slots, hstyles, List.getElem?_map, List.getElem?_map]
    cases hi : styles[i]? with
    | none => rfl
    | some result =>
      have hmem : Branch.style i ∈ front := by
        refine hfront i ?_
        rw [hstyles, List.length_map]
        exact (List.getElem?_eq_some_iff.1 hi).1
      simp [hmem, Except.toOption]

/-- A slot is filled by nobody but its own branch. -/
theorem eq_ok_of_getElem?_run {i : Nat} {result : StyleResult}
    (h : (run o order).styles[i]? = some (some result)) :
    .style i ∈ order ∧ o.styles[i]? = some (.ok result) := by
  rw [run_snapshot, snapshot, getElem?_slots] at h
  obtain ⟨r, hr, hslot⟩ := Option.map_eq_some_iff.1 h
  obtain ⟨hmem, rfl⟩ := slot_eq_some.1 hslot
  exact ⟨(List.takeWhile_prefix _).subset hmem, hr⟩

/-- There is a result exactly if all branches completed, and ended well: whatever the order is,
these are its results. -/
theorem outcome_run_eq_ok :
    (run o order).outcome = some (.ok (styles, markup)) ↔
      (∀ b ∈ Branch.all o.styles.length, b ∈ order) ∧ o.styles = styles.map .ok ∧
        o.template = .ok markup := by
  rw [outcome_eq_ok, run_snapshot, snapshot, Branch.forall_mem_all]
  -- without a failure every branch of the order is taken in
  have hfront : order.findSome? o.error? = none →
      order.takeWhile (fun b => (o.error? b).isNone) = order := by
    intro h
    refine List.takeWhile_eq_self_iff.2 fun b hb => ?_
    rw [List.findSome?_eq_none_iff.1 h b hb]
    rfl
  constructor
  · rintro ⟨hnone, hslots, hmarkup⟩
    rw [hfront hnone] at hslots hmarkup
    obtain ⟨hmem, hstyles⟩ := slots_eq_iff.1 hslots
    obtain ⟨hmem', htemplate⟩ := slot_eq_some.1 hmarkup
    exact ⟨⟨hmem, hmem'⟩, hstyles, htemplate⟩
  · rintro ⟨⟨hmem, hmem'⟩, hstyles, htemplate⟩
    have hnone : order.findSome? o.error? = none := by
      refine List.findSome?_eq_none_iff.2 fun b _ => ?_
      cases b with
      | template => rw [Outcomes.error?, htemplate, failure?]
      | style i =>
        rw [Outcomes.error?, hstyles, List.getElem?_map]
        cases styles[i]? <;> rfl
    rw [hfront hnone]
    exact ⟨hnone, slots_eq_iff.2 ⟨hmem, hstyles⟩, slot_eq_some.2 ⟨hmem', htemplate⟩⟩

/-- When all branches have completed and one of them fails, an error comes out that is the one of a
branch. -/
theorem exists_outcome_error {b : Branch} (hb : o.error? b = some e)
    (h : ∀ b ∈ Branch.all o.styles.length, b ∈ order) :
    ∃ b' e', o.error? b' = some e' ∧ (run o order).outcome = some (.error e') := by
  have hsome : (order.findSome? o.error?).isSome :=
    List.findSome?_isSome_iff.2 ⟨b, h b (o.mem_all_of_error? hb), by rw [hb]; rfl⟩
  obtain ⟨e', he'⟩ := Option.isSome_iff_exists.1 hsome
  obtain ⟨b', -, hb'⟩ := List.exists_of_findSome?_eq_some he'
  exact ⟨b', e', hb', outcome_run_eq_error.2 he'⟩

/-- When all branches have completed, something comes out. -/
theorem exists_outcome (h : ∀ b ∈ Branch.all o.styles.length, b ∈ order) :
    ∃ r, (run o order).outcome = some r := by
  rcases o.ok_or_error with ⟨styles, markup, hstyles, htemplate⟩ | ⟨b, e, hb⟩
  · exact ⟨.ok (styles, markup), outcome_run_eq_ok.2 ⟨h, hstyles, htemplate⟩⟩
  · obtain ⟨-, e', -, he'⟩ := exists_outcome_error hb h
    exact ⟨.error e', he'⟩

end Intake

/-! ### The work of a compiler -/

open Intake (run)

variable {c : Compiler} {component : Component} {blocks : Blocks} {scopeId : Option String}
  {styles : List StyleResult} {markup : Option String} {e : CompileError}

/-- How the branches of the work on a component end. -/
def Compiler.outcomes (c : Compiler) (component : Component) (scopeId : Option String)
    (blocks : Blocks) : Outcomes where
  styles := blocks.styles.map fun style =>
    (c.compileStyle component.address scopeId style).outcome
  template := (c.compileTemplate component.name blocks.template).outcome

theorem outcomes_eq_ok :
    ((c.outcomes component scopeId blocks).styles = styles.map .ok ∧
      (c.outcomes component scopeId blocks).template = .ok markup) ↔
      EndsWith c component scopeId blocks styles markup := by
  simp only [Compiler.outcomes, templateEnds_iff]
  rw [← List.forall₂_eq_eq_eq, List.forall₂_map_left_iff, List.forall₂_map_right_iff]
  simp only [styleEnds_iff]
  exact ⟨fun ⟨h, h'⟩ => ⟨h, h'⟩, fun ⟨h, h'⟩ => ⟨h, h'⟩⟩

theorem exists_error?_iff :
    (∃ b, (c.outcomes component scopeId blocks).error? b = some e) ↔
      FailsWith c component scopeId blocks e := by
  simp only [Outcomes.exists_error?, Compiler.outcomes, List.mem_map, FailsWith, styleEnds_iff,
    templateEnds_iff]

/-- Work whose branches complete in some order. -/
structure CompletesIn (o : Outcomes) (order : List Branch)
    (work : Job CompileError (List StyleResult × Option String)) : Prop where
  /-- All branches complete. -/
  complete : ∀ b ∈ Branch.all o.styles.length, b ∈ order
  /-- The work ends as they make it end. -/
  outcome : (run o order).outcome = some work.outcome

/-- The compiler's own work completes in some order. -/
theorem exists_completesIn_fanOut (c : Compiler) (component : Component) (scopeId : Option String)
    (blocks : Blocks) :
    ∃ order, CompletesIn (c.outcomes component scopeId blocks) order
      (c.fanOut component scopeId blocks) := by
  rcases fanOut_outcome c component scopeId blocks with
    ⟨styles, markup, hends, hwork⟩ | ⟨e, hfails, hwork⟩
  · -- all end well, so any order will do
    refine ⟨_, fun b hb => hb, ?_⟩
    rw [hwork, Intake.outcome_run_eq_ok]
    exact ⟨fun b hb => hb, outcomes_eq_ok.2 hends⟩
  · -- the branch whose error came out is the first one to complete
    obtain ⟨b, hb⟩ := exists_error?_iff.2 hfails
    refine ⟨b :: _, fun b' hb' => List.mem_cons_of_mem b hb', ?_⟩
    rw [hwork, Intake.outcome_run_eq_error, List.findSome?_cons, hb]

/-- Work on branches that all end well gives their results, in whatever order they complete. -/
theorem CompletesIn.fanIn_eq_deliver {order : List Branch}
    {work : Job CompileError (List StyleResult × Option String)}
    (h : CompletesIn (c.outcomes component scopeId blocks) order work)
    (hends : EndsWith c component scopeId blocks styles markup) (s : CompileState) :
    c.fanIn component scopeId blocks work s
      = c.deliver component scopeId blocks styles markup (s.waited work) := by
  have hout := Intake.outcome_run_eq_ok.2 ⟨h.complete, outcomes_eq_ok.2 hends⟩
  exact fanIn_of_ok (Option.some.inj (h.outcome.symm.trans hout))

/-- Work on branches of which one fails gives nothing but an error of a branch. -/
theorem CompletesIn.fanIn_eq_error {order : List Branch}
    {work : Job CompileError (List StyleResult × Option String)}
    (h : CompletesIn (c.outcomes component scopeId blocks) order work)
    (hfails : FailsWith c component scopeId blocks e) :
    ∃ e', FailsWith c component scopeId blocks e' ∧
      ∀ s, c.fanIn component scopeId blocks work s = .error e' (s.waited work) := by
  obtain ⟨b, hb⟩ := exists_error?_iff.2 hfails
  obtain ⟨b', e', hb', hout⟩ := Intake.exists_outcome_error hb h.complete
  exact ⟨e', exists_error?_iff.1 ⟨b', hb'⟩, fun s =>
    fanIn_of_error (Option.some.inj (h.outcome.symm.trans hout))⟩

/-- A component that does not compile publishes nothing. -/
theorem load_of_error {l : Loader} {s' : CompileState}
    (h : l.compiler.compile component { scopes := l.scopes } = .error e s') :
    l.load component = (.error e, { l with scopes := s'.scopes }) := by
  unfold Loader.load Loader.compile
  rw [EStateM.run, h]
  rfl

/-- **The work on a component is all or nothing, in whatever order its branches complete.**

Every order in which all of them complete lets the work end, and the compiler's own work ends as in
one of these orders.  At any time a slot holds nothing but the result of its own branch, and no
result of the work is there before the last branch has completed.  All branches end well or one of
them fails.  If all end well, then in every order the rest of the compilation goes on with their
results, one for every style and in source order, and with the markup of the template.  If one of
them fails, then in every order the compilation ends with the error of a branch that fails; and
loading the component then publishes nothing. -/
theorem fanIn_all_or_nothing (c : Compiler) (component : Component) (blocks : Blocks)
    (scopeId : Option String) :
    let o := c.outcomes component scopeId blocks
    (∀ order, (∀ b ∈ Branch.all blocks.styles.length, b ∈ order) →
      ∃ work, CompletesIn o order work) ∧
    (∃ order, CompletesIn o order (c.fanOut component scopeId blocks)) ∧
    (∀ order i result, (run o order).styles[i]? = some (some result) →
      .style i ∈ order ∧ o.styles[i]? = some (.ok result)) ∧
    (∀ order results, (run o order).outcome = some (.ok results) →
      ∀ b ∈ Branch.all blocks.styles.length, b ∈ order) ∧
    ((∃ styles markup, EndsWith c component scopeId blocks styles markup) ∨
      ∃ e, FailsWith c component scopeId blocks e) ∧
    (∀ order work, CompletesIn o order work →
      (∀ styles markup, EndsWith c component scopeId blocks styles markup →
        ∀ s, c.fanIn component scopeId blocks work s
          = c.deliver component scopeId blocks styles markup (s.waited work) ∧
        ∀ out s', c.fanIn component scopeId blocks work s = .ok out s' → out.styles = styles) ∧
      (∀ e, FailsWith c component scopeId blocks e →
        ∃ e', FailsWith c component scopeId blocks e' ∧
          ∀ s, c.fanIn component scopeId blocks work s = .error e' (s.waited work))) ∧
    (∀ s, (c.toolchain.split component.source).outcome = .ok blocks →
      scopeId = (c.scopeIn s.scopes component.name blocks).1 →
      (∀ styles markup, EndsWith c component scopeId blocks styles markup →
        ∃ s₁, c.compile component s = c.deliver component scopeId blocks styles markup s₁) ∧
      (∀ e, FailsWith c component scopeId blocks e →
        ∃ e' s', FailsWith c component scopeId blocks e' ∧ c.compile component s = .error e' s')) ∧
    (∀ l : Loader, l.compiler = c → (c.toolchain.split component.source).outcome = .ok blocks →
      scopeId = (c.scopeIn l.scopes component.name blocks).1 →
      ∀ e, FailsWith c component scopeId blocks e →
        ∃ e' scopes, FailsWith c component scopeId blocks e' ∧
          l.load component = (.error e', { l with scopes })) := by
  intro o
  have hlen : o.styles.length = blocks.styles.length := List.length_map _
  obtain ⟨own, hown⟩ := exists_completesIn_fanOut c component scopeId blocks
  have hcompile : ∀ s, (c.toolchain.split component.source).outcome = .ok blocks →
      scopeId = (c.scopeIn s.scopes component.name blocks).1 → ∃ s₁, c.compile component s
        = c.fanIn component scopeId blocks (c.fanOut component scopeId blocks) s₁ := by
    rintro s hsplit rfl
    obtain ⟨s₁, -, heq⟩ := compile_of_split hsplit s
    exact ⟨s₁, heq⟩
  have hfailing : ∀ s, (c.toolchain.split component.source).outcome = .ok blocks →
      scopeId = (c.scopeIn s.scopes component.name blocks).1 →
      ∀ e, FailsWith c component scopeId blocks e → ∃ e' s',
        FailsWith c component scopeId blocks e' ∧ c.compile component s = .error e' s' := by
    intro s hsplit hscope e hfails
    obtain ⟨s₁, heq⟩ := hcompile s hsplit hscope
    obtain ⟨e', he', herror⟩ := hown.fanIn_eq_error hfails
    exact ⟨e', _, he', heq.trans (herror s₁)⟩
  refine ⟨?_, ⟨own, hown⟩, fun _ _ _ => Intake.eq_ok_of_getElem?_run, ?_, ?_, ?_, ?_, ?_⟩
  · intro order hall
    rw [← hlen] at hall
    obtain ⟨r, hr⟩ := Intake.exists_outcome hall
    exact ⟨.now r, hall, hr⟩
  · intro order ⟨styles, markup⟩ hout
    rw [← hlen]
    exact (Intake.outcome_run_eq_ok.1 hout).1
  · rcases fanOut_outcome c component scopeId blocks with
      ⟨styles, markup, hends, -⟩ | ⟨e, hfails, -⟩
    · exact .inl ⟨styles, markup, hends⟩
    · exact .inr ⟨e, hfails⟩
  · intro order work hwork
    refine ⟨fun styles markup hends s => ?_, fun e => hwork.fanIn_eq_error⟩
    have heq := hwork.fanIn_eq_deliver hends s
    refine ⟨heq, fun out s' hok => ?_⟩
    rw [heq] at hok
    exact (deliver_eq_ok hok).1
  · intro s hsplit hscope
    refine ⟨fun styles markup hends => ?_, hfailing s hsplit hscope⟩
    obtain ⟨s₁, heq⟩ := hcompile s hsplit hscope
    exact ⟨_, heq.trans (hown.fanIn_eq_deliver hends s₁)⟩
  · rintro l rfl hsplit hscope e hfails
    obtain ⟨e', s', he', herror⟩ := hfailing { scopes := l.scopes } hsplit hscope e hfails
    exact ⟨e', s'.scopes, he', load_of_error herror⟩

end ComponentCompiler
