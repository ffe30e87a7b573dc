import ComponentCompiler.Style.Printer
import ComponentCompiler.Style.Reader
import ComponentCompiler.Style.Selector

/-!
# Scoping stylesheets

Scoping a stylesheet scopes every selector of every rule, at every depth and in source order.
Rules with an at-sign that are no groups, such as key frames, are left alone.  A selector that
cannot be taken apart ends the work; what was scoped before stays scoped.

## Main definitions

* `Progress` — a value as far as work on it went, with the error that ended it.
* `Stylesheet.scoped` — the work on a whole stylesheet.
* `Stylesheet.scope` — the scoped stylesheet, or the first error.
* `scopeCss` — the same from text to text.
-/

namespace ComponentCompiler.Style

/-- A value as far as work on it went. -/
structure Progress (α : Type) where
  /-- The value. -/
  value : α
  /-- The error that ended the work, if one did. -/
  error : Option SelectorError := none

namespace Progress

/-- Change the value. -/
def map {α β : Type} (f : α → β) (p : Progress α) : Progress β := ⟨f p.value, p.error⟩

/-- Work on two values, the second only if the first one was finished. -/
def both {α β γ : Type} (f : α → β → γ) (p : Progress α) (untouched : β)
    (next : Progress β) : Progress γ :=
  match p.error with
  | some e => ⟨f p.value untouched, some e⟩
  | none => next.map (f p.value)

/-- The value of finished work, or the error that ended it. -/
def toExcept {α : Type} (p : Progress α) : Except SelectorError α :=
  match p.error with
  | some e => .error e
  | none => .ok p.value

end Progress

/-- Scope one selector. -/
def scopedSelector (scope selector : String) : Progress String :=
  match scopeSelector scope selector with
  | .ok s => ⟨s, none⟩
  | .error e => ⟨selector, some e⟩

/-- Scope selectors in order. -/
def scopedSelectors (scope : String) : List String → Progress (List String)
  | [] => ⟨[], none⟩
  | s :: ss => (scopedSelector scope s).both (· :: ·) ss (scopedSelectors scope ss)

mutual

/-- Scope a node and the nodes in it. -/
def Node.scoped (scope : String) : Node → Progress Node
  | .rule ss body => (scopedSelectors scope ss).both .rule body (Item.scopedAll scope body)
  | .group n p body => (Item.scopedAll scope body).map (.group n p)
  | n => ⟨n, none⟩

/-- Scope the nodes among items, in order. -/
def Item.scopedAll (scope : String) : List Item → Progress (List Item)
  | [] => ⟨[], none⟩
  | .nested n :: is =>
      ((n.scoped scope).map Item.nested).both (· :: ·) is (Item.scopedAll scope is)
  | i :: is => (Item.scopedAll scope is).map (i :: ·)

end

/-- Scope nodes in order. -/
def Node.scopedAll (scope : String) : List Node → Progress (List Node)
  | [] => ⟨[], none⟩
  | n :: ns => (n.scoped scope).both (· :: ·) ns (Node.scopedAll scope ns)

/-- Scope a stylesheet. -/
def Stylesheet.scoped (scope : String) (s : Stylesheet) : Progress Stylesheet :=
  (Node.scopedAll scope s.rules).map Stylesheet.mk

/-- The scoped stylesheet, or the first error. -/
def Stylesheet.scope (scope : String) (s : Stylesheet) : Except SelectorError Stylesheet :=
  (s.scoped scope).toExcept

/-- The text of a stylesheet, scoped. -/
def scopeCss (scope css : String) : Except CssError String := do
  let sheet ← parse css
  return (← (sheet.scope scope).mapError .selector).print

end ComponentCompiler.Style
