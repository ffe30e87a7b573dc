import ComponentCompiler.Proofs.Style.Scope

/-!
# Scoping a tree, selector by selector

Scoping works through a tree and stops at the first selector that cannot be taken apart.  How it
ends is therefore decided by the row of selectors alone, in the order in which they stand in the
tree: those of a rule come before those of the rules nested in it.  Groups and rules are gone
through alike, and nothing else in the tree matters.

## Main definitions

* `Node.Reaches n m` — the node `m` is `n`, or stands in a body below it.
* `selectorFault?` — why a selector cannot be scoped.

## Main results

* `mem_selectors_iff` — the selectors of a tree are those of the rules that are reached in it.
* `error_scoped` — scoping a tree ends with the first fault in its row of selectors.
* `scope_only_selectors` — when scoping succeeds, what it changes, and with which error it fails.
-/

namespace ComponentCompiler.Style

/-! ### Rules at every depth -/

/-- A node reaches itself and what the nodes in its body reach. -/
inductive Node.Reaches : Node → Node → Prop
  /-- The node itself. -/
  | refl (n : Node) : Reaches n n
  /-- Through the body of a rule. -/
  | rule {ss : List String} {body : List Item} {n m : Node} (hn : .nested n ∈ body)
      (hm : Reaches n m) : Reaches (.rule ss body) m
  /-- Through the body of a group. -/
  | group {name condition : String} {body : List Item} {n m : Node} (hn : .nested n ∈ body)
      (hm : Reaches n m) : Reaches (.group name condition body) m

theorem mem_selectorsAll {is : List Item} {s : String} :
    s ∈ Item.selectorsAll is ↔ ∃ n, .nested n ∈ is ∧ s ∈ n.selectors := by
  induction is with
  | nil => simp [Item.selectorsAll]
  | cons i is ih =>
    cases i with
    | nested m => simp [Item.selectorsAll, ih, or_and_right, exists_or]
    | declaration p v => simp [Item.selectorsAll, ih]
    | comment text => simp [Item.selectorsAll, ih]

theorem mem_selectors_of_reaches {n : Node} {ss : List String} {body : List Item}
    (h : n.Reaches (.rule ss body)) {s : String} (hs : s ∈ ss) : s ∈ n.selectors := by
  generalize hm : Node.rule ss body = m at h
  induction h with
  | refl n =>
    rw [← hm]
    exact List.mem_append_left _ hs
  | rule hn _ ih => exact List.mem_append_right _ (mem_selectorsAll.2 ⟨_, hn, ih hm⟩)
  | group hn _ ih => exact mem_selectorsAll.2 ⟨_, hn, ih hm⟩

mutual

theorem exists_reaches_of_mem {s : String} : ∀ {n : Node}, s ∈ n.selectors →
    ∃ ss body, n.Reaches (.rule ss body) ∧ s ∈ ss
  | .rule ss body, h => by
    rcases List.mem_append.1 h with hs | hs
    · exact ⟨ss, body, .refl _, hs⟩
    · obtain ⟨m, hm, ss', body', hreach, hs'⟩ := exists_reaches_of_memAll body hs
      exact ⟨ss', body', .rule hm hreach, hs'⟩
  | .group _ _ body, h => by
    obtain ⟨m, hm, ss', body', hreach, hs'⟩ := exists_reaches_of_memAll body h
    exact ⟨ss', body', .group hm hreach, hs'⟩
  | .atRule _ _ _, h => by cases h
  | .comment _, h => by cases h

theorem exists_reaches_of_memAll {s : String} : ∀ (is : List Item), s ∈ Item.selectorsAll is →
    ∃ n, .nested n ∈ is ∧ ∃ ss body, n.Reaches (.rule ss body) ∧ s ∈ ss
  | [], h => by cases h
  | .nested m :: is, h => by
    rcases List.mem_append.1 h with hs | hs
    · exact ⟨m, List.mem_cons_self, exists_reaches_of_mem hs⟩
    · obtain ⟨n, hn, hrule⟩ := exists_reaches_of_memAll is hs
      exact ⟨n, List.mem_cons_of_mem _ hn, hrule⟩
  | .declaration _ _ :: is, h => by
    obtain ⟨n, hn, hrule⟩ := exists_reaches_of_memAll is h
    exact ⟨n, List.mem_cons_of_mem _ hn, hrule⟩
  | .comment _ :: is, h => by
    obtain ⟨n, hn, hrule⟩ := exists_reaches_of_memAll is h
    exact ⟨n, List.mem_cons_of_mem _ hn, hrule⟩

end

/-- The selectors of a stylesheet are those of the rules that are reached in it. -/
theorem mem_selectors_iff {s : Stylesheet} {sel : String} :
    sel ∈ s.selectors ↔ ∃ n ∈ s.rules, ∃ ss body, n.Reaches (.rule ss body) ∧ sel ∈ ss := by
  rw [Stylesheet.selectors, List.mem_flatMap]
  constructor
  · rintro ⟨n, hn, hsel⟩
    exact ⟨n, hn, exists_reaches_of_mem hsel⟩
  · rintro ⟨n, hn, ss, body, hreach, hsel⟩
    exact ⟨n, hn, mem_selectors_of_reaches hreach hsel⟩

/-! ### The first fault -/

/-- Why a selector cannot be scoped, if it cannot. -/
def selectorFault? (scope s : String) : Option SelectorError := (scopedSelector scope s).error

theorem selectorFault?_eq_none {scope s : String} :
    selectorFault? scope s = none ↔ ∃ t, scopeSelector scope s = .ok t := by
  unfold selectorFault? scopedSelector
  cases scopeSelector scope s <;> simp

theorem selectorFault?_eq_some {scope s : String} {e : SelectorError} :
    selectorFault? scope s = some e ↔ scopeSelector scope s = .error e := by
  unfold selectorFault? scopedSelector
  cases scopeSelector scope s <;> simp

/-- Work on two values ends with the error of the first, or else with that of the second. -/
theorem Progress.error_both {α β γ : Type} (g : α → β → γ) (p : Progress α) (b : β)
    (q : Progress β) : (p.both g b q).error = p.error.or q.error := by
  unfold both
  cases p.error <;> rfl

theorem error_scopedSelectors (scope : String) (ss : List String) :
    (scopedSelectors scope ss).error = ss.findSome? (selectorFault? scope) := by
  induction ss with
  | nil => rfl
  | cons s ss ih =>
    rw [scopedSelectors, Progress.error_both, ih, List.findSome?_cons]
    change (selectorFault? scope s).or _ = _
    cases selectorFault? scope s <;> rfl

mutual

/-- Work on a node ends with the first fault in its row of selectors. -/
theorem error_scoped (scope : String) : ∀ n : Node,
    (n.scoped scope).error = n.selectors.findSome? (selectorFault? scope)
  | .rule ss body => by
    rw [Node.scoped, Progress.error_both, error_scopedSelectors, error_scopedAll scope body,
      Node.selectors, List.findSome?_append]
  | .group _ _ body => error_scopedAll scope body
  | .atRule _ _ _ => rfl
  | .comment _ => rfl

theorem error_scopedAll (scope : String) : ∀ is : List Item,
    (Item.scopedAll scope is).error = (Item.selectorsAll is).findSome? (selectorFault? scope)
  | [] => rfl
  | .nested n :: is => by
    rw [Item.scopedAll, Progress.error_both, error_scopedAll scope is, Item.selectorsAll,
      List.findSome?_append, ← error_scoped scope n]
    rfl
  | .declaration _ _ :: is => error_scopedAll scope is
  | .comment _ :: is => error_scopedAll scope is

end

/-- Work on a stylesheet ends with the first fault in its row of selectors. -/
theorem error_scoped_stylesheet (scope : String) (s : Stylesheet) :
    (s.scoped scope).error = s.selectors.findSome? (selectorFault? scope) := by
  have hnodes : ∀ ns : List Node, (Node.scopedAll scope ns).error
      = (ns.flatMap Node.selectors).findSome? (selectorFault? scope) := by
    intro ns
    induction ns with
    | nil => rfl
    | cons n ns ih =>
      rw [Node.scopedAll, Progress.error_both, error_scoped, ih, List.flatMap_cons,
        List.findSome?_append]
  exact hnodes s.rules

theorem scope_eq_error_iff {scope : String} {s : Stylesheet} {e : SelectorError} :
    s.scope scope = .error e ↔ (s.scoped scope).error = some e := by
  unfold Stylesheet.scope Progress.toExcept
  cases (s.scoped scope).error <;> simp

theorem exists_scope_eq_ok_iff {scope : String} {s : Stylesheet} :
    (∃ s', s.scope scope = .ok s') ↔ (s.scoped scope).error = none := by
  unfold Stylesheet.scope Progress.toExcept
  cases (s.scoped scope).error <;> simp

/-! ### What scoping does to a tree -/

/-- **Scoping touches selectors only.**  It succeeds exactly when every selector of every rule that
is reached through the bodies of rules and groups can be scoped.  Then each of them stands scoped in
its place, in a tree that is otherwise the same.  When it fails, the error is that of the first
selector in the row of all selectors which cannot be scoped. -/
theorem scope_only_selectors (scope : String) (s : Stylesheet) :
    ((∃ s', s.scope scope = .ok s') ↔
        ∀ n ∈ s.rules, ∀ ss body, n.Reaches (.rule ss body) →
          ∀ sel ∈ ss, ∃ t, scopeSelector scope sel = .ok t) ∧
      (∀ s', s.scope scope = .ok s' → ∃ f : String → String,
        (∀ sel ∈ s.selectors, scopeSelector scope sel = .ok (f sel)) ∧ s' = s.mapSelectors f) ∧
      ∀ e, s.scope scope = .error e → ∃ before sel behind,
        s.selectors = before ++ sel :: behind ∧
          (∀ t ∈ before, ∃ t', scopeSelector scope t = .ok t') ∧
          scopeSelector scope sel = .error e := by
  refine ⟨?_, fun s' hs' => ?_, fun e he => ?_⟩
  · rw [exists_scope_eq_ok_iff, error_scoped_stylesheet, List.findSome?_eq_none_iff]
    simp only [selectorFault?_eq_none]
    constructor
    · intro h n hn ss body hreach sel hsel
      exact h sel (mem_selectors_iff.2 ⟨n, hn, ss, body, hreach, hsel⟩)
    · intro h sel hsel
      obtain ⟨n, hn, ss, body, hreach, hsel⟩ := mem_selectors_iff.1 hsel
      exact h n hn ss body hreach sel hsel
  · obtain ⟨hvalue, hf⟩ := scope_eq_mapSelectors hs'
    exact ⟨scopedForm scope, hf, hvalue⟩
  · rw [scope_eq_error_iff, error_scoped_stylesheet, List.findSome?_eq_some_iff] at he
    obtain ⟨before, sel, behind, hrow, hsel, hbefore⟩ := he
    exact ⟨before, sel, behind, hrow, fun t ht => selectorFault?_eq_none.1 (hbefore t ht),
      selectorFault?_eq_some.1 hsel⟩

/-- A rule in a rule in a group, with faults before, in and behind the innermost one. -/
def faultySheet : Stylesheet :=
  ⟨[.comment "b[",
    .atRule "keyframes" "x" (some "to] \x7b\x7d"),
    .group "media" "p" [.nested (.rule ["a:b"] [.declaration "m[" "0", .nested (.rule ["c", "d]"]
      [.nested (.rule ["e("] [])])])],
    .rule ["f)"] []]⟩

theorem scope_only_selectors_faultySheet :
    faultySheet.scope "v" = .error (.unbalanced '[' "d]") ∧
      ∃ before sel behind, faultySheet.selectors = before ++ sel :: behind ∧
        (∀ t ∈ before, ∃ t', scopeSelector "v" t = .ok t') ∧
        scopeSelector "v" sel = .error (.unbalanced '[' "d]") := by
  have h : faultySheet.scope "v" = .error (.unbalanced '[' "d]") := by decide +kernel
  exact ⟨h, (scope_only_selectors "v" faultySheet).2.2 _ h⟩

end ComponentCompiler.Style
