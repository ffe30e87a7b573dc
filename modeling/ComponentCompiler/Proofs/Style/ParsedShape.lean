import ComponentCompiler.Proofs.Style.FaultPlace
import ComponentCompiler.Proofs.Style.ScopePoint
import ComponentCompiler.Proofs.Style.ScopeTree

/-!
# What parsed stylesheets look like

Every text in a parsed stylesheet was trimmed when it was put there, a property ends in front of its
first colon, a comment in front of its closing mark, and the name behind an at-sign where a
character stands that is none of a name.  Whether a rule with an at-sign and a block is a group is
decided by its name alone.

So no selector of a parsed stylesheet is empty, and scoping one never fails for that reason.

## Main definitions

* `Trimmed` — texts without blanks at their ends.
* `Node.Shaped`, `Item.Shaped` — what nodes and items of parsed stylesheets look like.
* `Node.atBlock?` — the name behind the at-sign of a node that has a block.

## Main results

* `shaped_of_scanned` — a node whose texts come from the text that was read is shaped.
* `parsed_nodes_shaped` — the nodes of a parsed stylesheet at every depth, and that scoping a text
  never meets an empty selector.
-/

namespace ComponentCompiler.Style

open Text (trim isBlank)

/-! ### Shapes -/

/-- A text without blanks at its ends. -/
def Trimmed (s : String) : Prop :=
  (∀ c ∈ s.toList.head?, isBlank c = false) ∧ ∀ c ∈ s.toList.getLast?, isBlank c = false

/-- A text that can stand in a comment: it does not hold the closing mark. -/
def CommentText (s : String) : Prop := ¬ ['*', '/'] <:+: s.toList

/-- What an item of a parsed stylesheet looks like. -/
def Item.Shaped : Item → Prop
  | .declaration property value => Trimmed property ∧ ':' ∉ property.toList ∧ Trimmed value
  | .nested n => ∀ text, n ≠ .comment text
  | .comment text => CommentText text

/-- What a node of a parsed stylesheet looks like, apart from the nodes in it. -/
def Node.Shaped : Node → Prop
  | .rule ss body => (∀ s ∈ ss, s ≠ "" ∧ Trimmed s) ∧ ∀ i ∈ body, i.Shaped
  | .group name condition body => NameText name ∧ Trimmed condition ∧ ∀ i ∈ body, i.Shaped
  | .atRule name condition block => NameText name ∧ Trimmed condition ∧ ∀ b ∈ block, Trimmed b
  | .comment text => CommentText text

/-- The name behind the at-sign of a node that has a block. -/
def Node.atBlock? : Node → Option String
  | .group name _ _ => some name
  | .atRule name _ (some _) => some name
  | _ => none

/-! ### Texts -/

theorem trimmed_iff {s : String} : Trimmed s ↔ trim s.toList = s.toList :=
  (Text.trim_eq_self_iff s.toList).symm

theorem trimmed_of_trim {s : String} {cs : List Char} (h : trim cs = s.toList) : Trimmed s := by
  rw [trimmed_iff, ← h, Text.trim_trim]

theorem commentText_of_mem {cs : List Char} {text : String}
    (h : .comment text.toList ∈ pieces cs) : CommentText text :=
  not_mark_of_isCommentBody (wellFormed_piecesFrom .outside cs trivial _ h rfl)

/-- The selectors in front of a block are trimmed, and none is empty. -/
theorem shaped_of_mem_splitSelectors {cs : List Char} {s : String} (h : s ∈ splitSelectors cs) :
    s ≠ "" ∧ Trimmed s := by
  have hkept : s.toList ∈ keptSelectors (cutSelectors none 0 [] (stripComments cs)) := by
    rw [← map_toList_splitSelectors]
    exact List.mem_map_of_mem h
  obtain ⟨hmem, hne⟩ := List.mem_filter.1 hkept
  obtain ⟨ds, -, hds⟩ := List.mem_map.1 hmem
  refine ⟨?_, trimmed_of_trim hds⟩
  rintro rfl
  cases hne

theorem shaped_declaration {cs : List Char} {property value : String}
    (h : declaration? cs = some (.declaration property value)) :
    (Item.declaration property value).Shaped := by
  obtain ⟨s, t, -, hcolon, hproperty, hvalue⟩ := declaration?_eq_some h
  refine ⟨trimmed_of_trim hproperty.symm, fun hmem => hcolon ?_, trimmed_of_trim hvalue.symm⟩
  rw [hproperty] at hmem
  exact Text.mem_of_mem_trim hmem

/-! ### Nodes -/

theorem scanned_of_reaches {all : List Piece} {n m : Node} (hm : n.Reaches m)
    (h : n.Scanned all) : m.Scanned all := by
  induction hm with
  | refl n => exact h
  | rule hn _ ih => exact ih (scannedAll_iff.1 h.2 _ hn).2.1
  | group hn _ ih => exact ih (scannedAll_iff.1 h.2.2.2 _ hn).2.1

theorem shaped_of_scannedAll {cs : List Char} {is : List Item}
    (h : Item.ScannedAll (pieces cs) is) : ∀ i ∈ is, i.Shaped := by
  intro i hi
  have hscanned := scannedAll_iff.1 h i hi
  cases i with
  | declaration property value =>
    obtain ⟨qs, -, hread⟩ := hscanned.1
    exact shaped_declaration hread
  | nested n => exact hscanned.1
  | comment text => exact commentText_of_mem hscanned.1

/-- A node whose texts come from the text that was read is shaped. -/
theorem shaped_of_scanned {cs : List Char} {n : Node} (h : n.Scanned (pieces cs)) : n.Shaped := by
  cases n with
  | rule ss body =>
    obtain ⟨⟨qs, -, rfl⟩, hbody⟩ := h
    exact ⟨fun s hs => shaped_of_mem_splitSelectors hs, shaped_of_scannedAll hbody⟩
  | group name condition body =>
    obtain ⟨hname, -, ⟨qs, -, htrim⟩, hbody⟩ := h
    exact ⟨hname, trimmed_of_trim htrim, shaped_of_scannedAll hbody⟩
  | atRule name condition block =>
    cases block with
    | none =>
      obtain ⟨hname, depth, qs, -, htrim⟩ := h
      exact ⟨hname, trimmed_of_trim htrim, by simp⟩
    | some block =>
      obtain ⟨hname, -, ⟨qs, -, htrim⟩, rs, -, hblock⟩ := h
      refine ⟨hname, trimmed_of_trim htrim, ?_⟩
      rintro b ⟨⟩
      exact trimmed_of_trim hblock
  | comment text => exact commentText_of_mem h

/-- A node with an at-sign and a block is a group just when its name is one of a group. -/
theorem group_iff_of_scanned {all : List Piece} {n : Node} (h : n.Scanned all) :
    (∃ name condition body, n = .group name condition body) ↔
      ∃ name, n.atBlock? = some name ∧ isGroupName name = true := by
  cases n with
  | rule ss body => simp [Node.atBlock?]
  | group name condition body => simpa [Node.atBlock?] using h.2.1
  | atRule name condition block =>
    cases block with
    | none => simp [Node.atBlock?]
    | some block => simpa [Node.atBlock?] using h.2.1
  | comment text => simp [Node.atBlock?]

/-! ### Scoping -/

theorem tokenize_ne_empty (selector : String) : tokenize selector ≠ .error .empty := by
  unfold tokenize
  cases components selector.toList with
  | ok ks => simp [Except.mapError]
  | error e => cases e <;> simp [Except.mapError, ComponentFault.toError]

/-- A selector that is trimmed and not empty is not found empty. -/
theorem scopeSelector_ne_empty {s : String} (hne : s ≠ "") (h : Trimmed s) (scope : String) :
    scopeSelector scope s ≠ .error .empty := by
  rw [Ne, scopeSelector_eq_error_iff, trimmed_iff.1 h]
  rintro (⟨hnil, -⟩ | herror)
  · exact hne (String.toList_eq_nil_iff.1 hnil)
  · exact tokenize_ne_empty _ herror

/-- Scoping a text fails because the text is no stylesheet, or because the stylesheet cannot be
scoped. -/
theorem scopeCss_eq_error {scope css : String} {e : CssError} (h : scopeCss scope css = .error e) :
    parse css = .error e ∨
      ∃ sheet e', parse css = .ok sheet ∧ sheet.scope scope = .error e' ∧ e = .selector e' := by
  unfold scopeCss at h
  cases hparse : parse css with
  | error e' =>
    rw [hparse] at h
    obtain rfl : e' = e := Except.error.inj h
    exact .inl rfl
  | ok sheet =>
    rw [hparse] at h
    simp only [bind, Except.bind] at h
    cases hscope : sheet.scope scope with
    | error e' =>
      rw [hscope] at h
      exact .inr ⟨sheet, e', rfl, hscope, (Except.error.inj h).symm⟩
    | ok sheet' =>
      rw [hscope] at h
      cases h

/-- **The nodes of a parsed stylesheet, at every depth.**  Selectors are not empty; neither they nor
properties, values, conditions and blocks that are kept as they are written have blanks at their
ends; no property holds a colon; the names behind at-signs are made of the characters of names; a
node with an at-sign and a block is a group just when its name is one of a group; no comment holds
its closing mark, and no nested node is a comment.  So a text is never found to have an empty
selector when it is scoped. -/
theorem parsed_nodes_shaped (css : String) :
    (∀ sheet, parse css = .ok sheet → ∀ n ∈ sheet.rules, ∀ m, n.Reaches m →
      m.Shaped ∧ ((∃ name condition body, m = .group name condition body) ↔
        ∃ name, m.atBlock? = some name ∧ isGroupName name = true)) ∧
      ∀ scope, scopeCss scope css ≠ .error (.selector .empty) := by
  have hscanned : ∀ sheet, parse css = .ok sheet → ∀ n ∈ sheet.rules, ∀ m, n.Reaches m →
      m.Scanned (pieces css.toList) :=
    fun sheet hparse n hn m hm => scanned_of_reaches hm (scanned_of_parse hparse n hn)
  refine ⟨fun sheet hparse n hn m hm => ?_, fun scope hempty => ?_⟩
  · have hm := hscanned sheet hparse n hn m hm
    exact ⟨shaped_of_scanned hm, group_iff_of_scanned hm⟩
  · rcases scopeCss_eq_error hempty with hparse | ⟨sheet, e, hparse, hscope, he⟩
    · -- what is wrong with the text itself is never a selector
      obtain ⟨f, before, after, hfault, -⟩ := cause_of_parse hparse
      cases hfault
    · obtain rfl := CssError.selector.inj he
      rw [scope_eq_error_iff, error_scoped_stylesheet] at hscope
      obtain ⟨sel, hmem, hsel⟩ := List.exists_of_findSome?_eq_some hscope
      obtain ⟨n, hn, ss, body, hreach, hmem⟩ := mem_selectors_iff.1 hmem
      have hshaped := shaped_of_scanned (hscanned sheet hparse n hn _ hreach)
      obtain ⟨hne, htrimmed⟩ := hshaped.1 sel hmem
      exact scopeSelector_ne_empty hne htrimmed scope (selectorFault?_eq_some.1 hsel)

/-- Blanks of all kinds, an empty selector, and a group in capitals with a rule and a block that is
kept as it is written. -/
def blankCss : String :=
  "@MEDIA \u3000p \x7b ,\u00a0a\u2003,\x7b b : c:d ;/* e **/ @f g\x7b h \x7b \x7d \x7d \x7d \x7d"

theorem parsed_nodes_shaped_blankCss :
    parse blankCss = .ok ⟨[.group "MEDIA" "p" [.nested (.rule ["a"] [.declaration "b" "c:d",
        .comment " e *", .nested (.atRule "f" "g" (some "h \x7b \x7d"))])]]⟩ ∧
      Trimmed "a" ∧ isGroupName "MEDIA" = true ∧
      (Node.atRule "f" "g" (some "h \x7b \x7d")).Shaped ∧
      scopeCss "v" blankCss ≠ .error (.selector .empty) := by
  have hparse : parse blankCss = .ok ⟨[.group "MEDIA" "p" [.nested (.rule ["a"]
      [.declaration "b" "c:d", .comment " e *",
        .nested (.atRule "f" "g" (some "h \x7b \x7d"))])]]⟩ := by
    decide +kernel
  obtain ⟨hshaped, hscope⟩ := parsed_nodes_shaped blankCss
  have hnodes := hshaped _ hparse _ List.mem_cons_self
  obtain ⟨name, hname, hmedia⟩ := (hnodes _ (.refl _)).2.1 ⟨_, _, _, rfl⟩
  obtain rfl := Option.some.inj hname
  have hrule := (hnodes _ (.group List.mem_cons_self (.refl _))).1
  have hraw : (Node.atRule "f" "g" (some "h \x7b \x7d")).Shaped :=
    (hnodes _ (.group List.mem_cons_self (.rule (by simp) (.refl _)))).1
  exact ⟨hparse, (hrule.1 "a" List.mem_cons_self).2, hmedia, hraw, hscope "v"⟩

end ComponentCompiler.Style
