import ComponentCompiler.Proofs.Style.Reading

/-!
# Reading what was printed

A stylesheet whose texts are closed is legible, so it is read back from what is printed, less its
comments.

## Main definitions

* `Node.Printable`, `Stylesheet.Printable` — the trees that printing can be undone for.

## Main results

* `parse_print` — reading undoes printing.
-/

namespace ComponentCompiler.Style

open Text (trim)

/-! ### Printable stylesheets -/

mutual

/-- A node with texts that can be read back. -/
def Node.Printable : Node → Prop
  | .rule ss body =>
      (∀ s ∈ ss, SelectorText s.toList) ∧ (∀ s ∈ ss.head?, s.toList.head? ≠ some '@') ∧
        Item.PrintableAll body
  | .group name prelude body =>
      NameText name ∧ isGroupName name = true ∧ SheetText prelude.toList ∧ Item.PrintableAll body
  | .atRule name prelude none => NameText name ∧ SheetText prelude.toList
  | .atRule name prelude (some block) =>
      NameText name ∧ isGroupName name = false ∧ SheetText prelude.toList ∧ RawText block.toList
  | .comment _ => True

/-- Items with texts that can be read back. -/
def Item.PrintableAll : List Item → Prop
  | [] => True
  | .declaration p v :: is => PropertyText p.toList ∧ SheetText v.toList ∧ Item.PrintableAll is
  | .nested n :: is => n.Printable ∧ Item.PrintableAll is
  | .comment _ :: is => Item.PrintableAll is

end

/-- A stylesheet with texts that can be read back. -/
def Stylesheet.Printable (s : Stylesheet) : Prop := ∀ n ∈ s.rules, n.Printable

mutual

/-- Whether a node has texts that can be read back. -/
def Node.decidePrintable : (n : Node) → Decidable n.Printable
  | .rule _ body =>
      have := Item.decidePrintableAll body
      inferInstanceAs (Decidable (_ ∧ _ ∧ _))
  | .group _ _ body =>
      have := Item.decidePrintableAll body
      inferInstanceAs (Decidable (_ ∧ _ ∧ _ ∧ _))
  | .atRule _ _ none => inferInstanceAs (Decidable (_ ∧ _))
  | .atRule _ _ (some _) => inferInstanceAs (Decidable (_ ∧ _ ∧ _ ∧ _))
  | .comment _ => inferInstanceAs (Decidable True)

/-- Whether items have texts that can be read back. -/
def Item.decidePrintableAll : (is : List Item) → Decidable (Item.PrintableAll is)
  | [] => inferInstanceAs (Decidable True)
  | .declaration _ _ :: is =>
      have := Item.decidePrintableAll is
      inferInstanceAs (Decidable (_ ∧ _ ∧ _))
  | .nested n :: is =>
      have := n.decidePrintable
      have := Item.decidePrintableAll is
      inferInstanceAs (Decidable (_ ∧ _))
  | .comment _ :: is => Item.decidePrintableAll is

end

instance (n : Node) : Decidable n.Printable := n.decidePrintable

instance (s : Stylesheet) : Decidable s.Printable :=
  inferInstanceAs (Decidable (∀ n ∈ s.rules, n.Printable))

/-! ### Printable stylesheets are legible -/

theorem SheetText.preludeText {cs : List Char} (h : SheetText cs) : PreludeText cs :=
  ⟨h.trimmed, h.closed.held.mono fun _ => Piece.isWhole_of_isPlain⟩

mutual

theorem legible_of_printable : ∀ (n : Node), n.Printable → n.Legible
  | .rule ss body, ⟨hss, hat, hbody⟩ => by
    have hlike := fun s hs => (hss s hs).selectorLike
    have hkept := stripComments_of_closed (closed_printSelectors hss)
    exact ⟨headText_printSelectors hlike hat, splitSelectors_printSelectors hlike hkept,
      legibleAll_of_printable body hbody⟩
  | .group _ _ body, ⟨hname, hgroup, hprelude, hbody⟩ =>
    ⟨hname, hgroup, hprelude.preludeText, legibleAll_of_printable body hbody⟩
  | .atRule _ _ none, ⟨hname, hprelude⟩ => ⟨hname, hprelude.preludeText⟩
  | .atRule _ _ (some _), ⟨hname, hgroup, hprelude, hblock⟩ =>
    ⟨hname, hgroup, hprelude.preludeText, hblock⟩
  | .comment _, _ => trivial

theorem legibleAll_of_printable : ∀ (is : List Item), Item.PrintableAll is → Item.LegibleAll is
  | [], _ => trivial
  | .declaration p v :: is, ⟨hp, hv, his⟩ => by
    have hclosed := closed_printDeclaration hp hv
    have hheld := hclosed.held.mono fun _ => Piece.isClean_of_isPlain
    have hkept := stripComments_of_closed hclosed
    exact ⟨headText_printDeclaration hheld hp.trimmed hp.atFree,
      declaration?_printDeclaration hkept hp.colonFree hp.trimmed hv.trimmed,
      legibleAll_of_printable is his⟩
  | .nested n :: is, ⟨hn, his⟩ => ⟨legible_of_printable n hn, legibleAll_of_printable is his⟩
  | .comment _ :: is, his => legibleAll_of_printable is his

end

/-- Reading a printed stylesheet ends between items, outside every block. -/
theorem finish_read_print {s : Stylesheet} (h : s.Printable) :
    (Reader.read {} s.print.toList).bind Reader.finish = .ok s.withoutComments :=
  parse_print_of_legible fun n hn => legible_of_printable n (h n hn)

/-- **Reading undoes printing**: the stylesheet comes back without its comments. -/
theorem parse_print {s : Stylesheet} (h : s.Printable) :
    parse s.print = .ok s.withoutComments := by
  rw [Reader.parse_eq_read, finish_read_print h]

/-- Rules in a group in a rule, with braces, colons and commas where they are no structure. -/
def nestedSheet : Stylesheet :=
  ⟨[.comment " top ",
    .atRule "layer" "base, theme" none,
    .rule ["a:is(b, c)", "[title=\"x;\x7d\"]"]
      [.declaration "--x" "url(a;b)", .comment " kept? ", .declaration "color" "red",
       .nested (.group "MEDIA" "(min-width: 1px)"
         [.declaration "top" "0", .nested (.comment " deep "), .nested (.rule ["p"] [])]),
       .declaration "content" "\"\\\"\x7b\""],
    .atRule "font-face" "" (some "a\x7bb\x7d \"\x7d\" /* \x7d */ c")]⟩

theorem parse_print_nestedSheet :
    nestedSheet.Printable ∧ parse nestedSheet.print = .ok nestedSheet.withoutComments := by
  have h : nestedSheet.Printable := by decide +kernel
  exact ⟨h, parse_print h⟩

end ComponentCompiler.Style
