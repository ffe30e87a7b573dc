import ComponentCompiler.Proofs.Style.Excerpt

/-!
# Printing what was read

A stylesheet that was read is printed and read again.  Printing it without its comments gives the
same text.  Reading the text again gives the same stylesheet, less its comments, unless one of the
following happened when the sheet was first read.

* Removing the comments in the head of a rule or a declaration left one or took away something else,
  since a quote or a slash was taken for the start of a string or a comment although a backslash
  stood in front of it; or it brought a slash and an asterisk together.  `Steady` excludes these.
* Trimming cut an escape in half and left a backslash at the end of a text, an empty selector or a
  blank that is not skipped between items stood in front of an at-sign, or the text ended inside a
  bracket.  `Stylesheet.Unbroken` excludes these.

Any of them can change what is read the second time.

## Main definitions

* `Stylesheet.Unbroken` — each text in a stylesheet ends where it should when it is printed, and no
  rule and no declaration starts with an at-sign.

## Main results

* `legible_of_scanned` — the nodes that were read are legible.
* `parse_print_of_parse` — reading again what was read and printed.
-/

namespace ComponentCompiler.Style

/-! ### Unbroken stylesheets -/

/-- A text behind which no bracket is open. -/
def BracketsMatch (cs : List Char) : Prop := depthAfter isItemEnd 0 (pieces cs) = some 0

instance (cs : List Char) : Decidable (BracketsMatch cs) := inferInstanceAs (Decidable (_ = _))

mutual

/-- Each text in a node ends where it should when it is printed, and no rule and no declaration in
it starts with an at-sign. -/
def Node.Unbroken : Node → Prop
  | .rule ss body =>
      (∀ s ∈ ss, Firm s.toList) ∧ (∀ s ∈ ss.head?, s.toList.head? ≠ some '@') ∧
        Item.UnbrokenAll body
  | .group _ condition body => Firm condition.toList ∧ Item.UnbrokenAll body
  | .atRule _ condition none => Firm condition.toList ∧ BracketsMatch condition.toList
  | .atRule _ condition (some block) => Firm condition.toList ∧ Firm block.toList
  | .comment _ => True

/-- The same of items. -/
def Item.UnbrokenAll : List Item → Prop
  | [] => True
  | .declaration p v :: is =>
      Firm (printDeclaration p v) ∧ p.toList.head? ≠ some '@' ∧ Item.UnbrokenAll is
  | .nested n :: is => n.Unbroken ∧ Item.UnbrokenAll is
  | .comment _ :: is => Item.UnbrokenAll is

end

/-- Each text in a stylesheet ends where it should when it is printed, and no rule and no
declaration starts with an at-sign. -/
def Stylesheet.Unbroken (s : Stylesheet) : Prop := ∀ n ∈ s.rules, n.Unbroken

mutual

/-- Whether a node is unbroken. -/
def Node.decideUnbroken : (n : Node) → Decidable n.Unbroken
  | .rule _ body =>
      have := Item.decideUnbrokenAll body
      inferInstanceAs (Decidable (_ ∧ _ ∧ _))
  | .group _ _ body =>
      have := Item.decideUnbrokenAll body
      inferInstanceAs (Decidable (_ ∧ _))
  | .atRule _ _ none => inferInstanceAs (Decidable (_ ∧ _))
  | .atRule _ _ (some _) => inferInstanceAs (Decidable (_ ∧ _))
  | .comment _ => inferInstanceAs (Decidable True)

/-- Whether items are unbroken. -/
def Item.decideUnbrokenAll : (is : List Item) → Decidable (Item.UnbrokenAll is)
  | [] => inferInstanceAs (Decidable True)
  | .declaration _ _ :: is =>
      have := Item.decideUnbrokenAll is
      inferInstanceAs (Decidable (_ ∧ _ ∧ _))
  | .nested n :: is =>
      have := n.decideUnbroken
      have := Item.decideUnbrokenAll is
      inferInstanceAs (Decidable (_ ∧ _))
  | .comment _ :: is => Item.decideUnbrokenAll is

end

instance (n : Node) : Decidable n.Unbroken := n.decideUnbroken

instance (s : Stylesheet) : Decidable s.Unbroken :=
  inferInstanceAs (Decidable (∀ n ∈ s.rules, n.Unbroken))

/-! ### What was read is legible -/

section Legible

variable {cs : List Char} (hopen : ∀ p ∈ pieces cs, p.isOpen = false)

include hopen

theorem preludeText_of_gathered {depth : Nat} {qs : List Piece}
    (hqs : Gathered (pieces cs) depth qs) {text : String} (htext : TrimmedFrom qs text)
    (hfirm : Firm text.toList) (hmatch : depth = 0 ∨ BracketsMatch text.toList) :
    PreludeText text.toList := by
  rw [BracketsMatch, ← htext] at hmatch
  rw [← htext] at hfirm ⊢
  have hfit := fitting_of_firm hqs.within (fun p hp => hopen p (hqs.within.subset hp)) hfirm
  refine preludeText_trim hfit hfirm (hmatch.elim ?_ id)
  rintro rfl
  rw [depthAfter_trim hfit hfirm, hqs.balanced]

theorem rawText_of_gathered {rs : List Piece} (hrs : GatheredRaw (pieces cs) rs) {text : String}
    (htext : TrimmedFrom rs text) (hfirm : Firm text.toList) : RawText text.toList := by
  rw [← htext] at hfirm ⊢
  have hfit := fitting_of_firm hrs.within (fun p hp => hopen p (hrs.within.subset hp)) hfirm
  exact rawText_trim hfit hfirm hrs.closing

end Legible

theorem legible_selectors {cs : List Char} (hsteady : Steady (pieces cs)) {qs : List Piece}
    {ss : List String} (h : SelectsIn (pieces cs) qs ss) (hfirm : ∀ s ∈ ss, Firm s.toList)
    (hat : ∀ s ∈ ss.head?, s.toList.head? ≠ some '@') :
    HeadText (printSelectors ss) ∧ splitSelectors (printSelectors ss) = ss := by
  obtain ⟨hqs, rfl⟩ := h
  have hseparable := hsteady qs hqs
  have hlike := fun s hs => selectorLike_of_mem_splitSelectors hqs.fitting hseparable
    hqs.itemHead.balanced s hs (hfirm s hs)
  have hkept := stripComments_printSelectors (by rw [hseparable.removed, hseparable.kept])
  exact ⟨headText_printSelectors hlike hat, splitSelectors_printSelectors hlike hkept⟩

mutual

/-- The nodes that were read are legible. -/
theorem legible_of_scanned {cs : List Char} (hopen : ∀ p ∈ pieces cs, p.isOpen = false)
    (hsteady : Steady (pieces cs)) :
    ∀ (n : Node), n.Scanned (pieces cs) → n.Unbroken → n.Legible
  | .rule _ body, ⟨⟨_, hss⟩, hbody⟩, ⟨hfirm, hat, hunbroken⟩ => by
    have hselectors := legible_selectors hsteady hss hfirm hat
    exact ⟨hselectors.1, hselectors.2, legibleAll_of_scanned hopen hsteady body hbody hunbroken⟩
  | .group _ _ body, ⟨hname, hgroup, ⟨_, hqs, htext⟩, hbody⟩, ⟨hfirm, hunbroken⟩ =>
    ⟨hname, hgroup, preludeText_of_gathered hopen hqs htext hfirm (.inl rfl),
      legibleAll_of_scanned hopen hsteady body hbody hunbroken⟩
  | .atRule _ _ none, ⟨hname, _, _, hqs, htext⟩, ⟨hfirm, hmatch⟩ =>
    -- a bracket may be open behind the rule if the end of the text ended it
    ⟨hname, preludeText_of_gathered hopen hqs htext hfirm (.inr hmatch)⟩
  | .atRule _ _ (some _), ⟨hname, hgroup, ⟨_, hqs, htext⟩, _, hrs, hblock⟩, ⟨hfirm, hfirmBlock⟩ =>
    ⟨hname, hgroup, preludeText_of_gathered hopen hqs htext hfirm (.inl rfl),
      rawText_of_gathered hopen hrs hblock hfirmBlock⟩
  | .comment _, _, _ => trivial

/-- The items that were read are legible. -/
theorem legibleAll_of_scanned {cs : List Char} (hopen : ∀ p ∈ pieces cs, p.isOpen = false)
    (hsteady : Steady (pieces cs)) :
    ∀ (is : List Item), Item.ScannedAll (pieces cs) is → Item.UnbrokenAll is → Item.LegibleAll is
  | [], _, _ => trivial
  | .declaration _ _ :: is, ⟨⟨qs, hqs, hd⟩, his⟩, ⟨hfirm, hat, hunbroken⟩ => by
    have hlegible :=
      legible_declaration hqs.fitting (hsteady qs hqs) hqs.itemHead.balanced hd hfirm hat
    exact ⟨hlegible.1, hlegible.2, legibleAll_of_scanned hopen hsteady is his hunbroken⟩
  | .nested n :: is, ⟨_, hn, his⟩, ⟨hunbroken, hunbrokenAll⟩ =>
    ⟨legible_of_scanned hopen hsteady n hn hunbroken,
      legibleAll_of_scanned hopen hsteady is his hunbrokenAll⟩
  | .comment _ :: is, ⟨_, his⟩, hunbroken => legibleAll_of_scanned hopen hsteady is his hunbroken

end

/-! ### Printing without comments -/

mutual

/-- Comments below a node that was read make no difference to its text. -/
theorem print_withoutComments {all : List Piece} : ∀ (n : Node), n.Scanned all →
    n.withoutComments.print = n.print
  | .rule ss body, ⟨_, hbody⟩ => by
    rw [Node.withoutComments, Node.print, Node.print, printAll_withoutComments body hbody]
  | .group _ _ body, ⟨_, _, _, hbody⟩ => by
    rw [Node.withoutComments, Node.print, Node.print, printAll_withoutComments body hbody]
  | .atRule _ _ _, _ => rfl
  | .comment _, _ => rfl

/-- Comments among items that were read make no difference to their text. -/
theorem printAll_withoutComments {all : List Piece} : ∀ (is : List Item),
    Item.ScannedAll all is → ∀ after,
    Item.printAll after (Item.withoutComments is) = Item.printAll after is
  | [], _, _ => rfl
  | .declaration p v :: is, ⟨_, his⟩, after => by
    rw [Item.withoutComments, Item.printAll, Item.printAll, printAll_withoutComments is his]
  | .nested n :: is, ⟨hne, hn, his⟩, after => by
    rcases comment_or_received n with ⟨text, rfl⟩ | ⟨-, hnested, -⟩
    · exact (hne text rfl).elim
    · rw [hnested, Item.printAll, Item.printAll, print_withoutComments n hn,
        printAll_withoutComments is his]
  | .comment _ :: is, ⟨_, his⟩, after => by
    rw [Item.withoutComments, Item.printAll, printAll_withoutComments is his]

end

/-- Comments in a stylesheet that was read make no difference to its text. -/
theorem nodes_printAll_withoutComments {all : List Piece} {ns : List Node}
    (h : ∀ n ∈ ns, n.Scanned all) :
    Node.printAll (Node.withoutCommentsAll ns) = Node.printAll ns := by
  induction ns with
  | nil => rfl
  | cons n ns ih =>
    obtain ⟨hn, hns⟩ := List.forall_mem_cons.1 h
    rcases comment_or_received n with ⟨text, rfl⟩ | ⟨-, -, hall⟩
    · exact ih hns
    · rw [hall, Node.printAll, Node.printAll, List.flatMap_cons, List.flatMap_cons,
        print_withoutComments n hn]
      exact congrArg _ (ih hns)

/-! ### Reading again -/

/-- **Reading again what was read and printed**: the stylesheet comes back without its comments,
and its text does not change any more. -/
theorem parse_print_of_parse {css : String} {s : Stylesheet} (h : parse css = .ok s) :
    s.withoutComments.print = s.print ∧
      (Steady (pieces css.toList) → s.Unbroken → parse s.print = .ok s.withoutComments) := by
  have hscanned := scanned_of_parse h
  refine ⟨congrArg String.ofList (nodes_printAll_withoutComments hscanned), ?_⟩
  intro hsteady hunbroken
  obtain ⟨r, hread, -⟩ := Reader.bind_eq_ok.1 h
  exact parse_print_of_legible fun n hn =>
    legible_of_scanned (isOpen_of_foldlM hread) hsteady n (hscanned n hn) (hunbroken n hn)

/-- A text with comments, blanks and escapes in many places, and with a string whose colon is that
of a declaration. -/
def looseCss : String :=
  "/**/@LAYER b , c;a:is(b, c) ,, d\\/e\\ f/*,*/g \x7b @media x \x7bp\x7bm : 0/**/;\x7d\x7d " ++
  "\" : \x7d \" \x7d@page \x7b \x7b\x7d /*\x7d*/ \x7d @x \"y\" "

/-- The stylesheet of that text. -/
def looseSheet : Stylesheet :=
  ⟨[.comment "",
    .atRule "LAYER" "b , c" none,
    .rule ["a:is(b, c)", "d\\/e\\ fg"]
      [.nested (.group "media" "x" [.nested (.rule ["p"] [.declaration "m" "0"])]),
       .declaration "\"" "\x7d \""],
    .atRule "page" "" (some "\x7b\x7d /*\x7d*/"),
    .atRule "x" "\"y\"" none]⟩

theorem parse_print_looseCss :
    parse looseCss = .ok looseSheet ∧ Steady (pieces looseCss.toList) ∧ looseSheet.Unbroken ∧
      looseSheet.withoutComments.print = looseSheet.print ∧
      parse looseSheet.print = .ok looseSheet.withoutComments := by
  obtain ⟨h, htame, hparted, hunbroken⟩ : parse looseCss = .ok looseSheet ∧
      (∀ p ∈ pieces looseCss.toList, p.isTame = true) ∧
      Parted (·.isSlash = true) (keptPieces (pieces looseCss.toList)) ∧
      looseSheet.Unbroken := by decide +kernel
  have hsteady := steady_of_tame htame hparted
  obtain ⟨hprint, hagain⟩ := parse_print_of_parse h
  exact ⟨h, hsteady, hunbroken, hprint, hagain hsteady hunbroken⟩

/-- Trimming cuts an escape in half: the backslash that is left escapes the brace printed behind
it. -/
theorem parse_print_escapedBlank :
    parse ".a\\ \x7b\x7d" = .ok ⟨[.rule [".a\\"] []]⟩ ∧
      parse (Stylesheet.print ⟨[.rule [".a\\"] []]⟩) = .error (.fault .missingBlock 0) := by
  decide +kernel

-- A quote behind a backslash does no harm behind a name with an at-sign, nor in a head where no
-- comment follows it; and half an escape does none in front of a colon.
example :
    let css := "@x \\\"/*y*/;a\\\"b, c \x7bd\\ :e\x7d"
    let sheet : Stylesheet :=
      ⟨[.atRule "x" "\\\"/*y*/" none, .rule ["a\\\"b", "c"] [.declaration "d\\" "e"]]⟩
    parse css = .ok sheet ∧ Steady (pieces css.toList) ∧ sheet.Unbroken := by
  decide +kernel

-- A comment that parted the marks of another one is removed.
example :
    parse "a//**/*b\x7b\x7d" = .ok ⟨[.rule ["a/*b"] []]⟩ ∧
      parse (Stylesheet.print ⟨[.rule ["a/*b"] []]⟩) = .error (.fault .unterminatedComment 1) := by
  decide +kernel

-- The semicolon that is printed stands inside the bracket.
example :
    parse "@import (" = .ok ⟨[.atRule "import" "(" none]⟩ ∧
      parse (Stylesheet.print ⟨[.atRule "import" "(" none]⟩)
        = .ok ⟨[.atRule "import" "(;" none]⟩ := by
  decide +kernel

-- The comma in front of the at-sign is not printed.
example :
    parse ",@media\x7b\x7d" = .ok ⟨[.rule ["@media"] []]⟩ ∧
      parse (Stylesheet.print ⟨[.rule ["@media"] []]⟩) = .ok ⟨[.group "media" "" []]⟩ := by
  decide +kernel

end ComponentCompiler.Style
