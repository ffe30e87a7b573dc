import ComponentCompiler.Proofs.Style.Acceptance
import ComponentCompiler.Proofs.Style.Excerpt

/-!
# Comments in selectors and declarations

A text is gone through three times.  Cutting finds its strings, escapes and comments; then comments
are removed from the text of an item; and what is left is cut at commas, or at a colon.  The first
and the third heed backslashes everywhere, the second only in strings.  So a quote behind a
backslash opens a string for the second alone, in which it finds no comment; and a slash behind a
backslash opens a comment for it alone.

Where neither happens (`Heedless`), the three agree: the comments that cutting found are removed,
nothing else is, and a comma in a comment parts no selectors.

## Main definitions

* `PartedAtCommas` — pieces as rows of pieces with commas between them.
* `SelectorsOf`, `DeclarationOf` — what pieces without comments are read as.
* `ReadsSelectors`, `ReadsDeclaration` — what the head of a rule and that of a declaration are read
  as, comments apart.

## Main results

* `stripComments_eq_kept` — removing comments leaves out the pieces that are comments.
* `exists_groups` — commas part selectors where they are pieces outside brackets.
* `comments_removed` — **an accepted text spells out its stylesheet, comments apart**.
-/

namespace ComponentCompiler.Style

open Text (trim)

instance decidableHeedless : (ps : List Piece) → Decidable (Heedless ps)
  | [] => .isTrue trivial
  | .escape _ :: ps =>
      have := decidableHeedless ps
      inferInstanceAs (Decidable (_ ∧ _ ∧ Heedless ps))
  | .char _ :: ps => decidableHeedless ps
  | .string _ _ :: ps => decidableHeedless ps
  | .comment _ :: ps => decidableHeedless ps
  | .openString _ _ :: ps => decidableHeedless ps
  | .openComment _ :: ps => decidableHeedless ps

/-- Removing comments from a text leaves out the pieces that are comments, and nothing else. -/
theorem stripComments_eq_kept {cs : List Char} (hopen : ∀ p ∈ pieces cs, p.isOpen = false)
    (h : Heedless (pieces cs)) :
    stripComments cs = (keptPieces (pieces cs)).flatMap Piece.source := by
  rw [stripComments_of_heedless h, flatMap_kept]
  intro body hbody
  cases hopen _ hbody

/-! ### Selectors -/

/-- Pieces are rows of pieces with commas between them, each without a comma outside brackets and
with no bracket left open. -/
def PartedAtCommas (ks : List Piece) (gs : List (List Piece)) : Prop :=
  [.char ','].intercalate gs = ks ∧ ∀ g ∈ gs, depthAfter (· == ',') 0 g = some 0

/-- Commas part selectors where they are pieces outside brackets, and nowhere else. -/
theorem exists_groups {ks : List Piece} (hwell : ∀ p ∈ ks, p.WellFormed)
    (hcomment : ∀ p ∈ ks, p.isComment = false) (hbal : depthAfter isItemEnd 0 ks = some 0) :
    ∃ gs, PartedAtCommas ks gs ∧
      cutSelectors none 0 [] (ks.flatMap Piece.source) = gs.map (·.flatMap Piece.source) := by
  induction hn : ks.length using Nat.strongRecOn generalizing ks with
  | _ n ih =>
    cases hcomma : depthAfter (· == ',') 0 ks with
    | none =>
      -- the first comma ends a selector, and behind it stand fewer pieces
      obtain ⟨g, c, rs, rfl, hc, hg⟩ := exists_stop hcomma
      obtain rfl : c = ',' := by simpa using hc
      obtain ⟨hwellg, hwellrs⟩ := List.forall_mem_append.1 hwell
      obtain ⟨hcommentg, hcommentrs⟩ := List.forall_mem_append.1 hcomment
      rw [depthAfter_append] at hbal
      obtain ⟨d, hd, hbal⟩ := Option.bind_eq_some_iff.1 hbal
      obtain rfl := depthAfter_unique hg hd
      obtain ⟨gs, ⟨hgs, hgroups⟩, hcut⟩ := ih rs.length (by simp [← hn]; omega)
        (List.forall_mem_cons.1 hwellrs).2 (List.forall_mem_cons.1 hcommentrs).2 hbal rfl
      have hne : gs ≠ [] := by
        rintro rfl
        exact cutSelectors_ne_nil _ _ _ _ hcut
      refine ⟨g :: gs, ⟨?_, List.forall_mem_cons.2 ⟨hg, hgroups⟩⟩, ?_⟩
      · obtain ⟨g', gs, rfl⟩ := List.exists_cons_of_ne_nil hne
        rw [List.intercalate_cons_cons, hgs]
        simp
      · have hfirst := cutSelectors_append hwellg hcommentg hg []
          (',' :: rs.flatMap Piece.source)
        rw [cutSelectors_comma, List.append_nil, List.reverse_reverse] at hfirst
        rw [List.map_cons, ← hcut, ← hfirst]
        simp [Piece.source]
    | some d =>
      obtain rfl := depthAfter_unique hcomma hbal
      refine ⟨[ks], ⟨by simp [List.intercalate], by simpa using hcomma⟩, ?_⟩
      have hcut := cutSelectors_append hwell hcomment hcomma [] []
      rw [List.append_nil, List.append_nil, cutSelectors, List.reverse_reverse] at hcut
      exact hcut

/-- The selectors are what stands between the commas of pieces, without the blanks around them and
without the empty ones. -/
def SelectorsOf (ks : List Piece) (ss : List String) : Prop :=
  ∃ gs, PartedAtCommas ks gs ∧
    ss.map String.toList = keptSelectors (gs.map (·.flatMap Piece.source))

/-- A declaration is what stands before and behind the first colon of pieces, without the blanks
around it. -/
def DeclarationOf (ks : List Piece) (property value : String) : Prop :=
  ∃ s t, ks.flatMap Piece.source = s ++ ':' :: t ∧ ':' ∉ s ∧
    property.toList = trim s ∧ value.toList = trim t

/-- Selectors are what the head of a rule is read as.  Where backslashes need not be heeded, the
comments in the head are left out. -/
def ReadsSelectors (qs : List Piece) (ss : List String) : Prop :=
  splitSelectors (qs.flatMap Piece.source) = ss ∧ (Heedless qs → SelectorsOf (keptPieces qs) ss)

/-- A declaration is what its head is read as.  Where backslashes need not be heeded, the comments
in the head are left out. -/
def ReadsDeclaration (qs : List Piece) (property value : String) : Prop :=
  declaration? (qs.flatMap Piece.source) = some (.declaration property value) ∧
    (Heedless qs → DeclarationOf (keptPieces qs) property value)

theorem stripComments_fitting {qs : List Piece} (hfit : Fitting qs) (h : Heedless qs) :
    stripComments (qs.flatMap Piece.source) = (keptPieces qs).flatMap Piece.source := by
  have hpieces := pieces_of_fitting hfit
  have hopen : ∀ p ∈ qs, p.isOpen = false :=
    fun p hp => Piece.isOpen_of_isWhole (hfit.wellFormed p hp).isWhole
  rw [← hpieces] at hopen h
  rw [stripComments_eq_kept hopen h, hpieces]

theorem selectorsOf_split {qs : List Piece} (hfit : Fitting qs)
    (hbal : depthAfter isItemEnd 0 qs = some 0) (h : Heedless qs) :
    SelectorsOf (keptPieces qs) (splitSelectors (qs.flatMap Piece.source)) := by
  have hwell : ∀ p ∈ keptPieces qs, p.WellFormed :=
    fun p hp => hfit.wellFormed p (List.mem_filter.1 hp).1
  have hcomment : ∀ p ∈ keptPieces qs, p.isComment = false :=
    fun p hp => by simpa using (List.mem_filter.1 hp).2
  obtain ⟨gs, hgs, hcut⟩ := exists_groups hwell hcomment (by rw [depthAfter_keptPieces, hbal])
  refine ⟨gs, hgs, ?_⟩
  rw [map_toList_splitSelectors, stripComments_fitting hfit h, hcut]

/-! ### Stylesheets -/

theorem readsSelectors_of_selectsIn {cs : List Char} {qs : List Piece} {ss : List String}
    (h : SelectsIn (pieces cs) qs ss) : ReadsSelectors qs ss := by
  obtain ⟨hqs, rfl⟩ := h
  exact ⟨rfl, selectorsOf_split hqs.fitting hqs.itemHead.balanced⟩

theorem readsDeclaration_of_declaresIn {cs : List Char} {qs : List Piece} {property value : String}
    (h : DeclaresIn (pieces cs) qs property value) : ReadsDeclaration qs property value := by
  obtain ⟨hqs, hread⟩ := h
  refine ⟨hread, fun hheedless => ?_⟩
  have hcolon := declaration?_eq_some hread
  rwa [stripComments_fitting hqs.fitting hheedless] at hcolon

/-- Comments are removed as they are read, unless a backslash misleads the removal.  What is removed
from a text that is read to its end are the pieces that are comments, and nothing else.  So every
text that is accepted spells out its stylesheet, piece by piece, and no other: what stands from the
start of a rule or a declaration to its brace or semicolon is read as its selectors or its two
sides, the comments apart.  None is kept, nothing else is dropped, and only commas outside comments
part selectors. -/
theorem comments_removed (css : String) :
    ((∀ p ∈ pieces css.toList, p.isOpen = false) → Heedless (pieces css.toList) →
      stripComments css.toList = (keptPieces (pieces css.toList)).flatMap Piece.source) ∧
    ∀ sheet, parse css = .ok sheet → ∀ is,
      Spells ReadsSelectors ReadsDeclaration .sheet (pieces css.toList) is ↔
        is = sheet.rules.map Node.toItem := by
  refine ⟨stripComments_eq_kept, fun sheet hparse is => ⟨fun h => ?_, ?_⟩⟩
  · exact spells_unique hparse (fun _ _ => And.left) (fun _ _ _ => And.left) h
  · rintro rfl
    exact (spells_of_parse hparse).imp (fun _ _ => readsSelectors_of_selectsIn)
      fun _ _ _ => readsDeclaration_of_declaresIn

/-- A rule with commas, colons, quotes and marks in its comments and strings, and an escaped quote
behind them all. -/
def misleadingCss : String := "a/*,'*/b,[c='/*,*/']\x7bd:/*:;*/e\\\"\x7d"

theorem comments_removed_misleadingCss :
    parse misleadingCss = .ok ⟨[.rule ["ab", "[c='/*,*/']"] [.declaration "d" "e\\\""]]⟩ ∧
      Heedless (pieces misleadingCss.toList) ∧
      stripComments misleadingCss.toList = "ab,[c='/*,*/']\x7bd:e\\\"\x7d".toList ∧
      Spells ReadsSelectors ReadsDeclaration .sheet (pieces misleadingCss.toList)
        [.nested (.rule ["ab", "[c='/*,*/']"] [.declaration "d" "e\\\""])] := by
  obtain ⟨hparse, hopen, hheedless, hkept⟩ :
      parse misleadingCss = .ok ⟨[.rule ["ab", "[c='/*,*/']"] [.declaration "d" "e\\\""]]⟩ ∧
      (∀ p ∈ pieces misleadingCss.toList, p.isOpen = false) ∧
      Heedless (pieces misleadingCss.toList) ∧
      (keptPieces (pieces misleadingCss.toList)).flatMap Piece.source
        = "ab,[c='/*,*/']\x7bd:e\\\"\x7d".toList := by
    decide +kernel
  obtain ⟨hstrip, hsheet⟩ := comments_removed misleadingCss
  exact ⟨hparse, hheedless, hkept ▸ hstrip hopen hheedless, (hsheet _ hparse _).2 rfl⟩

-- The quote behind the backslash opens a string where comments are removed, and nowhere else: the
-- comment stays, and its comma parts two selectors.
example :
    pieces "a\\\"/*,*/b".toList = [.char 'a', .escape '\"', .comment [','], .char 'b'] ∧
      parse "a\\\"/*,*/b\x7b\x7d" = .ok ⟨[.rule ["a\\\"/*", "*/b"] []]⟩ := by
  decide +kernel

-- The slash behind the backslash opens a comment there, which takes the rest of the selector.
example : parse "a\\/*b\x7b\x7d" = .ok ⟨[.rule ["a\\"] []]⟩ := by decide +kernel

end ComponentCompiler.Style
