import ComponentCompiler.Proofs.Style.Watch

/-!
# Closed texts

A text is held when reading passes over it from a place where no bracket is open to another such
place without meeting the end of an item.  It is closed if, besides, it has no comment and no
backslash outside a string.  Such texts may be put into a stylesheet without changing how the rest
of it is read, and what they are part of is found again: selectors at the commas between them, a
declaration at its colon.  For that a text need not be closed, if only nothing is removed from it
with the comments: where these are removed backslashes are not heeded, and one may stand in front of
a quote or in front of a slash with an asterisk behind it.

## Main definitions

* `depthAfter` — the number of open brackets behind pieces.
* `Held`, `Closed`, `CommaFree` — held and closed texts, and texts without a comma outside brackets
  and strings.
* `Piece.isTame`, `Piece.isClean` — pieces with harmless backslashes, and complete pieces that are
  no comments.
* `Heedless` — pieces from which comments can be removed without heeding backslashes.
* `SheetText`, `SelectorText`, `PropertyText`, `RawText` — the texts a stylesheet can be printed
  with.

## Main results

* `stripComments_of_heedless`, `stripComments_eq` — where backslashes need not be heeded, and so
  with harmless ones, exactly the comments are removed.
* `Held.join` — held texts may be joined by a character.
* `splitSelectors_printSelectors`, `declaration?_printDeclaration` — selectors and declarations are
  read back from what is printed.
-/

namespace ComponentCompiler.Style

open Text (trim isBlank)

/-! ### Brackets -/

/-- The number of open brackets behind pieces, when `depth` are open in front of them.  There is
none when, with no bracket open, a character of `stop` is met. -/
def depthAfter (stop : Char → Bool) (depth : Nat) : List Piece → Option Nat
  | [] => some depth
  | .char c :: ps =>
      if depth == 0 && stop c then none else depthAfter stop (Reader.bracketDepth depth c) ps
  | _ :: ps => depthAfter stop depth ps

theorem depthAfter_append (stop : Char → Bool) (depth : Nat) (ps qs : List Piece) :
    depthAfter stop depth (ps ++ qs)
      = (depthAfter stop depth ps).bind fun d => depthAfter stop d qs := by
  fun_induction depthAfter stop depth ps with
  | case1 depth => rfl
  | case2 depth c ps h => rw [List.cons_append, depthAfter, if_pos h]; rfl
  | case3 depth c ps h ih => rw [List.cons_append, depthAfter, if_neg h, ih]
  | case4 depth p ps hp ih =>
    rw [List.cons_append, depthAfter, ih]
    exact hp

/-- The number of open brackets does not depend on what a scan stops at. -/
theorem depthAfter_unique {stop stop' : Char → Bool} {depth a b : Nat} {ps : List Piece}
    (ha : depthAfter stop depth ps = some a) (hb : depthAfter stop' depth ps = some b) : a = b := by
  fun_induction depthAfter stop depth ps with
  | case1 depth => exact Option.some.inj (ha.symm.trans hb)
  | case2 => cases ha
  | case3 depth c ps h ih =>
    rw [depthAfter] at hb
    split at hb
    · cases hb
    · exact ih ha hb
  | case4 depth p ps hp ih =>
    rw [depthAfter] at hb
    · exact ih ha hb
    · exact hp

/-- A scan that stops does so at a character outside brackets. -/
theorem exists_stop {stop : Char → Bool} {depth : Nat} {ps : List Piece}
    (h : depthAfter stop depth ps = none) :
    ∃ qs c rs, ps = qs ++ .char c :: rs ∧ stop c = true ∧ depthAfter stop depth qs = some 0 := by
  fun_induction depthAfter stop depth ps with
  | case1 => cases h
  | case2 depth c ps hc =>
    simp only [Bool.and_eq_true, beq_iff_eq] at hc
    exact ⟨[], c, ps, rfl, hc.2, by rw [depthAfter, hc.1]⟩
  | case3 depth c ps hc ih =>
    obtain ⟨qs, d, rs, rfl, hd, hqs⟩ := ih h
    exact ⟨.char c :: qs, d, rs, rfl, hd, by rw [depthAfter, if_neg hc, hqs]⟩
  | case4 depth p ps hp ih =>
    obtain ⟨qs, d, rs, rfl, hd, hqs⟩ := ih h
    refine ⟨p :: qs, d, rs, rfl, hd, ?_⟩
    rw [depthAfter, hqs]
    exact hp

/-- The characters that end an item where no bracket is open. -/
def isItemEnd (c : Char) : Bool := c == '{' || c == ';' || c == '}'

/-- A text that reading passes over without meeting the end of an item, a comment, or a backslash
outside a string, with no bracket left open. -/
structure Closed (cs : List Char) : Prop where
  /-- There is no comment, no backslash outside strings, and no string is left open. -/
  plain : ∀ p ∈ pieces cs, p.isPlain = true
  /-- The end of the text is reached with no bracket open, and no item ends before. -/
  balanced : depthAfter isItemEnd 0 (pieces cs) = some 0

/-- A text without a comma outside brackets and strings. -/
def CommaFree (cs : List Char) : Prop := depthAfter (· == ',') 0 (pieces cs) ≠ none

instance (cs : List Char) : Decidable (Closed cs) :=
  decidable_of_iff
    ((∀ p ∈ pieces cs, p.isPlain = true) ∧ depthAfter isItemEnd 0 (pieces cs) = some 0)
    ⟨fun h => ⟨h.1, h.2⟩, fun h => ⟨h.1, h.2⟩⟩

instance (cs : List Char) : Decidable (CommaFree cs) :=
  inferInstanceAs (Decidable (_ ≠ _))

theorem getLast?_of_getLast?_pieces {cs : List Char} {c : Char}
    (h : (pieces cs).getLast? = some (.char c)) : cs.getLast? = some c := by
  obtain ⟨ps, hps⟩ := List.getLast?_eq_some_iff.1 h
  have hsource := source_pieces cs
  rw [hps, List.flatMap_append] at hsource
  rw [← hsource]
  simp [Piece.source]

/-- A text with complete pieces is cut apart from what follows, unless a slash meets an
asterisk. -/
theorem pieces_append_of_whole {cs rest : List Char} (h : ∀ p ∈ pieces cs, p.isWhole = true)
    (hrest : cs.getLast? = some '/' → rest.head? ≠ some '*') :
    pieces (cs ++ rest) = pieces cs ++ pieces rest := by
  refine pieces_append fun p hp => ?_
  have hwhole := h p (List.mem_of_getLast? hp)
  cases p with
  | char c =>
    refine ⟨by simpa [Piece.isWhole] using hwhole, ?_⟩
    rintro rfl
    exact hrest (getLast?_of_getLast?_pieces hp)
  | openString _ _ => cases hwhole
  | openComment _ => cases hwhole
  | _ => exact trivial

/-- A text with pieces of a kind that reading passes over without meeting the end of an item, with
no bracket left open. -/
structure Held (kind : Piece → Bool) (cs : List Char) : Prop where
  /-- All pieces are of the kind. -/
  kind : ∀ p ∈ pieces cs, kind p = true
  /-- The end of the text is reached with no bracket open, and no item ends before. -/
  balanced : depthAfter isItemEnd 0 (pieces cs) = some 0

instance (kind : Piece → Bool) (cs : List Char) : Decidable (Held kind cs) :=
  decidable_of_iff
    ((∀ p ∈ pieces cs, kind p = true) ∧ depthAfter isItemEnd 0 (pieces cs) = some 0)
    ⟨fun h => ⟨h.1, h.2⟩, fun h => ⟨h.1, h.2⟩⟩

theorem Closed.held {cs : List Char} (h : Closed cs) : Held Piece.isPlain cs :=
  ⟨h.plain, h.balanced⟩

theorem Held.mono {kind kind' : Piece → Bool} (hk : ∀ p, kind p = true → kind' p = true)
    {cs : List Char} (h : Held kind cs) : Held kind' cs :=
  ⟨fun p hp => hk p (h.kind p hp), h.balanced⟩

theorem held_nil (kind : Piece → Bool) : Held kind [] := ⟨by simp [pieces, piecesFrom], rfl⟩

theorem Held.append {kind : Piece → Bool} (hk : ∀ p, kind p = true → p.isWhole = true)
    {cs ds : List Char} (hcs : Held kind cs) (hds : Held kind ds)
    (h : cs.getLast? = some '/' → ds.head? ≠ some '*') : Held kind (cs ++ ds) := by
  have happend := pieces_append_of_whole (fun p hp => hk p (hcs.kind p hp)) h
  constructor
  · rw [happend]
    exact List.forall_mem_append.2 ⟨hcs.kind, hds.kind⟩
  · rw [happend, depthAfter_append, hcs.balanced]
    exact hds.balanced

/-- A character that opens nothing parts what stands before and behind it. -/
theorem pieces_join {c : Char} (hq : isQuote c = false) (hb : c ≠ '\\') (hs : c ≠ '/')
    (ha : c ≠ '*') {cs : List Char} (h : ∀ p ∈ pieces cs, p.isWhole = true) (ds : List Char) :
    pieces (cs ++ c :: ds) = pieces cs ++ .char c :: pieces ds := by
  rw [pieces_append_of_whole h fun _ hc => ha (by simpa using hc)]
  exact congrArg _ (piecesFrom_char hq hb fun hc => absurd hc hs)

/-- Held texts may be joined by a character that opens and ends nothing. -/
theorem Held.join {kind : Piece → Bool} (hk : ∀ p, kind p = true → p.isWhole = true) {c : Char}
    (hc : isQuote c = false ∧ c ≠ '\\' ∧ c ≠ '/' ∧ c ≠ '*') (hkind : kind (.char c) = true)
    (hend : isItemEnd c = false) (hdepth : Reader.bracketDepth 0 c = 0) {cs ds : List Char}
    (hcs : Held kind cs) (hds : Held kind ds) : Held kind (cs ++ c :: ds) := by
  obtain ⟨hq, hb, hs, ha⟩ := hc
  have hpieces := pieces_join hq hb hs ha (fun p hp => hk p (hcs.kind p hp)) ds
  constructor
  · rw [hpieces]
    exact List.forall_mem_append.2 ⟨hcs.kind, List.forall_mem_cons.2 ⟨hkind, hds.kind⟩⟩
  · rw [hpieces, depthAfter_append, hcs.balanced, Option.bind_some, depthAfter, hend,
      Bool.and_false, if_neg (by simp), hdepth, hds.balanced]

/-! ### Consecutive pieces -/

/-- In front of the incomplete piece a complete one can be left out. -/
theorem append_of_isWhole {whole p : Piece} {rest ps qs : List Piece}
    (hwhole : whole.isWhole = true) (hp : p.isWhole = false)
    (h : whole :: rest = ps ++ p :: qs) : ∃ ps', rest = ps' ++ p :: qs := by
  cases ps with
  | nil =>
    obtain ⟨rfl, -⟩ := List.cons.inj h
    rw [hwhole] at hp
    cases hp
  | cons _ ps => exact ⟨ps, (List.cons.inj h).2⟩

theorem eq_nil_of_singleton {p q : Piece} {ps qs : List Piece} (h : [p] = ps ++ q :: qs) :
    qs = [] := by
  obtain ⟨-, h⟩ | ⟨-, h⟩ := List.singleton_eq_append_iff.1 h
  · exact (List.cons.inj h).2
  · cases h

/-- Only the last piece of a text can be incomplete. -/
theorem eq_nil_of_isWhole (cut : Cut) (cs : List Char) {ps qs : List Piece} {p : Piece}
    (h : piecesFrom cut cs = ps ++ p :: qs) (hp : p.isWhole = false) : qs = [] := by
  fun_induction piecesFrom cut cs generalizing ps with
  | case1 cs ih => exact ih h
  | case2 c cs ih =>
    obtain ⟨ps', h'⟩ := append_of_isWhole rfl hp h
    exact ih h'
  | case3 c cs _ _ _ ih => exact ih h
  | case4 c cs _ hescape _ ih =>
    -- a character by itself is incomplete if it is a backslash, and then nothing is behind it
    cases ps with
    | nil =>
      obtain ⟨rfl, rfl⟩ := List.cons.inj h
      obtain rfl : c = '\\' := by simpa [Piece.isWhole] using hp
      cases cs with
      | nil => rfl
      | cons d ds => exact (hescape d ds rfl rfl).elim
    | cons p ps => exact ih (List.cons.inj h).2
  | case5 => simp at h
  | case6 q r c cs ih => exact ih h
  | case7 q r c cs _ _ ih =>
    obtain ⟨ps', h'⟩ := append_of_isWhole rfl hp h
    exact ih h'
  | case8 q r c cs _ _ ih => exact ih h
  | case9 q r => exact eq_nil_of_singleton h
  | case10 r cs ih =>
    obtain ⟨ps', h'⟩ := append_of_isWhole rfl hp h
    exact ih h'
  | case11 r c cs _ ih => exact ih h
  | case12 r => exact eq_nil_of_singleton h

/-- Consecutive pieces of a text fit together, but for a backslash at the end of the text. -/
theorem exists_lone {cs : List Char} {qs : List Piece} (hqs : qs <:+: pieces cs)
    (hopen : ∀ p ∈ qs, p.isOpen = false) :
    ∃ ps lone, qs = ps ++ lone ∧ Fitting ps ∧ (lone = [] ∨ lone = [.char '\\']) := by
  have hfit : ∀ {ps}, ps <:+: qs → .char '\\' ∉ ps → Fitting ps := by
    intro ps hps hlone
    refine ⟨fun p hp => ?_, (parted_piecesFrom .outside cs).of_within (hps.trans hqs)⟩
    exact wellFormed_piecesFrom .outside cs trivial p ((hps.trans hqs).subset hp)
      (Piece.isWhole_of_isOpen (hopen p (hps.subset hp)) fun h => hlone (h ▸ hp))
  by_cases hlone : .char '\\' ∈ qs
  · obtain ⟨ps, rs, rfl, hps⟩ := List.eq_append_cons_of_mem hlone
    obtain ⟨as, bs, hall⟩ := hqs
    have hcut : piecesFrom .outside cs = (as ++ ps) ++ .char '\\' :: (rs ++ bs) := by
      rw [← pieces, ← hall]
      simp
    obtain ⟨rfl, -⟩ := List.append_eq_nil_iff.1 (eq_nil_of_isWhole .outside cs hcut rfl)
    exact ⟨ps, [.char '\\'], rfl, hfit ⟨[], [.char '\\'], rfl⟩ hps, .inr rfl⟩
  · exact ⟨qs, [], (List.append_nil qs).symm, hfit List.infix_rfl hlone, .inl rfl⟩

theorem pieces_of_lone {ps lone : List Piece} (h : Fitting ps)
    (hlone : lone = [] ∨ lone = [.char '\\']) :
    pieces ((ps ++ lone).flatMap Piece.source) = ps ++ lone := by
  have hpieces := pieces_of_fitting h
  rcases hlone with rfl | rfl
  · rw [List.append_nil, hpieces]
  · rw [List.flatMap_append, pieces_append_of_whole, hpieces]
    · rfl
    · rw [hpieces]
      exact fun p hp => (h.wellFormed p hp).isWhole
    · simp [Piece.source]

/-- Consecutive pieces of a text, none of them open, are what their sources are cut into. -/
theorem pieces_of_within {cs : List Char} {qs : List Piece} (hqs : qs <:+: pieces cs)
    (hopen : ∀ p ∈ qs, p.isOpen = false) : pieces (qs.flatMap Piece.source) = qs := by
  obtain ⟨ps, lone, rfl, hfit, hlone⟩ := exists_lone hqs hopen
  exact pieces_of_lone hfit hlone

/-- Consecutive pieces of a text fit together if another piece follows. -/
theorem fitting_of_follows {cs : List Char} {ps qs rs : List Piece} {p : Piece}
    (h : pieces cs = ps ++ (qs ++ p :: rs)) : Fitting qs := by
  have hwithin : qs <:+: pieces cs := ⟨ps, p :: rs, by rw [h, List.append_assoc]⟩
  refine ⟨fun q hq => ?_, (parted_piecesFrom .outside cs).of_within hwithin⟩
  refine wellFormed_piecesFrom .outside cs trivial q (hwithin.subset hq) ?_
  by_contra hwhole
  obtain ⟨as, bs, rfl⟩ := List.append_of_mem hq
  have hcut : piecesFrom .outside cs = (ps ++ as) ++ q :: (bs ++ p :: rs) := by
    rw [← pieces, h]
    simp
  cases bs <;> cases eq_nil_of_isWhole .outside cs hcut (by simpa using hwhole)

/-! ### Backslashes -/

/-- Whether a piece is no backslash that does harm.  A backslash at the end of a text escapes what
is put behind the text; and where comments are removed backslashes are not heeded, so that a quote
behind one opens a string there. -/
def Piece.isTame : Piece → Bool
  | .char c => c != '\\'
  | .escape c => !isQuote c
  | _ => true

/-- Whether a piece is a slash, be it behind a backslash. -/
def Piece.isSlash : Piece → Bool
  | .char c => c == '/'
  | .escape c => c == '/'
  | _ => false

/-- Whether a piece is a comment. -/
def Piece.isComment : Piece → Bool
  | .comment _ => true
  | _ => false

/-- Whether a piece may stand in the text of a selector or a declaration. -/
def Piece.isClean (p : Piece) : Bool := p.isWhole && !p.isComment

theorem Piece.isWhole_of_isClean {p : Piece} (h : p.isClean = true) : p.isWhole = true := by
  simp only [isClean, Bool.and_eq_true] at h
  exact h.1

theorem Piece.isComment_of_isClean {p : Piece} (h : p.isClean = true) : p.isComment = false := by
  simp only [isClean, Bool.and_eq_true, Bool.not_eq_true'] at h
  exact h.2

theorem Piece.isClean_of_isPlain {p : Piece} (h : p.isPlain = true) : p.isClean = true := by
  cases p with
  | char c => simpa [isPlain, isClean, isWhole, isComment] using h
  | string _ _ => rfl
  | _ => cases h

theorem Piece.isTame_of_isPlain {p : Piece} (h : p.isPlain = true) : p.isTame = true := by
  cases p with
  | char c => exact h
  | string _ _ => rfl
  | _ => cases h

/-! ### Comments -/

/-- What stripping keeps of a piece. -/
def Piece.kept : Piece → List Char
  | .comment _ => []
  | .openComment _ => []
  | p => p.source

/-- The standpoint of stripping where cutting stands. -/
def Cut.strip : Cut → Strip
  | .outside => .outside
  | .string q _ => .string q
  | .comment _ => .comment

/-- What stripping has kept of the piece under way. -/
def Cut.kept : Cut → List Char
  | .comment _ => []
  | cut => cut.underWay

/-- Comments can be removed from these pieces without heeding backslashes: no mark of a comment
stands behind an escaped quote, and no asterisk directly behind an escaped slash. -/
def Heedless : List Piece → Prop
  | [] => True
  | .escape c :: ps =>
      (isQuote c = true → ¬ ['/', '*'] <:+: ps.flatMap Piece.source) ∧
        (c = '/' → ps.head? ≠ some (.char '*')) ∧ Heedless ps
  | _ :: ps => Heedless ps

theorem flatMap_kept_of_no_mark {ps : List Piece}
    (h : ¬ ['/', '*'] <:+: ps.flatMap Piece.source) :
    ps.flatMap Piece.kept = ps.flatMap Piece.source := by
  rw [List.flatMap_def, List.flatMap_def]
  refine congrArg List.flatten (List.map_congr_left fun p hp => ?_)
  have hmark : ¬ ['/', '*'] <:+: p.source := by
    obtain ⟨qs, rs, rfl⟩ := List.append_of_mem hp
    refine fun hmark => h (hmark.trans ⟨qs.flatMap Piece.source, rs.flatMap Piece.source, ?_⟩)
    simp
  cases p with
  | comment body => exact absurd ⟨[], body ++ ['*', '/'], rfl⟩ hmark
  | openComment body => exact absurd ⟨[], body, rfl⟩ hmark
  | _ => rfl

/-- Unless a backslash hides a quote or the mark of a comment, stripping and cutting see the same
comments. -/
theorem stripFrom_strip (cut : Cut) (cs : List Char) (hcut : cut.Proper)
    (h : Heedless (piecesFrom cut cs)) :
    cut.kept ++ stripFrom cut.strip cs = (piecesFrom cut cs).flatMap Piece.kept := by
  fun_induction piecesFrom cut cs with
  | case1 cs ih => exact ih trivial h
  | case2 c cs ih =>
    obtain ⟨hquote, hslash, h⟩ := h
    rw [List.flatMap_cons, Cut.strip, stripFrom, if_neg (by decide), stripFrom]
    · cases hc : isQuote c with
      | true =>
        -- behind the quote stripping stands in a string, but there is nothing to remove
        have hmark := hquote hc
        have hsource : (piecesFrom .outside cs).flatMap Piece.source = cs := source_pieces cs
        rw [flatMap_kept_of_no_mark hmark, hsource]
        rw [hsource] at hmark
        rw [if_pos rfl, stripFrom_of_no_mark (by simp) hmark]
        rfl
      | false =>
        rw [← ih trivial h]
        rfl
    · rintro ds rfl rfl
      refine hslash rfl ?_
      rw [piecesFrom_char rfl (by decide) fun hs => absurd hs (by decide)]
      rfl
    · exact fun ds hs _ => absurd hs (by decide)
  | case3 c cs h₁ _ hc ih =>
    rw [← ih hc h, Cut.strip, stripFrom, if_pos hc]
    · rfl
    · exact fun ds hs hcs => h₁ ds hs hcs
  | case4 c cs h₁ _ hc ih =>
    rw [Cut.strip, stripFrom, if_neg hc, List.flatMap_cons, ← ih trivial h]
    · rfl
    · exact fun ds hs hcs => h₁ ds hs hcs
  | case5 => rfl
  | case6 q r c cs ih =>
    rw [← ih hcut h, Cut.strip, stripFrom]
    simp [Cut.kept, Cut.underWay, Cut.strip]
  | case7 q r c cs h₁ hc ih =>
    obtain rfl : c = q := by simpa using hc
    rw [Cut.strip, stripFrom, if_pos hc, List.flatMap_cons, ← ih trivial h]
    · simp [Cut.kept, Cut.underWay, Cut.strip, Piece.kept, Piece.source]
    · exact fun d ds hb hcs => h₁ d ds hb hcs
  | case8 q r c cs h₁ hc ih =>
    rw [← ih hcut h, Cut.strip, stripFrom, if_neg hc]
    · simp [Cut.kept, Cut.underWay, Cut.strip]
    · exact fun d ds hb hcs => h₁ d ds hb hcs
  | case9 q r => simp [Cut.kept, Cut.underWay, Cut.strip, Piece.kept, Piece.source, stripFrom]
  | case10 r cs ih => exact ih trivial h
  | case11 r c cs h₁ ih =>
    rw [← ih trivial h, Cut.strip, stripFrom]
    · rfl
    · exact fun ds hs hcs => h₁ ds hs hcs
  | case12 r => rfl

theorem stripComments_of_heedless {cs : List Char} (h : Heedless (pieces cs)) :
    stripComments cs = (pieces cs).flatMap Piece.kept :=
  stripFrom_strip .outside cs trivial h

/-- Where backslashes are harmless, they need not be heeded. -/
theorem heedless_of_tame {ps : List Piece} (h : ∀ p ∈ ps, p.isTame = true)
    (hparted : Parted (·.isSlash = true) ps) : Heedless ps := by
  induction ps with
  | nil => trivial
  | cons p ps ih =>
    obtain ⟨hp, hps⟩ := List.forall_mem_cons.1 h
    obtain ⟨hslash, hrest⟩ := parted_cons.1 hparted
    cases p with
    | escape c =>
      refine ⟨fun hc => ?_, ?_, ih hps hrest⟩
      · rw [Piece.isTame, hc] at hp
        cases hp
      · rintro rfl
        exact hslash rfl
    | _ => exact ih hps hrest

/-- With harmless backslashes, exactly the comments are removed. -/
theorem stripComments_eq {cs : List Char} (h : ∀ p ∈ pieces cs, p.isTame = true)
    (hparted : Parted (·.isSlash = true) (pieces cs)) :
    stripComments cs = (pieces cs).flatMap Piece.kept :=
  stripComments_of_heedless (heedless_of_tame h hparted)

/-- Nothing is removed from a closed text. -/
theorem stripComments_of_closed {cs : List Char} (h : Closed cs) : stripComments cs = cs := by
  have hkept : (pieces cs).flatMap Piece.kept = (pieces cs).flatMap Piece.source := by
    rw [List.flatMap_def, List.flatMap_def]
    refine congrArg List.flatten (List.map_congr_left fun p hp => ?_)
    have hplain := h.plain p hp
    cases p with
    | comment _ => cases hplain
    | openComment _ => cases hplain
    | _ => rfl
  rw [source_pieces] at hkept
  rw [stripComments_eq (fun p hp => Piece.isTame_of_isPlain (h.plain p hp)), hkept]
  refine (parted_piecesFrom .outside cs).mono fun p hp hslash => ?_
  have hplain := h.plain p hp
  cases p with
  | char c => simpa [Piece.isSlash] using hslash
  | escape c => cases hplain
  | _ => cases hslash

/-! ### Selectors -/

/-- A string is passed over. -/
theorem cutSelectors_body {q : Char} (hq : isQuote q = true) {body : List Char}
    (h : isStringBody q body = true) (depth : Nat) (read cs : List Char) :
    cutSelectors (some q) depth read (body ++ q :: cs)
      = cutSelectors none depth (q :: (body.reverse ++ read)) cs := by
  fun_induction isStringBody q body generalizing read with
  | case1 c body ih =>
    rw [List.cons_append, List.cons_append, cutSelectors, ih h]
    simp
  | case2 c body hcs ih =>
    simp only [Bool.and_eq_true, bne_iff_ne] at h
    rw [List.cons_append, cutSelectors]
    · simp only [beq_iff_eq, h.1.1, if_false]
      rw [ih h.2]
      simp
    · exact fun _ _ hb => absurd hb h.1.2
  | case3 =>
    rw [List.nil_append, cutSelectors]
    · simp
    · exact fun _ _ hb => absurd hb (ne_backslash_of_isQuote hq)

/-- A character that neither opens a string nor ends a selector is passed over. -/
theorem cutSelectors_char {c : Char} (hq : isQuote c = false) (hb : c ≠ '\\') {depth : Nat}
    (hc : (depth == 0 && c == ',') = false) (read cs : List Char) :
    cutSelectors none depth read (c :: cs)
      = cutSelectors none (Reader.bracketDepth depth c) (c :: read) cs := by
  rw [cutSelectors]
  · rw [Bool.and_comm] at hc
    simp only [hq, hc, Reader.bracketDepth, Bool.false_eq_true, if_false]
    split
    · rfl
    · split <;> rfl
  · exact fun _ _ hb' => absurd hb' hb

/-- Pieces without a comma outside brackets belong to one selector. -/
theorem cutSelectors_append {ps : List Piece} (hps : ∀ p ∈ ps, p.WellFormed)
    (hcomment : ∀ p ∈ ps, p.isComment = false) {depth depth' : Nat}
    (h : depthAfter (· == ',') depth ps = some depth') (read cs : List Char) :
    cutSelectors none depth read (ps.flatMap Piece.source ++ cs)
      = cutSelectors none depth' ((ps.flatMap Piece.source).reverse ++ read) cs := by
  induction ps generalizing depth read with
  | nil =>
    obtain rfl := Option.some.inj h
    rfl
  | cons p ps ih =>
    obtain ⟨hp, hps⟩ := List.forall_mem_cons.1 hps
    obtain ⟨hcp, hcps⟩ := List.forall_mem_cons.1 hcomment
    have ih := fun d r hd => @ih hps hcps d hd r
    cases p with
    | char c =>
      rw [depthAfter] at h
      split at h
      · cases h
      · next hc =>
        rw [List.flatMap_cons, Piece.source, List.singleton_append, List.cons_append,
          cutSelectors_char hp.1 hp.2 (by simpa using hc), ih _ _ h]
        simp
    | escape c =>
      rw [depthAfter] at h
      · have hcut := ih depth (c :: '\\' :: read) h
        simpa [Piece.source, cutSelectors] using hcut
      · simp
    | string q body =>
      -- commas and brackets inside the string are not looked at
      rw [depthAfter] at h
      · have hcut := cutSelectors_body hp.1 hp.2 depth (q :: read)
          (ps.flatMap Piece.source ++ cs)
        rw [List.flatMap_cons, Piece.source, List.cons_append, List.cons_append, List.cons_append,
          cutSelectors]
        · simp only [hp.1, if_true]
          rw [List.append_assoc, List.append_assoc, List.singleton_append, hcut, ih _ _ h]
          simp
        · exact fun _ _ hb => absurd hb (ne_backslash_of_isQuote hp.1)
      · simp
    | comment body => cases hcp
    | _ => exact hp.elim

/-! ### The texts of a stylesheet -/

/-- A text that stands by itself in a stylesheet, such as a value. -/
structure SheetText (cs : List Char) : Prop where
  /-- There are no blanks at its ends. -/
  trimmed : trim cs = cs
  /-- Reading passes over it. -/
  closed : Closed cs

/-- The text of a selector. -/
structure SelectorText (cs : List Char) : Prop extends SheetText cs where
  /-- It is not empty. -/
  nonempty : cs ≠ []
  /-- It is one selector. -/
  commaFree : CommaFree cs

/-- The text of a property. -/
structure PropertyText (cs : List Char) : Prop extends SheetText cs where
  /-- It ends at the first colon. -/
  colonFree : ':' ∉ cs
  /-- It does not look like a rule with an at-sign. -/
  atFree : cs.head? ≠ some '@'

/-- What stands behind the brace that closes a block, when `depth` further blocks are open. -/
def rawEnd (depth : Nat) : List Piece → Option (List Piece)
  | [] => none
  | .char c :: ps =>
      if c == '}' then
        match depth with
        | 0 => some ps
        | d + 1 => rawEnd d ps
      else rawEnd (if c == '{' then depth + 1 else depth) ps
  | .openString _ _ :: _ => none
  | .openComment _ :: _ => none
  | _ :: ps => rawEnd depth ps

/-- The text of a block that is kept as it is written. -/
structure RawText (cs : List Char) : Prop where
  /-- There are no blanks at its ends. -/
  trimmed : trim cs = cs
  /-- The brace behind it is the one that closes the block. -/
  closing : rawEnd 0 (pieces (cs ++ ['}'])) = some []

instance (cs : List Char) : Decidable (SheetText cs) :=
  decidable_of_iff (trim cs = cs ∧ Closed cs) ⟨fun h => ⟨h.1, h.2⟩, fun h => ⟨h.1, h.2⟩⟩

instance (cs : List Char) : Decidable (SelectorText cs) :=
  decidable_of_iff (SheetText cs ∧ cs ≠ [] ∧ CommaFree cs)
    ⟨fun h => ⟨h.1, h.2.1, h.2.2⟩, fun h => ⟨h.1, h.2, h.3⟩⟩

instance (cs : List Char) : Decidable (PropertyText cs) :=
  decidable_of_iff (SheetText cs ∧ ':' ∉ cs ∧ cs.head? ≠ some '@')
    ⟨fun h => ⟨h.1, h.2.1, h.2.2⟩, fun h => ⟨h.1, h.2, h.3⟩⟩

instance (cs : List Char) : Decidable (RawText cs) :=
  decidable_of_iff (trim cs = cs ∧ rawEnd 0 (pieces (cs ++ ['}'])) = some [])
    ⟨fun h => ⟨h.1, h.2⟩, fun h => ⟨h.1, h.2⟩⟩

/-- A text that is read as one selector. -/
structure SelectorLike (cs : List Char) : Prop where
  /-- There are no blanks at its ends. -/
  trimmed : trim cs = cs
  /-- Reading passes over it, and there are no comments in it. -/
  held : Held Piece.isClean cs
  /-- It is not empty. -/
  nonempty : cs ≠ []
  /-- It is one selector. -/
  commaFree : CommaFree cs

theorem SelectorText.selectorLike {cs : List Char} (h : SelectorText cs) : SelectorLike cs :=
  ⟨h.trimmed, h.closed.held.mono fun _ => Piece.isClean_of_isPlain, h.nonempty, h.commaFree⟩

theorem printSelectors_cons_cons (s s' : String) (ss : List String) :
    printSelectors (s :: s' :: ss) = s.toList ++ ',' :: printSelectors (s' :: ss) := by
  simp [printSelectors, List.intercalate]

theorem held_printSelectors {kind : Piece → Bool} (hk : ∀ p, kind p = true → p.isWhole = true)
    (hcomma : kind (.char ',') = true) {ss : List String} (h : ∀ s ∈ ss, Held kind s.toList) :
    Held kind (printSelectors ss) := by
  induction ss with
  | nil => exact held_nil kind
  | cons s ss ih =>
    obtain ⟨hs, hss⟩ := List.forall_mem_cons.1 h
    cases ss with
    | nil => simpa [printSelectors, List.intercalate] using hs
    | cons s' ss =>
      rw [printSelectors_cons_cons]
      exact Held.join hk (by decide) hcomma rfl rfl hs (ih hss)

theorem closed_printSelectors {ss : List String} (h : ∀ s ∈ ss, SelectorText s.toList) :
    Closed (printSelectors ss) := by
  have hheld := held_printSelectors (fun _ => Piece.isWhole_of_isPlain) rfl
    fun s hs => (h s hs).closed.held
  exact ⟨hheld.kind, hheld.balanced⟩

/-- A selector is passed over with no bracket left open. -/
theorem cutSelectors_selector {cs : List Char} (h : SelectorLike cs) (read rest : List Char) :
    cutSelectors none 0 read (cs ++ rest) = cutSelectors none 0 (cs.reverse ++ read) rest := by
  obtain ⟨d, hd⟩ := Option.ne_none_iff_exists'.1 h.commaFree
  obtain rfl := depthAfter_unique hd h.held.balanced
  have hfit := fitting_pieces fun p hp => Piece.isWhole_of_isClean (h.held.kind p hp)
  have hcomment : ∀ p ∈ pieces cs, p.isComment = false :=
    fun p hp => Piece.isComment_of_isClean (h.held.kind p hp)
  have hcut := cutSelectors_append hfit.wellFormed hcomment hd read rest
  rwa [source_pieces] at hcut

theorem cutSelectors_comma (read rest : List Char) :
    cutSelectors none 0 read (',' :: rest) = read.reverse :: cutSelectors none 0 [] rest := by
  rw [cutSelectors]
  · rfl
  · simp

theorem cutSelectors_printSelectors {s : String} {ss : List String}
    (h : ∀ t ∈ s :: ss, SelectorLike t.toList) :
    cutSelectors none 0 [] (printSelectors (s :: ss)) = (s :: ss).map String.toList := by
  induction ss generalizing s with
  | nil =>
    have hcut := cutSelectors_selector (h s List.mem_cons_self) [] []
    rw [List.append_nil, List.append_nil] at hcut
    simp only [printSelectors, List.map_cons, List.map_nil, List.intercalate, List.intersperse,
      List.flatten_cons, List.flatten_nil, List.append_nil]
    rw [hcut, cutSelectors, List.reverse_reverse]
  | cons s' ss ih =>
    rw [printSelectors_cons_cons, cutSelectors_selector (h s List.mem_cons_self),
      cutSelectors_comma, ih fun t ht => h t (List.mem_cons_of_mem _ ht), List.append_nil,
      List.reverse_reverse]
    rfl

/-- No selector is empty, and trimming changes none. -/
theorem filterMap_selectors {ss : List String} (h : ∀ s ∈ ss, SelectorLike s.toList) :
    (((ss.map String.toList).map trim).filterMap fun cs =>
      if cs.isEmpty then none else some (String.ofList cs)) = ss := by
  induction ss with
  | nil => rfl
  | cons s ss ih =>
    have hs := h s List.mem_cons_self
    have hempty : s.toList.isEmpty = false := by simpa [List.isEmpty_iff] using hs.nonempty
    rw [List.map_cons, List.map_cons, List.filterMap_cons_some (b := s),
      ih fun t ht => h t (List.mem_cons_of_mem _ ht)]
    rw [hs.trimmed, hempty, if_neg (by simp), String.ofList_toList]

/-- Printed selectors are read back. -/
theorem splitSelectors_printSelectors {ss : List String} (h : ∀ s ∈ ss, SelectorLike s.toList)
    (hkept : stripComments (printSelectors ss) = printSelectors ss) :
    splitSelectors (printSelectors ss) = ss := by
  rw [splitSelectors, hkept]
  cases ss with
  | nil => rfl
  | cons s ss =>
    rw [cutSelectors_printSelectors h]
    exact filterMap_selectors h

/-! ### Declarations -/

theorem closed_printDeclaration {p v : String} (hp : PropertyText p.toList)
    (hv : SheetText v.toList) : Closed (printDeclaration p v) := by
  have hheld := Held.join (fun _ => Piece.isWhole_of_isPlain) (c := ':') (by decide) rfl rfl rfl
    hp.closed.held hv.closed.held
  exact ⟨hheld.kind, hheld.balanced⟩

/-- A printed declaration is read back. -/
theorem declaration?_printDeclaration {p v : String}
    (h : stripComments (printDeclaration p v) = printDeclaration p v) (hcolon : ':' ∉ p.toList)
    (hp : trim p.toList = p.toList) (hv : trim v.toList = v.toList) :
    declaration? (printDeclaration p v) = some (.declaration p v) := by
  have htake : (printDeclaration p v).takeWhile (· != ':') = p.toList := by
    rw [printDeclaration, List.takeWhile_append_of_pos]
    · simp
    · intro c hc
      simp only [bne_iff_ne]
      rintro rfl
      exact hcolon hc
  rw [declaration?, h]
  simp only [htake]
  rw [printDeclaration, List.drop_left]
  simp only [hp, hv, String.ofList_toList]

end ComponentCompiler.Style
