import ComponentCompiler.Style.Piece
import Mathlib.Data.List.Chain

/-!
# Cutting a text into pieces

Cutting loses nothing, and a text that ends between two pieces can be cut apart from what follows
it.  Texts are described twice: by the pieces they are cut into, and from the pieces up, as the
sources of a list of pieces that fit together (`Fitting`).  The two descriptions agree, for all
texts whose pieces are complete and for the plain ones among them, which have no comments and no
backslashes outside strings (`Canonical`).

## Main definitions

* `Piece.Settled p rest` — the last piece `p` of a text stays what it is when `rest` follows.
* `isStringBody q cs`, `isCommentBody cs` — `cs` can stand between two quotes `q`, or between the
  marks of a comment.
* `Fitting` — pieces that do not run together to anything else.
* `Canonical` — characters and strings that do not run together to anything else.

## Main results

* `source_pieces` — the sources of the pieces of a text are the text.
* `pieces_append` — a text whose last piece is settled is cut apart from what follows it.
* `fitting_pieces`, `pieces_of_fitting` — the two descriptions agree.
* `canonical_pieces`, `pieces_of_canonical` — the same for plain texts.
-/

namespace ComponentCompiler.Style

/-! ### Nothing is lost -/

/-- What was read of the piece under way. -/
def Cut.underWay : Cut → List Char
  | .outside => []
  | .string q r => q :: r.reverse
  | .comment r => '/' :: '*' :: r.reverse

theorem source_piecesFrom (cut : Cut) (cs : List Char) :
    (piecesFrom cut cs).flatMap Piece.source = cut.underWay ++ cs := by
  fun_induction piecesFrom cut cs with
  | case1 cs ih => simpa [Cut.underWay] using ih
  | case2 c cs ih => simpa [Cut.underWay, Piece.source] using ih
  | case3 c cs _ _ _ ih => simpa [Cut.underWay] using ih
  | case4 c cs _ _ _ ih => simpa [Cut.underWay, Piece.source] using ih
  | case5 => rfl
  | case6 q r c cs ih => simpa [Cut.underWay] using ih
  | case7 q r c cs _ hc ih =>
    obtain rfl : c = q := by simpa using hc
    simpa [Cut.underWay, Piece.source] using ih
  | case8 q r c cs _ _ ih => simpa [Cut.underWay] using ih
  | case9 q r => simp [Cut.underWay, Piece.source]
  | case10 r cs ih => simpa [Cut.underWay, Piece.source] using ih
  | case11 r c cs _ ih => simpa [Cut.underWay] using ih
  | case12 r => simp [Cut.underWay, Piece.source]

/-- The sources of the pieces of a text, one after the other, are the text. -/
theorem source_pieces (cs : List Char) : (pieces cs).flatMap Piece.source = cs :=
  source_piecesFrom .outside cs

/-! ### Reading on behind a text -/

/-- Characters that a class tells apart differ. -/
theorem ne_of_class {p : Char → Bool} {c d : Char} (hc : p c = true) (hd : p d = false) :
    c ≠ d := by
  rintro rfl
  rw [hc] at hd
  cases hd

theorem isQuote_eq_false_of_class {p : Char → Bool} {c : Char} (hc : p c = true)
    (h : p '\x22' = false) (h' : p '\x27' = false) : isQuote c = false := by
  simp [isQuote, ne_of_class hc h, ne_of_class hc h']

theorem ne_backslash_of_isQuote {c : Char} (h : isQuote c = true) : c ≠ '\\' :=
  ne_of_class h rfl

/-- A quote opens a string. -/
theorem piecesFrom_quote {c : Char} (h : isQuote c = true) (cs : List Char) :
    piecesFrom .outside (c :: cs) = piecesFrom (.string c []) cs := by
  rw [piecesFrom, if_pos h]
  · intro _ hc
    exact absurd hc (ne_of_class h rfl)
  · intro _ _ hc
    exact absurd hc (ne_backslash_of_isQuote h)

/-- A character that opens nothing is a piece of its own. -/
theorem piecesFrom_char {c : Char} {cs : List Char} (h : isQuote c = false) (hb : c ≠ '\\')
    (hs : c = '/' → cs.head? ≠ some '*') :
    piecesFrom .outside (c :: cs) = .char c :: piecesFrom .outside cs := by
  rw [piecesFrom, if_neg (by simp [h])]
  · rintro ds hc rfl
    exact hs hc rfl
  · intro _ _ hc
    exact absurd hc hb

/-- Cutting stands in a string only behind a quote. -/
def Cut.Proper : Cut → Prop
  | .string q _ => isQuote q = true
  | _ => True

/-- The last piece of a text stays what it is when `rest` follows: it is complete, and it does not
start a piece together with the next character. -/
def Piece.Settled (rest : List Char) : Piece → Prop
  | .char c => c ≠ '\\' ∧ (c = '/' → rest.head? ≠ some '*')
  | .openString _ _ => False
  | .openComment _ => False
  | _ => True

theorem getLast?_cons_of_mem {p q : Piece} {ps : List Piece} (h : q ∈ ps.getLast?) :
    q ∈ (p :: ps).getLast? := by
  rw [Option.mem_def] at h ⊢
  rw [List.getLast?_cons, h]
  rfl

/-- Behind a text whose last piece is settled, cutting stands between pieces. -/
theorem piecesFrom_append (rest : List Char) (cut : Cut) (cs : List Char) (hcut : cut.Proper)
    (h : ∀ p ∈ (piecesFrom cut cs).getLast?, p.Settled rest) :
    piecesFrom cut (cs ++ rest) = piecesFrom cut cs ++ piecesFrom .outside rest := by
  fun_induction piecesFrom cut cs with
  | case1 cs ih => exact ih trivial h
  | case2 c cs ih =>
    exact congrArg (_ :: ·) (ih trivial fun p hp => h p (getLast?_cons_of_mem hp))
  | case3 c cs _ _ hc ih =>
    rw [List.cons_append, piecesFrom_quote hc]
    exact ih hc h
  | case4 c cs h₁ h₂ hc ih =>
    -- what follows `c` is a character of `cs`, or of `rest` where `c` is the last piece
    have hlast : cs = [] → c ≠ '\\' ∧ (c = '/' → rest.head? ≠ some '*') := by
      rintro rfl
      exact h (.char c) rfl
    rw [List.cons_append, piecesFrom_char (by simpa using hc), List.cons_append,
      ih trivial fun p hp => h p (getLast?_cons_of_mem hp)]
    · cases cs with
      | nil => exact (hlast rfl).1
      | cons d ds => exact fun hb => h₂ d ds hb rfl
    · cases cs with
      | nil => exact (hlast rfl).2
      | cons d ds =>
        intro hs hd
        obtain rfl : d = '*' := by simpa using hd
        exact h₁ ds hs rfl
  | case5 => rfl
  | case6 q r c cs ih => exact ih hcut h
  | case7 q r c cs _ hc ih =>
    have hq : c ≠ '\\' := by
      obtain rfl : c = q := by simpa using hc
      exact ne_backslash_of_isQuote hcut
    rw [List.cons_append, piecesFrom, if_pos hc, List.cons_append,
      ih trivial fun p hp => h p (getLast?_cons_of_mem hp)]
    exact fun _ _ hb => absurd hb hq
  | case8 q r c cs h₁ hc ih =>
    rw [List.cons_append, piecesFrom, if_neg hc, ih hcut h]
    rintro d ds rfl hd
    -- a backslash at the end leaves the string open
    cases cs with
    | nil => exact h (.openString q ('\\' :: r).reverse) rfl
    | cons e es => exact h₁ e es rfl rfl
  | case9 q r => exact (h (.openString q r.reverse) rfl).elim
  | case10 r cs ih =>
    exact congrArg (_ :: ·) (ih trivial fun p hp => h p (getLast?_cons_of_mem hp))
  | case11 r c cs h₁ ih =>
    rw [List.cons_append, piecesFrom, ih trivial h]
    rintro ds rfl hd
    -- an asterisk at the end leaves the comment open
    cases cs with
    | nil => exact h (.openComment ('*' :: r).reverse) rfl
    | cons e es =>
      obtain ⟨rfl, -⟩ : e = '/' ∧ es ++ rest = ds := by simpa using hd
      exact h₁ es rfl rfl
  | case12 r => exact (h (.openComment r.reverse) rfl).elim

/-- A text whose last piece is settled is cut apart from what follows it. -/
theorem pieces_append {cs rest : List Char} (h : ∀ p ∈ (pieces cs).getLast?, p.Settled rest) :
    pieces (cs ++ rest) = pieces cs ++ pieces rest :=
  piecesFrom_append rest .outside cs trivial h

/-! ### Strings and comments -/

/-- Whether a text can stand between two quotes `q`: behind a backslash any character may stand, and
elsewhere no quote. -/
def isStringBody (q : Char) : List Char → Bool
  | '\\' :: _ :: cs => isStringBody q cs
  | c :: cs => c != q && c != '\\' && isStringBody q cs
  | [] => true

theorem isStringBody_append {q : Char} {cs ds : List Char} (h : isStringBody q cs = true)
    (h' : isStringBody q ds = true) : isStringBody q (cs ++ ds) = true := by
  fun_induction isStringBody q cs with
  | case1 c cs ih => exact ih h
  | case2 c cs hcs ih =>
    simp only [Bool.and_eq_true, bne_iff_ne] at h
    rw [List.cons_append, isStringBody]
    · simp only [Bool.and_eq_true, bne_iff_ne]
      exact ⟨h.1, ih h.2⟩
    · exact fun _ _ hb => absurd hb h.1.2
  | case3 => exact h'

/-- A string ends at the quote behind its body. -/
theorem piecesFrom_body {q : Char} (hq : isQuote q = true) {body : List Char}
    (h : isStringBody q body = true) (r cs : List Char) :
    piecesFrom (.string q r) (body ++ q :: cs)
      = .string q (r.reverse ++ body) :: piecesFrom .outside cs := by
  fun_induction isStringBody q body generalizing r with
  | case1 c body ih =>
    rw [List.cons_append, List.cons_append, piecesFrom, ih h]
    simp
  | case2 c body hcs ih =>
    simp only [Bool.and_eq_true, bne_iff_ne] at h
    rw [List.cons_append, piecesFrom, if_neg (by simpa using h.1.1), ih h.2]
    · simp
    · exact fun _ _ hb => absurd hb h.1.2
  | case3 =>
    rw [List.nil_append, piecesFrom, if_pos (beq_self_eq_true q), List.append_nil]
    exact fun _ _ hb => absurd hb (ne_backslash_of_isQuote hq)

/-- Whether a text can stand between the marks of a comment: it does not hold the closing mark. -/
def isCommentBody : List Char → Bool
  | '*' :: '/' :: _ => false
  | _ :: cs => isCommentBody cs
  | [] => true

theorem isCommentBody_concat {body : List Char} {c : Char} (h : isCommentBody body = true)
    (hc : body.getLast? = some '*' → c ≠ '/') : isCommentBody (body ++ [c]) = true := by
  fun_induction isCommentBody body with
  | case1 => cases h
  | case2 d ds hds ih =>
    rw [List.cons_append, isCommentBody]
    · cases ds with
      | nil => simp [isCommentBody]
      | cons e es => exact ih h fun hlast => hc (by simpa using hlast)
    · rintro es rfl hes
      cases ds with
      | nil =>
        obtain ⟨rfl, -⟩ := List.cons.inj hes
        exact hc rfl rfl
      | cons e es =>
        obtain ⟨rfl, -⟩ := List.cons.inj hes
        exact hds _ rfl rfl
  | case3 => simp [isCommentBody]

/-- A comment ends at the mark behind its body. -/
theorem piecesFrom_commentBody {body : List Char} (h : isCommentBody body = true)
    (r cs : List Char) :
    piecesFrom (.comment r) (body ++ '*' :: '/' :: cs)
      = .comment (r.reverse ++ body) :: piecesFrom .outside cs := by
  fun_induction isCommentBody body generalizing r with
  | case1 => cases h
  | case2 d ds hds ih =>
    rw [List.cons_append, piecesFrom, ih h]
    · simp
    · rintro es rfl hes
      cases ds with
      | nil => cases hes
      | cons e ds =>
        obtain ⟨rfl, -⟩ := List.cons.inj hes
        exact hds _ rfl rfl
  | case3 => rw [List.nil_append, piecesFrom, List.append_nil]

/-! ### Pieces that fit together -/

/-- Whether a piece is complete. -/
def Piece.isWhole : Piece → Bool
  | .char c => c != '\\'
  | .openString _ _ => false
  | .openComment _ => false
  | _ => true

/-- Whether a piece is a string or a comment that is never closed. -/
def Piece.isOpen : Piece → Bool
  | .openString _ _ => true
  | .openComment _ => true
  | _ => false

theorem Piece.isWhole_of_isOpen {p : Piece} (h : p.isOpen = false) (hp : p ≠ .char '\\') :
    p.isWhole = true := by
  cases p with
  | char c => simpa [isWhole] using hp
  | openString _ _ => cases h
  | openComment _ => cases h
  | _ => rfl

theorem Piece.isOpen_eq_false {p : Piece} (hstring : ∀ q cs, p ≠ .openString q cs)
    (hcomment : ∀ cs, p ≠ .openComment cs) : p.isOpen = false := by
  cases p with
  | openString q cs => exact absurd rfl (hstring q cs)
  | openComment cs => exact absurd rfl (hcomment cs)
  | _ => rfl

theorem Piece.isOpen_of_isWhole {p : Piece} (h : p.isWhole = true) : p.isOpen = false := by
  cases p with
  | openString _ _ => cases h
  | openComment _ => cases h
  | _ => rfl

/-- A piece that is found again in its source. -/
def Piece.WellFormed : Piece → Prop
  | .char c => isQuote c = false ∧ c ≠ '\\'
  | .escape _ => True
  | .string q body => isQuote q = true ∧ isStringBody q body = true
  | .comment body => isCommentBody body = true
  | _ => False

theorem Piece.WellFormed.isWhole {p : Piece} (h : p.WellFormed) : p.isWhole = true := by
  cases p with
  | char c => simpa [Piece.isWhole] using h.2
  | openString _ _ => exact h.elim
  | openComment _ => exact h.elim
  | _ => rfl

/-- No piece that is a slash stands in front of an asterisk; `slash` says which ones are. -/
def Parted (slash : Piece → Prop) (ps : List Piece) : Prop :=
  ps.IsChain fun p q => ¬ (slash p ∧ q = .char '*')

instance (slash : Piece → Prop) [DecidablePred slash] (ps : List Piece) :
    Decidable (Parted slash ps) :=
  inferInstanceAs (Decidable (List.IsChain _ _))

/-- Pieces that stay apart when their sources are written one after the other. -/
structure Fitting (ps : List Piece) : Prop where
  /-- Each piece is found again in its source. -/
  wellFormed : ∀ p ∈ ps, p.WellFormed
  /-- No two characters run together to the mark of a comment. -/
  parted : Parted (· = .char '/') ps

theorem head?_of_head?_pieces {cs : List Char} {c : Char}
    (h : (piecesFrom .outside cs).head? = some (.char c)) : cs.head? = some c := by
  have hsource := source_pieces cs
  obtain ⟨ps, hps⟩ := List.head?_eq_some_iff.1 h
  rw [pieces, hps] at hsource
  rw [← hsource]
  rfl

/-- Where cutting may stand in front of a text: what was read of a string or a comment can stand in
one, and the closing mark of a comment is not under way. -/
def Cut.Fits : Cut → List Char → Prop
  | .outside, _ => True
  | .string q r, _ => isQuote q = true ∧ isStringBody q r.reverse = true
  | .comment r, cs => isCommentBody r.reverse = true ∧ (r.head? = some '*' → cs.head? ≠ some '/')

/-- A character behind a backslash is part of the string under way. -/
theorem Cut.Fits.escape {q : Char} {r cs : List Char} (h : (Cut.string q r).Fits cs) (c : Char)
    (ds : List Char) : (Cut.string q (c :: '\\' :: r)).Fits ds := by
  refine ⟨h.1, ?_⟩
  rw [List.reverse_cons, List.reverse_cons, List.append_assoc]
  exact isStringBody_append h.2 rfl

/-- So is any other character but its quote. -/
theorem Cut.Fits.char {q c : Char} {r cs : List Char} (h : (Cut.string q r).Fits cs)
    (hc : ¬ (c == q) = true) (hb : c ≠ '\\') (ds : List Char) :
    (Cut.string q (c :: r)).Fits ds := by
  refine ⟨h.1, ?_⟩
  rw [List.reverse_cons]
  refine isStringBody_append h.2 ?_
  simp only [isStringBody, Bool.and_true, Bool.and_eq_true, bne_iff_ne]
  exact ⟨by simpa using hc, hb⟩

/-- A character that does not start the closing mark is part of the comment under way. -/
theorem Cut.Fits.inside {c : Char} {r cs : List Char} (h : (Cut.comment r).Fits (c :: cs))
    (hmark : ∀ ds, c = '*' → cs = '/' :: ds → False) : (Cut.comment (c :: r)).Fits cs := by
  refine ⟨?_, fun hc => ?_⟩
  · rw [List.reverse_cons]
    refine isCommentBody_concat h.1 fun hlast => ?_
    rw [List.getLast?_reverse] at hlast
    simpa using h.2 hlast
  · obtain rfl : c = '*' := by simpa using hc
    intro hslash
    obtain ⟨ds, rfl⟩ := List.head?_eq_some_iff.1 hslash
    exact hmark ds rfl rfl

/-- Cutting gives pieces that are found again in their sources, as far as they are complete. -/
theorem wellFormed_piecesFrom (cut : Cut) (cs : List Char) (hcut : cut.Fits cs) :
    ∀ p ∈ piecesFrom cut cs, p.isWhole = true → p.WellFormed := by
  fun_induction piecesFrom cut cs with
  | case1 cs ih => exact ih ⟨rfl, by simp⟩
  | case2 c cs ih => exact List.forall_mem_cons.2 ⟨fun _ => trivial, ih trivial⟩
  | case3 c cs _ _ hc ih => exact ih ⟨hc, rfl⟩
  | case4 c cs _ _ hc ih =>
    refine List.forall_mem_cons.2 ⟨fun hwhole => ⟨by simpa using hc, ?_⟩, ih trivial⟩
    simpa [Piece.isWhole] using hwhole
  | case5 => simp
  | case6 q r c cs ih => exact ih (hcut.escape c cs)
  | case7 q r c cs _ _ ih => exact List.forall_mem_cons.2 ⟨fun _ => hcut, ih trivial⟩
  | case8 q r c cs h₁ hc ih =>
    by_cases hb : c = '\\'
    · -- a backslash with nothing behind it leaves the string open
      obtain rfl : cs = [] := by
        cases cs with
        | nil => rfl
        | cons d ds => exact (h₁ d ds hb rfl).elim
      simp [piecesFrom, Piece.isWhole]
    · exact ih (hcut.char hc hb cs)
  | case9 q r => simp [Piece.isWhole]
  | case10 r cs ih => exact List.forall_mem_cons.2 ⟨fun _ => hcut.1, ih trivial⟩
  | case11 r c cs h₁ ih => exact ih (hcut.inside h₁)
  | case12 r => simp [Piece.isWhole]

section Parted

variable {slash slash' : Piece → Prop} {p : Piece} {ps qs : List Piece}

theorem parted_cons :
    Parted slash (p :: ps) ↔ (slash p → ps.head? ≠ some (.char '*')) ∧ Parted slash ps := by
  rw [Parted, List.isChain_cons]
  refine and_congr_left fun _ => ⟨fun h hp hps => h _ hps ⟨hp, rfl⟩, ?_⟩
  rintro h q hq ⟨hp, rfl⟩
  exact h hp hq

theorem parted_append :
    Parted slash (ps ++ qs) ↔ Parted slash ps ∧ Parted slash qs ∧
      ∀ p, ps.getLast? = some p → slash p → qs.head? ≠ some (.char '*') := by
  rw [Parted, List.isChain_append]
  refine and_congr_right fun _ => and_congr_right fun _ =>
    ⟨fun h p hp hslash hq => h p hp _ hq ⟨hslash, rfl⟩, ?_⟩
  rintro h p hp q hq ⟨hslash, rfl⟩
  exact h p hp hslash hq

theorem Parted.mono (h : Parted slash ps) (himp : ∀ p ∈ ps, slash' p → slash p) :
    Parted slash' ps := by
  induction ps with
  | nil => exact .nil
  | cons p ps ih =>
    obtain ⟨hp, hps⟩ := List.forall_mem_cons.1 himp
    obtain ⟨hmeet, h⟩ := parted_cons.1 h
    exact parted_cons.2 ⟨fun hslash => hmeet (hp hslash), ih h hps⟩

theorem Parted.of_within (h : Parted slash ps) (hqs : qs <:+: ps) : Parted slash qs := by
  obtain ⟨as, bs, rfl⟩ := hqs
  exact (parted_append.1 (parted_append.1 h).1).2.1

end Parted

/-- Cutting leaves no slash in front of an asterisk: the two open a comment. -/
theorem parted_piecesFrom (cut : Cut) (cs : List Char) :
    Parted (· = .char '/') (piecesFrom cut cs) := by
  fun_induction piecesFrom cut cs with
  | case1 cs ih => exact ih
  | case2 c cs ih => exact parted_cons.2 ⟨by simp, ih⟩
  | case3 c cs _ _ hc ih => exact ih
  | case4 c cs h₁ _ hc ih =>
    refine parted_cons.2 ⟨fun hs hhead => ?_, ih⟩
    obtain ⟨ds, rfl⟩ := List.head?_eq_some_iff.1 (head?_of_head?_pieces hhead)
    exact h₁ ds (by simpa using hs) rfl
  | case5 => exact .nil
  | case6 q r c cs ih => exact ih
  | case7 q r c cs _ _ ih => exact parted_cons.2 ⟨by simp, ih⟩
  | case8 q r c cs h₁ hc ih => exact ih
  | case9 q r => exact .singleton _
  | case10 r cs ih => exact parted_cons.2 ⟨by simp, ih⟩
  | case11 r c cs h₁ ih => exact ih
  | case12 r => exact .singleton _

/-- The pieces of a text without an open end fit together. -/
theorem fitting_pieces {cs : List Char} (h : ∀ p ∈ pieces cs, p.isWhole = true) :
    Fitting (pieces cs) :=
  ⟨fun p hp => wellFormed_piecesFrom .outside cs trivial p hp (h p hp),
    parted_piecesFrom .outside cs⟩

theorem fitting_nil : Fitting [] := ⟨by simp, .nil⟩

theorem fitting_append {ps qs : List Piece} :
    Fitting (ps ++ qs) ↔ Fitting ps ∧ Fitting qs ∧
      (ps.getLast? = some (.char '/') → qs.head? ≠ some (.char '*')) := by
  constructor
  · rintro ⟨hwell, hparted⟩
    obtain ⟨hps, hqs, hmeet⟩ := parted_append.1 hparted
    obtain ⟨hwellps, hwellqs⟩ := List.forall_mem_append.1 hwell
    exact ⟨⟨hwellps, hps⟩, ⟨hwellqs, hqs⟩, fun hlast => hmeet _ hlast rfl⟩
  · rintro ⟨hps, hqs, hmeet⟩
    refine ⟨List.forall_mem_append.2 ⟨hps.1, hqs.1⟩, parted_append.2 ⟨hps.2, hqs.2, ?_⟩⟩
    rintro p hlast rfl
    exact hmeet hlast

theorem Fitting.of_within {ps qs : List Piece} (h : Fitting ps) (hqs : qs <:+: ps) : Fitting qs :=
  ⟨fun p hp => h.wellFormed p (hqs.subset hp), h.parted.of_within hqs⟩

theorem fitting_cons {p : Piece} {ps : List Piece} :
    Fitting (p :: ps) ↔
      p.WellFormed ∧ Fitting ps ∧ (p = .char '/' → ps.head? ≠ some (.char '*')) := by
  constructor
  · rintro ⟨hwell, hparted⟩
    obtain ⟨hmeet, hps⟩ := parted_cons.1 hparted
    obtain ⟨hp, hwellps⟩ := List.forall_mem_cons.1 hwell
    exact ⟨hp, ⟨hwellps, hps⟩, hmeet⟩
  · rintro ⟨hp, hps, hmeet⟩
    exact ⟨List.forall_mem_cons.2 ⟨hp, hps.1⟩, parted_cons.2 ⟨hmeet, hps.2⟩⟩

/-- One piece is what its source is cut into. -/
theorem pieces_source {p : Piece} (h : p.WellFormed) : pieces p.source = [p] := by
  cases p with
  | char c => exact piecesFrom_char h.1 h.2 fun _ => by simp
  | escape c => rfl
  | string q body =>
    rw [pieces, Piece.source, List.cons_append, piecesFrom_quote h.1, piecesFrom_body h.1 h.2]
    rfl
  | comment body =>
    have hcut := piecesFrom_commentBody h [] []
    rw [List.reverse_nil, List.nil_append] at hcut
    exact hcut
  | _ => exact h.elim

theorem head?_source {ps : List Piece} (h : ∀ p ∈ ps, p.WellFormed)
    (hstar : (ps.flatMap Piece.source).head? = some '*') : ps.head? = some (.char '*') := by
  cases ps with
  | nil => cases hstar
  | cons p ps =>
    have hp := h p List.mem_cons_self
    cases p with
    | char c =>
      obtain rfl : c = '*' := by simpa [Piece.source] using hstar
      rfl
    | string q body =>
      obtain rfl : q = '*' := by simpa [Piece.source] using hstar
      cases hp.1
    | escape c => simp [Piece.source] at hstar
    | comment body => simp [Piece.source] at hstar
    | _ => exact hp.elim

/-- Pieces that fit together are what their sources are cut into. -/
theorem pieces_of_fitting {ps : List Piece} (h : Fitting ps) :
    pieces (ps.flatMap Piece.source) = ps := by
  induction ps with
  | nil => rfl
  | cons p ps ih =>
    obtain ⟨hp, hps, hmeet⟩ := fitting_cons.1 h
    have hcut := pieces_source hp
    rw [List.flatMap_cons, pieces_append, hcut, ih hps, List.singleton_append]
    rw [hcut]
    rintro q ⟨⟩
    cases p with
    | char c => exact ⟨hp.2, fun hc hstar => hmeet (by rw [hc]) (head?_source hps.1 hstar)⟩
    | openString _ _ => exact hp
    | openComment _ => exact hp
    | _ => exact trivial

/-! ### Plain texts -/

/-- The pieces of texts without comments and without backslashes outside strings. -/
def Piece.isPlain : Piece → Bool
  | .char c => c != '\\'
  | .string _ _ => true
  | _ => false

/-- Characters and strings that stay apart when their sources are written one after the other. -/
def Canonical : List Piece → Prop
  | [] => True
  | .char c :: ps =>
      isQuote c = false ∧ c ≠ '\\' ∧ (c = '/' → ps.head? ≠ some (.char '*')) ∧ Canonical ps
  | .string q body :: ps => isQuote q = true ∧ isStringBody q body = true ∧ Canonical ps
  | _ :: _ => False

/-- Canonical lists are the plain ones among those that fit together. -/
theorem canonical_iff {ps : List Piece} :
    Canonical ps ↔ Fitting ps ∧ ∀ p ∈ ps, p.isPlain = true := by
  induction ps with
  | nil => exact ⟨fun _ => ⟨fitting_nil, by simp⟩, fun _ => trivial⟩
  | cons p ps ih =>
    rw [fitting_cons, List.forall_mem_cons]
    cases p with
    | char c =>
      simp only [Canonical, ih, Piece.WellFormed, Piece.isPlain]
      grind
    | string q body =>
      simp only [Canonical, ih, Piece.WellFormed, Piece.isPlain]
      grind
    | _ => simp [Canonical, Piece.isPlain]

theorem Piece.isWhole_of_isPlain {p : Piece} (h : p.isPlain = true) : p.isWhole = true := by
  cases p with
  | char c => exact h
  | string q body => rfl
  | _ => cases h

/-- The pieces of a plain text are canonical. -/
theorem canonical_pieces {cs : List Char} (h : ∀ p ∈ pieces cs, p.isPlain = true) :
    Canonical (pieces cs) :=
  canonical_iff.2 ⟨fitting_pieces fun p hp => Piece.isWhole_of_isPlain (h p hp), h⟩

/-- A canonical list is what its sources are cut into. -/
theorem pieces_of_canonical {ps : List Piece} (h : Canonical ps) :
    pieces (ps.flatMap Piece.source) = ps :=
  pieces_of_fitting (canonical_iff.1 h).1

theorem Canonical.tail {p : Piece} {ps : List Piece} (h : Canonical (p :: ps)) : Canonical ps := by
  cases p with
  | char c => exact h.2.2.2
  | string q body => exact h.2.2
  | _ => exact h.elim

theorem Canonical.isPlain {ps : List Piece} (h : Canonical ps) : ∀ p ∈ ps, p.isPlain = true :=
  (canonical_iff.1 h).2

/-- A canonical list may be cut anywhere. -/
theorem Canonical.of_append {ps qs : List Piece} (h : Canonical (ps ++ qs)) :
    Canonical ps ∧ Canonical qs := by
  obtain ⟨hfit, hplain⟩ := canonical_iff.1 h
  obtain ⟨hps, hqs, -⟩ := fitting_append.1 hfit
  obtain ⟨hplainps, hplainqs⟩ := List.forall_mem_append.1 hplain
  exact ⟨canonical_iff.2 ⟨hps, hplainps⟩, canonical_iff.2 ⟨hqs, hplainqs⟩⟩

/-- Canonical lists may be joined unless a slash meets an asterisk. -/
theorem Canonical.append {ps qs : List Piece} (hps : Canonical ps) (hqs : Canonical qs)
    (h : ps.getLast? = some (.char '/') → qs.head? ≠ some (.char '*')) :
    Canonical (ps ++ qs) := by
  obtain ⟨hfitps, hplainps⟩ := canonical_iff.1 hps
  obtain ⟨hfitqs, hplainqs⟩ := canonical_iff.1 hqs
  exact canonical_iff.2 ⟨fitting_append.2 ⟨hfitps, hfitqs, h⟩,
    List.forall_mem_append.2 ⟨hplainps, hplainqs⟩⟩

end ComponentCompiler.Style
