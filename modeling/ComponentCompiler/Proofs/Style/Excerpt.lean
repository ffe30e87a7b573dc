import Mathlib.Data.List.Induction
import Mathlib.Data.List.Infix
import ComponentCompiler.Proofs.Style.Shape
import ComponentCompiler.Proofs.Style.Watch

/-!
# Excerpts of a stylesheet

The texts in a stylesheet that was read are excerpts of what was read: consecutive pieces of it,
without comments and without blanks around them.  Taking an excerpt keeps the pieces what they are,
so that the text is read as before wherever it is printed, as long as trimming does not cut an
escape in half (`Firm`), and removing comments takes away all of them and nothing else and brings
nothing together (`Separable`).

## Main definitions

* `Firm` — texts that do not end with half an escape.
* `Bare ps ms` — the pieces `ms` are `ps` without blanks around them.
* `Neat` — pieces that stay apart, and no comments among them.
* `Separable` — pieces from which comments can be removed.
* `Steady` — texts in which comments can be removed from the head of every rule and declaration.

## Main results

* `exists_bare` — trimming a text leaves out blanks around its pieces and nothing else.
* `steady_of_tame` — texts with harmless backslashes are steady.
* `selectorLike_of_mem_splitSelectors` — the selectors in front of a block are read as selectors.
* `legible_declaration` — a declaration is read as the same declaration.
* `preludeText_trim`, `rawText_trim` — the texts behind a name with an at-sign are passed over as
  they were.
-/

namespace ComponentCompiler.Style

open Text (trim trimStart trimEnd isBlank)

/-! ### Trimming pieces -/

/-- Whether a piece is a blank. -/
def Piece.isBlankChar : Piece → Bool
  | .char c => isBlank c
  | _ => false

theorem isBlank_eq_false_of_isQuote {q : Char} (h : isQuote q = true) : isBlank q = false := by
  simp only [isQuote, Bool.or_eq_true, beq_iff_eq] at h
  rcases h with rfl | rfl <;> decide

/-- A piece that is no blank does not start with one. -/
theorem head?_source_not_blank {p : Piece} (hp : p.WellFormed) (hb : p.isBlankChar = false) :
    ∃ c cs, p.source = c :: cs ∧ isBlank c = false := by
  cases p with
  | char c => exact ⟨c, [], rfl, hb⟩
  | escape c => exact ⟨'\\', [c], rfl, by decide⟩
  | string q body => exact ⟨q, body ++ [q], rfl, isBlank_eq_false_of_isQuote hp.1⟩
  | comment body => exact ⟨'/', '*' :: body ++ ['*', '/'], rfl, by decide⟩
  | _ => exact hp.elim

theorem trimStart_source {ps : List Piece} (h : ∀ p ∈ ps, p.WellFormed) {t : List Char}
    (ht : ∀ c, t.head? = some c → isBlank c = false) :
    ∃ bs ms, ps = bs ++ ms ∧ (∀ p ∈ bs, p.isBlankChar = true) ∧
      trimStart (ps.flatMap Piece.source ++ t) = ms.flatMap Piece.source ++ t := by
  induction ps with
  | nil => exact ⟨[], [], rfl, by simp, (Text.trimStart_eq_self_iff t).2 ht⟩
  | cons p ps ih =>
    obtain ⟨hp, hps⟩ := List.forall_mem_cons.1 h
    cases hb : p.isBlankChar with
    | true =>
      obtain ⟨bs, ms, rfl, hbs, htrim⟩ := ih hps
      refine ⟨p :: bs, ms, rfl, List.forall_mem_cons.2 ⟨hb, hbs⟩, ?_⟩
      cases p with
      | char c =>
        rw [List.flatMap_cons, Piece.source, List.append_assoc, List.singleton_append,
          Text.trimStart_blank_cons hb, htrim]
      | _ => cases hb
    | false =>
      obtain ⟨c, cs', hsource, hc⟩ := head?_source_not_blank hp hb
      refine ⟨[], p :: ps, rfl, by simp, (Text.trimStart_eq_self_iff _).2 fun d hd => ?_⟩
      obtain rfl : c = d := by simpa [hsource] using hd
      exact hc

/-- A piece ends with a blank if it is one or escapes one, and only then. -/
theorem getLast?_source_cases {p : Piece} (hp : p.WellFormed) :
    (∃ c, p = .char c ∧ isBlank c = true) ∨ (∃ c, p = .escape c ∧ isBlank c = true) ∨
      ∃ cs c, p.source = cs ++ [c] ∧ isBlank c = false := by
  cases p with
  | char c =>
    cases hc : isBlank c with
    | true => exact .inl ⟨c, rfl, hc⟩
    | false => exact .inr (.inr ⟨[], c, rfl, hc⟩)
  | escape c =>
    cases hc : isBlank c with
    | true => exact .inr (.inl ⟨c, rfl, hc⟩)
    | false => exact .inr (.inr ⟨['\\'], c, rfl, hc⟩)
  | string q body => exact .inr (.inr ⟨q :: body, q, rfl, isBlank_eq_false_of_isQuote hp.1⟩)
  | comment body =>
    exact .inr (.inr ⟨'/' :: '*' :: body ++ ['*'], '/', by simp [Piece.source], by decide⟩)
  | _ => exact hp.elim

/-- What is left of pieces when blanks are cut off behind them: whole pieces, and then the backslash
of an escaped blank if the last one was that. -/
theorem trimEnd_source {ps : List Piece} (h : ∀ p ∈ ps, p.WellFormed) {t : List Char}
    (ht : ∀ c, t.getLast? = some c → isBlank c = false) :
    ∃ ms bs, (∀ p ∈ bs, p.isBlankChar = true) ∧
      (ps = ms ++ bs ∧ trimEnd (t ++ ps.flatMap Piece.source) = t ++ ms.flatMap Piece.source ∨
        (∃ c, ps = ms ++ .escape c :: bs) ∧
          trimEnd (t ++ ps.flatMap Piece.source) = t ++ (ms.flatMap Piece.source ++ ['\\'])) := by
  induction ps using List.reverseRecOn with
  | nil => exact ⟨[], [], by simp, .inl ⟨rfl, by simpa using (Text.trimEnd_eq_self_iff t).2 ht⟩⟩
  | append_singleton ps p ih =>
    obtain ⟨hps, hp⟩ := List.forall_mem_append.1 h
    have hsource : t ++ (ps ++ [p]).flatMap Piece.source
        = t ++ ps.flatMap Piece.source ++ p.source := by simp
    rw [hsource]
    obtain ⟨c, rfl, hc⟩ | ⟨c, rfl, hc⟩ | ⟨cs, c, hlast, hc⟩ :=
      getLast?_source_cases (hp p (by simp))
    · obtain ⟨ms, bs, hbs, hcut⟩ := ih hps
      have hblank : ∀ p ∈ [Piece.char c], p.isBlankChar = true := List.forall_mem_singleton.2 hc
      refine ⟨ms, bs ++ [.char c], List.forall_mem_append.2 ⟨hbs, hblank⟩, ?_⟩
      rw [Piece.source, Text.trimEnd_concat_blank hc]
      rcases hcut with ⟨rfl, htrim⟩ | ⟨⟨d, rfl⟩, htrim⟩
      · exact .inl ⟨by simp, htrim⟩
      · exact .inr ⟨⟨d, by simp⟩, htrim⟩
    · -- the blank of an escape is cut off, and its backslash stays behind
      refine ⟨ps, [], by simp, .inr ⟨⟨c, rfl⟩, ?_⟩⟩
      have hhalf : t ++ ps.flatMap Piece.source ++ (Piece.escape c).source
          = t ++ (ps.flatMap Piece.source ++ ['\\']) ++ [c] := by simp [Piece.source]
      rw [hhalf, Text.trimEnd_concat_blank hc, ← List.append_assoc]
      exact Text.trimEnd_append_cons (by decide) _ []
    · refine ⟨ps ++ [p], [], by simp, .inl ⟨by simp, ?_⟩⟩
      rw [hsource, hlast, ← List.append_assoc]
      exact Text.trimEnd_append_cons hc _ []

/-- A text that does not end with half an escape, a backslash that escapes nothing. -/
def Firm (cs : List Char) : Prop := (pieces cs).getLast? ≠ some (.char '\\')

instance (cs : List Char) : Decidable (Firm cs) := inferInstanceAs (Decidable (_ ≠ _))

theorem not_firm_half {ps : List Piece} (h : Fitting ps) :
    ¬ Firm (ps.flatMap Piece.source ++ ['\\']) := by
  have hpieces := pieces_of_fitting h
  rw [Firm, pieces_append_of_whole, hpieces]
  · simp [pieces, piecesFrom, isQuote]
  · rw [hpieces]
    exact fun p hp => (h.wellFormed p hp).isWhole
  · simp

/-- The pieces `ms` are `ps` without blanks around them. -/
def Bare (ps ms : List Piece) : Prop :=
  ∃ bs bs', ps = bs ++ (ms ++ bs') ∧ (∀ p ∈ bs, p.isBlankChar = true) ∧
    ∀ p ∈ bs', p.isBlankChar = true

theorem Bare.within {ps ms : List Piece} (h : Bare ps ms) : ms <:+: ps := by
  obtain ⟨bs, bs', rfl, -, -⟩ := h
  exact ⟨bs, bs', by simp⟩

/-- The pieces `ms` are `ps` without blanks around them and without the escape in which they end. -/
def Halved (ps ms : List Piece) : Prop := ∃ c, Bare ps (ms ++ [.escape c])

theorem Halved.within {ps ms : List Piece} (h : Halved ps ms) : ms <:+: ps := by
  obtain ⟨c, h⟩ := h
  exact List.IsInfix.trans ⟨[], [.escape c], rfl⟩ h.within

/-- Behind a text that ends with no blank, trimming leaves out blanks around the pieces, or it cuts
an escape in half. -/
theorem exists_append_bare {ps : List Piece} (h : ∀ p ∈ ps, p.WellFormed) {t : List Char}
    (ht : ∀ c, t.getLast? = some c → isBlank c = false) :
    ∃ ms, Bare ps ms ∧
        trim (t ++ ps.flatMap Piece.source) = trimStart t ++ ms.flatMap Piece.source ∨
      Halved ps ms ∧
        trim (t ++ ps.flatMap Piece.source)
          = trimStart t ++ (ms.flatMap Piece.source ++ ['\\']) := by
  -- blanks in front of the pieces are cut off only if nothing stands before them
  cases t using List.reverseRecOn with
  | nil =>
    obtain ⟨bs, ns, rfl, hbs, hstart⟩ := trimStart_source h (t := []) (by simp)
    obtain ⟨ms, bs', hbs', hcut⟩ :=
      trimEnd_source (fun p hp => h p (List.mem_append_right bs hp)) (t := []) (by simp)
    rw [List.append_nil, List.append_nil] at hstart
    rw [List.nil_append, trim, hstart]
    rcases hcut with ⟨rfl, hend⟩ | ⟨⟨c, rfl⟩, hend⟩
    · exact ⟨ms, .inl ⟨⟨bs, bs', rfl, hbs, hbs'⟩, hend⟩⟩
    · exact ⟨ms, .inr ⟨⟨c, bs, bs', by simp, hbs, hbs'⟩, hend⟩⟩
  | append_singleton t c =>
    have hc := Text.trimStart_append_cons (ht c (by simp)) t
    obtain ⟨ms, bs, hbs, hcut⟩ :=
      trimEnd_source h (t := trimStart t ++ [c]) (by simpa using ht)
    have hstart : trimStart (t ++ [c] ++ ps.flatMap Piece.source)
        = trimStart t ++ [c] ++ ps.flatMap Piece.source := by
      rw [List.append_assoc, List.singleton_append, hc]
      simp
    rw [trim, hstart, hc []]
    rcases hcut with ⟨hps, hend⟩ | ⟨⟨d, hps⟩, hend⟩
    · exact ⟨ms, .inl ⟨⟨[], bs, hps, by simp, hbs⟩, hend⟩⟩
    · exact ⟨ms, .inr ⟨⟨d, [], bs, by simp [hps], by simp, hbs⟩, hend⟩⟩

/-- Trimming a text leaves out blanks around its pieces and nothing else, unless it cuts an escape
in half. -/
theorem exists_bare {ps : List Piece} (h : Fitting ps)
    (hfirm : Firm (trim (ps.flatMap Piece.source))) :
    ∃ ms, Bare ps ms ∧ trim (ps.flatMap Piece.source) = ms.flatMap Piece.source := by
  obtain ⟨ms, ⟨hms, htrim⟩ | ⟨hms, htrim⟩⟩ := exists_append_bare h.wellFormed (t := []) (by simp)
  · exact ⟨ms, hms, htrim⟩
  · rw [List.nil_append] at htrim
    rw [htrim] at hfirm
    exact (not_firm_half (h.of_within hms.within) hfirm).elim

/-- In front of a text that starts with no blank, trimming leaves out blanks around the pieces, or
it cuts an escape in half and nothing stands behind it. -/
theorem exists_bare_append {ps : List Piece} (h : ∀ p ∈ ps, p.WellFormed) {t : List Char}
    (ht : ∀ c, t.head? = some c → isBlank c = false) :
    ∃ ms, Bare ps ms ∧
        trim (ps.flatMap Piece.source ++ t) = ms.flatMap Piece.source ++ trimEnd t ∨
      t = [] ∧ Halved ps ms ∧
        trim (ps.flatMap Piece.source ++ t) = ms.flatMap Piece.source ++ ['\\'] := by
  cases t with
  | nil =>
    rw [List.append_nil]
    obtain ⟨ms, ⟨hms, htrim⟩ | ⟨hms, htrim⟩⟩ := exists_append_bare h (t := []) (by simp)
    · exact ⟨ms, .inl ⟨hms, htrim.trans (List.append_nil _).symm⟩⟩
    · exact ⟨ms, .inr ⟨rfl, hms, htrim⟩⟩
  | cons c t =>
    -- the first character behind the pieces stays, and with it all that stands in front
    obtain ⟨bs, ms, rfl, hbs, hstart⟩ := trimStart_source h ht
    refine ⟨ms, .inl ⟨⟨bs, [], by simp, hbs, by simp⟩, ?_⟩⟩
    have hend : trimEnd (c :: t) = c :: trimEnd t := Text.trimEnd_append_cons (ht c rfl) [] t
    rw [trim, hstart, Text.trimEnd_append_cons (ht c rfl), hend]

/-- A text without blanks around it that does not end with half an escape is made of whole
pieces. -/
theorem fitting_of_firm {cs : List Char} {qs : List Piece} (hqs : qs <:+: pieces cs)
    (hopen : ∀ p ∈ qs, p.isOpen = false) (hfirm : Firm (trim (qs.flatMap Piece.source))) :
    Fitting qs := by
  obtain ⟨ps, lone, rfl, hfit, rfl | rfl⟩ := exists_lone hqs hopen
  · rwa [List.append_nil]
  · -- the backslash at the end of the text would stay behind
    obtain ⟨bs, ms, rfl, -, hstart⟩ :=
      trimStart_source hfit.wellFormed (t := ['\\']) (by simp [isBlank])
    have htrim : trim ((bs ++ ms ++ [Piece.char '\\']).flatMap Piece.source)
        = ms.flatMap Piece.source ++ ['\\'] := by
      rw [List.flatMap_append, trim]
      exact (congrArg trimEnd hstart).trans (Text.trimEnd_append_cons (by decide) _ [])
    rw [htrim] at hfirm
    exact (not_firm_half (hfit.of_within ⟨bs, [], by simp⟩) hfirm).elim

/-- Blanks open and close no brackets. -/
theorem depthAfter_blanks {stop : Char → Bool} (hstop : ∀ c, isBlank c = true → stop c = false)
    {bs : List Piece} (h : ∀ p ∈ bs, p.isBlankChar = true) (depth : Nat) :
    depthAfter stop depth bs = some depth := by
  induction bs with
  | nil => rfl
  | cons p bs ih =>
    obtain ⟨hp, hbs⟩ := List.forall_mem_cons.1 h
    cases p with
    | char c =>
      have hc : isBlank c = true := hp
      have hdepth : Reader.bracketDepth depth c = depth := by
        simp [Reader.bracketDepth, ne_of_class hc (show isBlank '(' = false by decide),
          ne_of_class hc (show isBlank '[' = false by decide),
          ne_of_class hc (show isBlank ')' = false by decide),
          ne_of_class hc (show isBlank ']' = false by decide)]
      rw [depthAfter, hstop c hc, Bool.and_false, if_neg (by simp), hdepth, ih hbs]
    | _ => cases hp

theorem Bare.depthAfter_eq {stop : Char → Bool} (hstop : ∀ c, isBlank c = true → stop c = false)
    {ps ms : List Piece} (h : Bare ps ms) (depth : Nat) :
    depthAfter stop depth ms = depthAfter stop depth ps := by
  obtain ⟨bs, bs', rfl, hbs, hbs'⟩ := h
  rw [depthAfter_append, depthAfter_blanks hstop hbs, Option.bind_some, depthAfter_append]
  cases depthAfter stop depth ms with
  | none => rfl
  | some d => rw [Option.bind_some, depthAfter_blanks hstop hbs']

/-- An escape opens and closes no brackets. -/
theorem Halved.depthAfter_eq {stop : Char → Bool} (hstop : ∀ c, isBlank c = true → stop c = false)
    {ps ms : List Piece} (h : Halved ps ms) (depth : Nat) :
    depthAfter stop depth ms = depthAfter stop depth ps := by
  obtain ⟨c, h⟩ := h
  rw [← h.depthAfter_eq hstop, depthAfter_append]
  cases depthAfter stop depth ms <;> rfl

theorem isItemEnd_eq_false_of_isBlank (c : Char) (h : isBlank c = true) : isItemEnd c = false := by
  simp [isItemEnd, ne_of_class h (show isBlank '{' = false by decide),
    ne_of_class h (show isBlank ';' = false by decide),
    ne_of_class h (show isBlank '}' = false by decide)]

/-! ### Pieces without comments -/

/-- Pieces that stay apart when their sources are written one after the other, and no comments among
them. -/
structure Neat (ks : List Piece) : Prop extends Fitting ks where
  /-- None is a comment. -/
  not_comment : ∀ p ∈ ks, p.isComment = false

theorem Neat.of_within {ks ms : List Piece} (h : Neat ks) (hms : ms <:+: ks) : Neat ms :=
  ⟨h.toFitting.of_within hms, fun p hp => h.not_comment p (hms.subset hp)⟩

/-- Neat pieces may stand around one that is neither a slash nor an asterisk. -/
theorem Neat.around {ms ns : List Piece} (hms : Neat ms) (hns : Neat ns) {p : Piece}
    (hwell : p.WellFormed) (hcomment : p.isComment = false) (hslash : p ≠ .char '/')
    (hstar : p ≠ .char '*') : Neat (ms ++ p :: ns) := by
  refine ⟨fitting_append.2 ⟨hms.toFitting, fitting_cons.2 ⟨hwell, hns.toFitting, ?_⟩, ?_⟩, ?_⟩
  · exact fun hp => absurd hp hslash
  · exact fun _ hhead => hstar (by simpa using hhead)
  · exact List.forall_mem_append.2
      ⟨hms.not_comment, List.forall_mem_cons.2 ⟨hcomment, hns.not_comment⟩⟩

theorem Neat.held {ks : List Piece} (h : Neat ks) (hbal : depthAfter isItemEnd 0 ks = some 0) :
    Held Piece.isClean (ks.flatMap Piece.source) := by
  have hpieces := pieces_of_fitting h.toFitting
  constructor
  · rw [hpieces]
    intro p hp
    rw [Piece.isClean, (h.wellFormed p hp).isWhole, h.not_comment p hp]
    rfl
  · rw [hpieces, hbal]

/-- The pieces that are no comments. -/
def keptPieces (qs : List Piece) : List Piece := qs.filter fun p => !p.isComment

theorem depthAfter_keptPieces (stop : Char → Bool) (depth : Nat) (qs : List Piece) :
    depthAfter stop depth (keptPieces qs) = depthAfter stop depth qs := by
  rw [keptPieces]
  induction qs generalizing depth with
  | nil => rfl
  | cons p qs ih =>
    cases p with
    | char c =>
      rw [List.filter_cons_of_pos (by rfl), depthAfter, depthAfter]
      split
      · rfl
      · exact ih _
    | comment body => exact ih depth
    | _ => exact ih depth

/-- Pieces from which comments can be removed: what is taken away are the comments among them, what
is left is cut as it was before, and nothing more is taken away from it. -/
structure Separable (qs : List Piece) : Prop where
  /-- The comments are taken away, and nothing else. -/
  removed : stripComments (qs.flatMap Piece.source) = (keptPieces qs).flatMap Piece.source
  /-- The pieces around a comment do not run together. -/
  left : pieces ((keptPieces qs).flatMap Piece.source) = keptPieces qs
  /-- No comment is seen in what is left. -/
  kept : stripComments ((keptPieces qs).flatMap Piece.source) = (keptPieces qs).flatMap Piece.source

/-- A text in which comments can be removed from the heads of rules and declarations. -/
def Steady (all : List Piece) : Prop := ∀ qs, IsHead all qs → Separable qs

instance (qs : List Piece) : Decidable (Separable qs) :=
  decidable_of_iff
    (stripComments (qs.flatMap Piece.source) = (keptPieces qs).flatMap Piece.source ∧
      pieces ((keptPieces qs).flatMap Piece.source) = keptPieces qs ∧
      stripComments ((keptPieces qs).flatMap Piece.source) = (keptPieces qs).flatMap Piece.source)
    ⟨fun h => ⟨h.1, h.2.1, h.2.2⟩, fun h => ⟨h.1, h.2, h.3⟩⟩

theorem isHead_iff {all qs : List Piece} :
    IsHead all qs ↔ ∃ t ∈ all.tails, BetweenItems (all.take (all.length - t.length)) ∧
      qs ∈ t.inits ∧ ItemHead qs ∧ ∃ p ∈ (t.drop qs.length).head?, p.endsItem = true := by
  constructor
  · rintro ⟨before, p, after, rfl, hbetween, hqs, hp⟩
    exact ⟨qs ++ p :: after, by simp, by simpa using hbetween, by simp, hqs, p, by simp, hp⟩
  · rintro ⟨t, ht, hbetween, hinits, hqs, p, hp, hends⟩
    obtain ⟨before, rfl⟩ := (List.mem_tails t all).1 ht
    obtain ⟨rest, rfl⟩ := (List.mem_inits qs t).1 hinits
    rw [List.drop_left] at hp
    obtain ⟨after, rfl⟩ := List.head?_eq_some_iff.1 hp
    exact ⟨before, p, after, rfl, by simpa using hbetween, hqs, hends⟩

instance (all : List Piece) : Decidable (Steady all) :=
  decidable_of_iff
    (∀ t ∈ all.tails, BetweenItems (all.take (all.length - t.length)) →
      ∀ qs ∈ t.inits, ItemHead qs → (∃ p ∈ (t.drop qs.length).head?, p.endsItem = true) →
        Separable qs)
    ⟨fun h qs hqs => by
        obtain ⟨t, ht, hbetween, hinits, hhead, hends⟩ := isHead_iff.1 hqs
        exact h t ht hbetween qs hinits hhead hends,
      fun h t ht hbetween qs hinits hhead hends =>
        h qs (isHead_iff.2 ⟨t, ht, hbetween, hinits, hhead, hends⟩)⟩

/-- What is left without the comments is neat. -/
theorem Separable.neat {qs : List Piece} (h : Separable qs) (hfit : Fitting qs) :
    Neat (keptPieces qs) := by
  have hwhole : ∀ p ∈ keptPieces qs, p.isWhole = true :=
    fun p hp => (hfit.wellFormed p (List.mem_filter.1 hp).1).isWhole
  rw [← h.left] at hwhole
  have hfitting := fitting_pieces hwhole
  rw [h.left] at hfitting
  exact ⟨hfitting, fun p hp => by simpa using (List.mem_filter.1 hp).2⟩

/-! ### Harmless backslashes -/

/-- A slash that comes before an asterisk does so without the comments too. -/
theorem parted_of_keptPieces {qs : List Piece}
    (hparted : Parted (·.isSlash = true) (keptPieces qs)) : Parted (·.isSlash = true) qs := by
  induction qs with
  | nil => exact .nil
  | cons p qs ih =>
    cases p with
    | comment body =>
      refine parted_cons.2 ⟨fun hslash => ?_, ih hparted⟩
      cases hslash
    | _ =>
      obtain ⟨hmeet, hparted⟩ := parted_cons.1 hparted
      refine parted_cons.2 ⟨fun hslash hstar => hmeet hslash ?_, ih hparted⟩
      obtain ⟨qs, rfl⟩ := List.head?_eq_some_iff.1 hstar
      rfl

theorem flatMap_kept {qs : List Piece} (h : ∀ body, .openComment body ∉ qs) :
    qs.flatMap Piece.kept = (keptPieces qs).flatMap Piece.source := by
  rw [keptPieces]
  induction qs with
  | nil => rfl
  | cons p qs ih =>
    rw [List.flatMap_cons, ih fun body hbody => h body (List.mem_cons_of_mem p hbody)]
    cases p with
    | openComment body => exact absurd List.mem_cons_self (h body)
    | _ => rfl

/-- With harmless backslashes, removing comments leaves out the pieces that are comments. -/
theorem stripComments_source {qs : List Piece} (hfit : Fitting qs)
    (htame : ∀ p ∈ qs, p.isTame = true) (hparted : Parted (·.isSlash = true) qs) :
    stripComments (qs.flatMap Piece.source) = (keptPieces qs).flatMap Piece.source := by
  have hpieces := pieces_of_fitting hfit
  rw [stripComments_eq, hpieces, flatMap_kept fun body => hfit.wellFormed (.openComment body)]
  · rwa [hpieces]
  · rwa [hpieces]

theorem separable_of_tame {qs : List Piece} (hfit : Fitting qs)
    (htame : ∀ p ∈ qs, p.isTame = true)
    (hparted : Parted (·.isSlash = true) (keptPieces qs)) : Separable qs := by
  have hkept : keptPieces (keptPieces qs) = keptPieces qs := by simp [keptPieces]
  have hfitkept : Fitting (keptPieces qs) := by
    refine ⟨fun p hp => hfit.wellFormed p (List.mem_filter.1 hp).1, hparted.mono ?_⟩
    rintro p - rfl
    rfl
  have hstrip := stripComments_source hfitkept
    (fun p hp => htame p (List.mem_filter.1 hp).1) hparted
  rw [hkept] at hstrip
  exact ⟨stripComments_source hfit htame (parted_of_keptPieces hparted),
    pieces_of_fitting hfitkept, hstrip⟩

/-- Comments can be removed from a text if no backslash hides a quote and no slash comes before an
asterisk when the comments between them are gone. -/
theorem steady_of_tame {cs : List Char} (htame : ∀ p ∈ pieces cs, p.isTame = true)
    (hparted : Parted (·.isSlash = true) (keptPieces (pieces cs))) : Steady (pieces cs) := by
  intro qs hqs
  exact separable_of_tame hqs.fitting (fun p hp => htame p (hqs.within.subset hp))
    (hparted.of_within (hqs.within.filter _))

/-! ### Selectors -/

theorem selectorLike_trim {ks : List Piece} (h : Neat ks)
    (hbal : depthAfter isItemEnd 0 ks = some 0) (hcomma : depthAfter (· == ',') 0 ks ≠ none)
    (hne : trim (ks.flatMap Piece.source) ≠ []) (hfirm : Firm (trim (ks.flatMap Piece.source))) :
    SelectorLike (trim (ks.flatMap Piece.source)) := by
  obtain ⟨ms, hms, htrim⟩ := exists_bare h.toFitting hfirm
  have hneat := h.of_within hms.within
  have hcommaFree : ∀ c, isBlank c = true → (c == ',') = false :=
    fun c hc => beq_eq_false_iff_ne.2 (ne_of_class hc (by decide))
  refine ⟨Text.trim_trim _, ?_, hne, ?_⟩
  · rw [htrim]
    exact hneat.held (by rw [hms.depthAfter_eq isItemEnd_eq_false_of_isBlank, hbal])
  · rw [htrim, CommaFree, pieces_of_fitting hneat.toFitting, hms.depthAfter_eq hcommaFree]
    exact hcomma

/-- What stands between the commas is read as one selector each. -/
theorem selectorLike_of_mem_cutSelectors {ks : List Piece} (h : Neat ks)
    (hbal : depthAfter isItemEnd 0 ks = some 0) :
    ∀ cs ∈ cutSelectors none 0 [] (ks.flatMap Piece.source), trim cs ≠ [] → Firm (trim cs) →
      SelectorLike (trim cs) := by
  induction hn : ks.length using Nat.strong_induction_on generalizing ks with
  | _ n ih =>
    cases hcomma : depthAfter (· == ',') 0 ks with
    | none =>
      -- the first comma ends a selector, and behind it stand fewer pieces
      obtain ⟨gs, c, rs, rfl, hc, hgs⟩ := exists_stop hcomma
      obtain rfl : c = ',' := by simpa using hc
      have hfirst : Neat gs := h.of_within ⟨[], .char ',' :: rs, rfl⟩
      have hrest : Neat rs := h.of_within ⟨gs ++ [.char ','], [], by simp⟩
      rw [depthAfter_append] at hbal
      obtain ⟨d, hd, hbal⟩ := Option.bind_eq_some_iff.1 hbal
      obtain rfl := depthAfter_unique hgs hd
      have hcut := cutSelectors_append hfirst.wellFormed hfirst.not_comment hgs []
        (',' :: rs.flatMap Piece.source)
      rw [cutSelectors_comma, List.append_nil, List.reverse_reverse] at hcut
      rw [List.flatMap_append, List.flatMap_cons, Piece.source, List.singleton_append, hcut]
      refine List.forall_mem_cons.2 ⟨?_, ?_⟩
      · exact selectorLike_trim hfirst hd (by rw [hgs]; simp)
      · exact ih rs.length (by simp [← hn]; omega) hrest hbal rfl
    | some d =>
      obtain rfl := depthAfter_unique hcomma hbal
      have hcut := cutSelectors_append h.wellFormed h.not_comment hcomma [] []
      rw [List.append_nil, List.append_nil, cutSelectors, List.reverse_reverse] at hcut
      rw [hcut]
      refine List.forall_mem_cons.2 ⟨selectorLike_trim h hbal (by rw [hcomma]; simp), by simp⟩

/-- The selectors in front of a block are read as one selector each. -/
theorem selectorLike_of_mem_splitSelectors {qs : List Piece} (hfit : Fitting qs)
    (h : Separable qs) (hbal : depthAfter isItemEnd 0 qs = some 0) :
    ∀ s ∈ splitSelectors (qs.flatMap Piece.source), Firm s.toList → SelectorLike s.toList := by
  intro s hs
  rw [splitSelectors, h.removed, List.mem_filterMap] at hs
  obtain ⟨cs, hcs, hs⟩ := hs
  obtain ⟨ds, hds, rfl⟩ := List.mem_map.1 hcs
  split at hs
  · cases hs
  · next hne =>
    obtain rfl := Option.some.inj hs
    rw [String.toList_ofList]
    refine selectorLike_of_mem_cutSelectors (h.neat hfit) ?_ ds hds (by simpa using hne)
    rw [depthAfter_keptPieces, hbal]

/-! ### Declarations -/

/-- A character in the sources of pieces stands in the source of one of them. -/
theorem exists_piece_of_source {ks : List Piece} {s t : List Char} {c : Char}
    (h : ks.flatMap Piece.source = s ++ c :: t) :
    ∃ ls p rs a b, ks = ls ++ p :: rs ∧ p.source = a ++ c :: b ∧
      s = ls.flatMap Piece.source ++ a ∧ t = b ++ rs.flatMap Piece.source := by
  induction ks generalizing s with
  | nil => simp at h
  | cons p ks ih =>
    rw [List.flatMap_cons, List.append_eq_append_iff] at h
    rcases h with ⟨s', rfl, h⟩ | ⟨t', hp, h⟩
    · obtain ⟨ls, q, rs, a, b, rfl, hq, rfl, rfl⟩ := ih h
      exact ⟨p :: ls, q, rs, a, b, rfl, hq, by simp, rfl⟩
    · cases t' with
      | nil =>
        obtain ⟨ls, q, rs, a, b, rfl, hq, hnil, rfl⟩ := ih (s := []) h.symm
        refine ⟨p :: ls, q, rs, a, b, rfl, hq, ?_, rfl⟩
        rw [List.flatMap_cons, List.append_assoc, ← hnil, hp, List.append_nil, List.append_nil]
      | cons d t' =>
        obtain ⟨rfl, rfl⟩ := List.cons.inj h
        exact ⟨[], p, ks, s, t', rfl, hp, rfl, rfl⟩

theorem isStringBody_cons {q c : Char} (hb : c ≠ '\\') (cs : List Char) :
    isStringBody q (c :: cs) = (c != q && isStringBody q cs) := by
  have hslash : (c != '\\') = true := by simpa using hb
  rw [isStringBody, hslash, Bool.and_true]
  exact fun _ _ hc => absurd hc hb

/-- A string may go on with any character but its quote and a backslash. -/
theorem isStringBody_exchange {q c : Char} (hq : c ≠ q) (hb : c ≠ '\\') {cs ds es : List Char}
    (h : isStringBody q (cs ++ es) = true) (hds : isStringBody q ds = true) :
    isStringBody q (cs ++ c :: ds) = true := by
  fun_induction isStringBody q cs with
  | case1 d cs ih => exact ih h
  | case2 d cs hcs ih =>
    by_cases hd : d = '\\'
    · -- a backslash that stood at the end now escapes the character
      cases cs with
      | nil => rw [hd]; exact hds
      | cons e cs => exact (hcs e cs hd rfl).elim
    · rw [List.cons_append, isStringBody_cons hd, Bool.and_eq_true] at h ⊢
      exact ⟨h.1, ih h.2⟩
  | case3 => rw [List.nil_append, isStringBody_cons hb, hds, Bool.and_true, bne_iff_ne]; exact hq

/-- What stands behind a character in a string can stand in a string. -/
theorem isStringBody_of_append {q c : Char} (hb : c ≠ '\\') {cs ds : List Char}
    (h : isStringBody q (cs ++ c :: ds) = true) : isStringBody q ds = true := by
  fun_induction isStringBody q cs with
  | case1 d cs ih => exact ih h
  | case2 d cs hcs ih =>
    by_cases hd : d = '\\'
    · cases cs with
      | nil => rw [hd] at h; exact h
      | cons e cs => exact (hcs e cs hd rfl).elim
    · rw [List.cons_append, isStringBody_cons hd, Bool.and_eq_true] at h
      exact ih h.2
  | case3 =>
    rw [List.nil_append, isStringBody_cons hb, Bool.and_eq_true] at h
    exact h.2

theorem isStringBody_trimStart {q : Char} {cs : List Char} (h : isStringBody q cs = true) :
    isStringBody q (trimStart cs) = true := by
  induction cs with
  | nil => exact h
  | cons c cs ih =>
    cases hc : isBlank c with
    | true =>
      rw [isStringBody_cons (ne_of_class hc (by decide)), Bool.and_eq_true] at h
      rw [Text.trimStart_blank_cons hc]
      exact ih h.2
    | false =>
      have hself : trimStart (c :: cs) = c :: cs := Text.trimStart_append_cons hc [] cs
      rw [hself]
      exact h

theorem singleton_eq_append_cons {c d : Char} {a b : List Char} (h : [c] = a ++ d :: b) :
    a = [] ∧ c = d ∧ b = [] := by
  cases a with
  | nil => simpa using h
  | cons e a => simp at h

/-- A character of a string that is no quote stands between the quotes. -/
theorem exists_inside_quotes {q c : Char} (hne : c ≠ q) {body a b : List Char}
    (h : q :: body ++ [q] = a ++ c :: b) :
    ∃ a' b', a = q :: a' ∧ b = b' ++ [q] ∧ body = a' ++ c :: b' := by
  cases a with
  | nil =>
    obtain ⟨hq, -⟩ := List.cons.inj h
    exact absurd hq.symm hne
  | cons d a =>
    obtain ⟨rfl, htail⟩ := List.cons.inj h
    replace htail : body ++ [q] = a ++ c :: b := htail
    cases b using List.reverseRecOn with
    | nil =>
      obtain ⟨-, hq⟩ := List.append_inj' htail rfl
      exact absurd (by simpa using hq.symm) hne
    | append_singleton b d =>
      rw [← List.cons_append, ← List.append_assoc] at htail
      obtain ⟨hbody, hd⟩ := List.append_inj' htail rfl
      exact ⟨a, b, rfl, by rw [hd], hbody⟩

/-- A piece with a colon neither starts nor ends with a blank. -/
theorem not_blank_around_colon {p : Piece} (hp : p.WellFormed) {a b : List Char}
    (h : p.source = a ++ ':' :: b) :
    (∀ c, a.head? = some c → isBlank c = false) ∧ ∀ c, b.getLast? = some c → isBlank c = false := by
  have hblank : p.isBlankChar = false := by
    cases p with
    | char c =>
      obtain ⟨-, rfl, -⟩ := singleton_eq_append_cons h
      decide
    | _ => rfl
  constructor
  · intro c hc
    obtain ⟨d, ds, hsource, hd⟩ := head?_source_not_blank hp hblank
    obtain ⟨a, rfl⟩ := List.head?_eq_some_iff.1 hc
    obtain ⟨rfl, -⟩ := List.cons.inj (hsource.symm.trans h)
    exact hd
  · intro c hc
    have hlast : p.source.getLast? = some c := by
      rw [h, List.getLast?_append, List.getLast?_cons, hc]
      rfl
    rcases getLast?_source_cases hp with ⟨d, rfl, hd⟩ | ⟨d, rfl, -⟩ | ⟨ds, d, hsource, hd⟩
    · rw [Piece.isBlankChar, hd] at hblank
      cases hblank
    · -- behind the colon that is escaped nothing follows
      cases a with
      | nil => cases h
      | cons e a =>
        obtain ⟨-, htail⟩ := List.cons.inj h
        obtain ⟨-, -, rfl⟩ := singleton_eq_append_cons htail
        cases hc
    · obtain rfl : d = c := by simpa [hsource] using hlast
      exact hd

/-- The piece with the colon of a declaration, without the blanks around the colon: either it is
the colon, or brackets count neither in it nor in the piece it came from. -/
theorem exists_tight {p : Piece} (hp : p.WellFormed) (hcomment : p.isComment = false)
    {a b : List Char} (h : p.source = a ++ ':' :: b) :
    ∃ p' : Piece, p'.WellFormed ∧ p'.isComment = false ∧
      p'.source = trimEnd a ++ ':' :: trimStart b ∧
      (p = .char ':' ∧ p' = .char ':' ∨ (∀ c, p ≠ .char c) ∧ ∀ c, p' ≠ .char c) := by
  cases p with
  | char c =>
    obtain ⟨rfl, rfl, rfl⟩ := singleton_eq_append_cons h
    exact ⟨.char ':', hp, rfl, rfl, .inl ⟨rfl, rfl⟩⟩
  | escape c =>
    cases a with
    | nil => cases h
    | cons d a =>
      obtain ⟨rfl, htail⟩ := List.cons.inj h
      obtain ⟨rfl, rfl, rfl⟩ := singleton_eq_append_cons htail
      exact ⟨.escape ':', hp, rfl, rfl, .inr ⟨by simp, by simp⟩⟩
  | string q body =>
    obtain ⟨hq, hbody⟩ := hp
    have hne : ':' ≠ q := by
      rintro rfl
      cases hq
    -- blanks around a colon inside a string are trimmed too, and what is left is a string again
    obtain ⟨a, b, rfl, rfl, rfl⟩ := exists_inside_quotes hne h
    refine ⟨.string q (trimEnd a ++ ':' :: trimStart b), ⟨hq, ?_⟩, rfl, ?_,
      .inr ⟨by simp, by simp⟩⟩
    · obtain ⟨ds, hds, -⟩ := Text.exists_trimEnd_append a
      have hb := isStringBody_trimStart (isStringBody_of_append (by decide) hbody)
      rw [hds, List.append_assoc] at hbody
      exact isStringBody_exchange hne (by decide) hbody hb
    · have hblank := isBlank_eq_false_of_isQuote hq
      have hend : trimEnd (q :: a) = q :: trimEnd a := Text.trimEnd_append_cons hblank [] a
      rw [hend, Text.trimStart_append_cons hblank]
      simp [Piece.source]
  | comment body => cases hcomment
  | _ => exact hp.elim

/-- What stands before and behind the first colon makes a declaration. -/
theorem declaration?_eq_some {cs : List Char} {p v : String}
    (h : declaration? cs = some (.declaration p v)) :
    ∃ s t, stripComments cs = s ++ ':' :: t ∧ ':' ∉ s ∧ p.toList = trim s ∧ v.toList = trim t := by
  simp only [declaration?] at h
  split at h
  · cases h
  · next c t hdrop =>
    obtain ⟨rfl, rfl⟩ : String.ofList (trim _) = p ∧ String.ofList (trim t) = v := by simpa using h
    have hrest : (stripComments cs).dropWhile (· != ':') = c :: t := by
      have hleft : List.drop ((stripComments cs).takeWhile (· != ':')).length
          ((stripComments cs).takeWhile (· != ':') ++ (stripComments cs).dropWhile (· != ':'))
          = (stripComments cs).dropWhile (· != ':') := List.drop_left
      rw [← hleft, List.takeWhile_append_dropWhile, hdrop]
    have hc := List.head?_dropWhile_not (· != ':') (stripComments cs)
    rw [hrest] at hc
    obtain rfl : c = ':' := by simpa using hc
    refine ⟨(stripComments cs).takeWhile (· != ':'), t, ?_, fun hmem => ?_, ?_, ?_⟩
    · rw [← hrest, List.takeWhile_append_dropWhile]
    · simpa using List.all_eq_true.1 List.all_takeWhile _ hmem
    · rw [String.toList_ofList]
    · rw [String.toList_ofList]

/-- Where the first piece is the same, or no character, brackets are counted alike. -/
theorem depthAfter_congr_cons {p p' : Piece} {c : Char}
    (h : p = .char c ∧ p' = .char c ∨ (∀ d, p ≠ .char d) ∧ ∀ d, p' ≠ .char d)
    {stop : Char → Bool} {ps qs : List Piece}
    (htail : ∀ depth, depthAfter stop depth ps = depthAfter stop depth qs) (depth : Nat) :
    depthAfter stop depth (p :: ps) = depthAfter stop depth (p' :: qs) := by
  rcases h with ⟨rfl, rfl⟩ | ⟨hp, hp'⟩
  · rw [depthAfter, depthAfter, htail]
  · rw [depthAfter, depthAfter, htail]
    · exact hp'
    · exact hp

/-- Without the blanks in front of it, the colon of a declaration stands in a piece again.  If an
escape is cut in half there, its backslash escapes the colon. -/
theorem exists_tight_front {ls : List Piece} {p : Piece} (h : ∀ q ∈ ls ++ [p], q.WellFormed)
    (hcomment : p.isComment = false) {a b : List Char} (hp : p.source = a ++ ':' :: b) :
    ∃ ms p', ms <:+: ls ∧ p'.WellFormed ∧ p'.isComment = false ∧
      (∀ c, c ≠ ':' → p' ≠ .char c) ∧
      trim (ls.flatMap Piece.source ++ a) ++ ':' :: trimStart b
        = ms.flatMap Piece.source ++ p'.source ∧
      ∀ d, depthAfter isItemEnd d (ms ++ [p']) = depthAfter isItemEnd d (ls ++ [p]) := by
  obtain ⟨hls, hwell⟩ := List.forall_mem_append.1 h
  replace hwell := List.forall_mem_singleton.1 hwell
  obtain ⟨p', hwell', hcomment', hsource, hkind⟩ := exists_tight hwell hcomment hp
  obtain ⟨ms, ⟨hms, htrim⟩ | ⟨rfl, hms, htrim⟩⟩ :=
    exists_bare_append hls (not_blank_around_colon hwell hp).1
  · refine ⟨ms, p', hms.within, hwell', hcomment', ?_, by simp [htrim, hsource], fun d => ?_⟩
    · rintro c hc rfl
      rcases hkind with ⟨-, hcolon⟩ | ⟨-, hchar⟩
      · exact hc (by simpa using hcolon)
      · exact hchar c rfl
    · rw [depthAfter_append, depthAfter_append, hms.depthAfter_eq isItemEnd_eq_false_of_isBlank]
      exact congrArg _ (funext fun d => (depthAfter_congr_cons hkind (fun _ => rfl) d).symm)
  · obtain ⟨rfl, rfl⟩ : p = .char ':' ∧ b = [] := by
      cases p with
      | char c =>
        obtain ⟨rfl, hb⟩ := List.cons.inj hp
        exact ⟨rfl, hb.symm⟩
      | escape c => cases hp
      | string q body =>
        obtain ⟨rfl, -⟩ := List.cons.inj hp
        cases hwell.1
      | comment body => cases hcomment
      | _ => exact hwell.elim
    refine ⟨ms, .escape ':', hms.within, trivial, rfl, by simp, ?_, fun d => ?_⟩
    · rw [htrim, List.append_assoc]
      rfl
    · rw [depthAfter_append, depthAfter_append, hms.depthAfter_eq isItemEnd_eq_false_of_isBlank]
      refine congrArg _ (funext fun d => ?_)
      simp [depthAfter, isItemEnd, Reader.bracketDepth]

/-- Without the blanks around its colon a declaration is held, unless an escape is cut in half at
its end. -/
theorem held_around_colon {ks : List Piece} (h : Neat ks)
    (hbal : depthAfter isItemEnd 0 ks = some 0) {s t : List Char}
    (hcolon : ks.flatMap Piece.source = s ++ ':' :: t)
    (hfirm : Firm (trim s ++ ':' :: trim t)) :
    Held Piece.isClean (trim s ++ ':' :: trim t) := by
  -- the colon may stand inside a piece `p`, which is then changed itself, into `p'`
  obtain ⟨ls, p, rs, a, b, rfl, hp, rfl, rfl⟩ := exists_piece_of_source hcolon
  have hfront : Neat (ls ++ [p]) := h.of_within ⟨[], rs, by simp⟩
  have hrs : Neat rs := h.of_within ⟨ls ++ [p], [], by simp⟩
  obtain ⟨ms, p', hms, hwell', hcomment', hchar, hbefore, hdepth⟩ :=
    exists_tight_front hfront.wellFormed (hfront.not_comment p (by simp)) hp
  obtain ⟨ns, hbehind⟩ := exists_append_bare hrs.wellFormed
    (not_blank_around_colon (hfront.wellFormed p (by simp)) hp).2
  have hwithin : ns <:+: rs := hbehind.elim (fun hns => hns.1.within) fun hns => hns.1.within
  -- no mark of a comment comes about around `p'`, since it is neither a slash nor an asterisk
  have hneat : Neat (ms ++ p' :: ns) :=
    (hfront.of_within (hms.trans ⟨[], [p], rfl⟩)).around (hrs.of_within hwithin) hwell' hcomment'
      (hchar '/' (by decide)) (hchar '*' (by decide))
  have htext : ∀ cs, trim (ls.flatMap Piece.source ++ a) ++ ':' ::
      (trimStart b ++ (ns.flatMap Piece.source ++ cs))
        = (ms ++ p' :: ns).flatMap Piece.source ++ cs := by
    intro cs
    rw [← List.cons_append, ← List.append_assoc, hbefore]
    simp
  rcases hbehind with ⟨hns, hbehind⟩ | ⟨-, hbehind⟩
  · have htext := htext []
    rw [List.append_nil, List.append_nil, ← hbehind] at htext
    rw [htext]
    refine hneat.held ?_
    rw [← hbal, List.append_cons, List.append_cons ls, depthAfter_append, hdepth,
      depthAfter_append _ _ (ls ++ [p])]
    exact congrArg _ (funext fun d => hns.depthAfter_eq isItemEnd_eq_false_of_isBlank d)
  · rw [hbehind, htext] at hfirm
    exact (not_firm_half hneat.toFitting hfirm).elim

/-- A declaration is printed as a text that is read as one item and as the same declaration. -/
theorem legible_declaration {qs : List Piece} (hfit : Fitting qs) (h : Separable qs)
    (hbal : depthAfter isItemEnd 0 qs = some 0) {p v : String}
    (hd : declaration? (qs.flatMap Piece.source) = some (.declaration p v))
    (hfirm : Firm (printDeclaration p v)) (hat : p.toList.head? ≠ some '@') :
    HeadText (printDeclaration p v) ∧
      declaration? (printDeclaration p v) = some (.declaration p v) := by
  obtain ⟨s, t, hcut, hcolon, hp, hv⟩ := declaration?_eq_some hd
  rw [h.removed] at hcut
  rw [printDeclaration, hp, hv] at hfirm
  have hheld := held_around_colon (h.neat hfit) (by rw [depthAfter_keptPieces, hbal]) hcut hfirm
  have hkept := h.kept
  rw [hcut] at hkept
  replace hkept := stripComments_trim_colon hkept
  rw [← hp, ← hv] at hheld hkept
  have htrimp : trim p.toList = p.toList := by rw [hp, Text.trim_trim]
  have htrimv : trim v.toList = v.toList := by rw [hv, Text.trim_trim]
  refine ⟨headText_printDeclaration hheld htrimp hat,
    declaration?_printDeclaration hkept (fun hmem => ?_) htrimp htrimv⟩
  rw [hp] at hmem
  exact hcolon (Text.mem_of_mem_trim hmem)

/-! ### Rules with an at-sign -/

/-- Trimming changes nothing about the brackets. -/
theorem depthAfter_trim {qs : List Piece} (hfit : Fitting qs)
    (hfirm : Firm (trim (qs.flatMap Piece.source))) :
    depthAfter isItemEnd 0 (pieces (trim (qs.flatMap Piece.source)))
      = depthAfter isItemEnd 0 qs := by
  obtain ⟨ms, hms, htrim⟩ := exists_bare hfit hfirm
  rw [htrim, pieces_of_fitting (hfit.of_within hms.within),
    hms.depthAfter_eq isItemEnd_eq_false_of_isBlank]

/-- What stands behind a name with an at-sign is passed over as it was. -/
theorem preludeText_trim {qs : List Piece} (hfit : Fitting qs)
    (hfirm : Firm (trim (qs.flatMap Piece.source)))
    (hbal : depthAfter isItemEnd 0 (pieces (trim (qs.flatMap Piece.source))) = some 0) :
    PreludeText (trim (qs.flatMap Piece.source)) := by
  refine ⟨Text.trim_trim _, ?_, hbal⟩
  obtain ⟨ms, hms, htrim⟩ := exists_bare hfit hfirm
  rw [htrim, pieces_of_fitting (hfit.of_within hms.within)]
  exact fun p hp => (hfit.wellFormed p (hms.within.subset hp)).isWhole

theorem rawEnd_blanks {bs : List Piece} (h : ∀ p ∈ bs, p.isBlankChar = true) (depth : Nat)
    (ps : List Piece) : rawEnd depth (bs ++ ps) = rawEnd depth ps := by
  induction bs with
  | nil => rfl
  | cons p bs ih =>
    obtain ⟨hp, hbs⟩ := List.forall_mem_cons.1 h
    cases p with
    | char c =>
      have hc : isBlank c = true := hp
      simp [rawEnd, ne_of_class hc (show isBlank '{' = false by decide),
        ne_of_class hc (show isBlank '}' = false by decide), ih hbs]
    | _ => cases hp

/-- The last piece closes a block also without the blanks in front of it. -/
theorem rawEnd_without_blanks {bs : List Piece} (h : ∀ p ∈ bs, p.isBlankChar = true) {p : Piece}
    {ms : List Piece} {depth : Nat} (hend : rawEnd depth (ms ++ (bs ++ [p])) = some []) :
    rawEnd depth (ms ++ [p]) = some [] := by
  induction ms generalizing depth with
  | nil => rwa [List.nil_append, rawEnd_blanks h] at hend
  | cons m ms ih =>
    cases m with
    | char c =>
      simp only [List.cons_append, rawEnd] at hend ⊢
      split at hend
      · next hc =>
        rw [if_pos hc]
        cases depth with
        | zero => simp at hend
        | succ d => exact ih hend
      · next hc =>
        rw [if_neg hc]
        exact ih hend
    | openString _ _ => cases hend
    | openComment _ => cases hend
    | _ => exact ih hend

/-- A block that is kept as it is written is closed by the brace behind it. -/
theorem rawText_trim {rs : List Piece} (hfit : Fitting rs)
    (hfirm : Firm (trim (rs.flatMap Piece.source)))
    (hclosing : rawEnd 0 (rs ++ [.char '}']) = some []) :
    RawText (trim (rs.flatMap Piece.source)) := by
  obtain ⟨ms, hms, htrim⟩ := exists_bare hfit hfirm
  have hfitms := hfit.of_within hms.within
  obtain ⟨bs, bs', rfl, hbs, hbs'⟩ := hms
  have hbrace : Fitting (ms ++ [.char '}']) :=
    fitting_append.2 ⟨hfitms, ⟨by simp [Piece.WellFormed, isQuote], .singleton _⟩, by simp⟩
  have hsource : ms.flatMap Piece.source ++ ['}']
      = (ms ++ [Piece.char '}']).flatMap Piece.source := by
    simp [Piece.source]
  refine ⟨Text.trim_trim _, ?_⟩
  rw [htrim, hsource, pieces_of_fitting hbrace]
  rw [List.append_assoc, rawEnd_blanks hbs, List.append_assoc] at hclosing
  exact rawEnd_without_blanks hbs' hclosing

end ComponentCompiler.Style
