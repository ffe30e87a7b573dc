import ComponentCompiler.Proofs.Style.Closed

/-!
# Reading printed nodes

A stylesheet is legible if each text in it, as it is printed, is read as one piece of the sheet and
as the same piece: the selectors of a rule, a declaration, what stands behind a name with an
at-sign, a block that is kept as it is written.  Then the whole of it is read back from what is
printed, less its comments.

Reading is followed piece by piece, for any text behind what was printed: a held text only gathers,
a brace or a semicolon ends what was gathered, and a printed node leaves the reader as it was with
one node more.  The number of bytes read only matters for errors, so readers are compared up to it
(`Reads`).

## Main definitions

* `HeadText`, `PreludeText` — the texts of items, and of what stands behind a name with an at-sign.
* `Node.Legible`, `Stylesheet.Legible` — the trees whose texts are read one by one.
* `Reads r cs rest r'` — in front of `rest`, reading `cs` takes `r` to `r'`.

## Main results

* `reads_node`, `reads_body` — reading one printed node, and the rest of a block.
* `parse_print_of_legible` — a legible stylesheet is read back.
-/

namespace ComponentCompiler.Style

open Text (trim isBlank isPlainBlank byteLength)

/-! ### Legible stylesheets -/

/-- The characters of the name behind an at-sign are such that the name ends where it should. -/
def NameText (name : String) : Prop := ∀ c ∈ name.toList, isNameChar c = true

instance (name : String) : Decidable (NameText name) :=
  decidable_of_iff (name.toList.all isNameChar = true) List.all_eq_true

/-- Whether a piece between items starts a rule or a declaration. -/
def Piece.opensItem : Piece → Bool
  | .char c => !(isPlainBlank c || c == ';' || c == '}' || c == '@')
  | .escape _ => true
  | .string _ _ => true
  | _ => false

/-- A text that is read as one item: the selectors of a rule, or a declaration. -/
structure HeadText (cs : List Char) : Prop where
  /-- Reading passes over it. -/
  held : Held Piece.isWhole cs
  /-- Its first piece starts an item. -/
  opens : ∀ p ∈ (pieces cs).head?, p.opensItem = true

/-- A text that is read as what stands behind a name with an at-sign. -/
structure PreludeText (cs : List Char) : Prop where
  /-- There are no blanks at its ends. -/
  trimmed : trim cs = cs
  /-- Reading passes over it. -/
  held : Held Piece.isWhole cs

mutual

/-- A node with texts that are read, each by itself, as what they are. -/
def Node.Legible : Node → Prop
  | .rule ss body =>
      HeadText (printSelectors ss) ∧ splitSelectors (printSelectors ss) = ss ∧
        Item.LegibleAll body
  | .group name prelude body =>
      NameText name ∧ isGroupName name = true ∧ PreludeText prelude.toList ∧ Item.LegibleAll body
  | .atRule name prelude none => NameText name ∧ PreludeText prelude.toList
  | .atRule name prelude (some block) =>
      NameText name ∧ isGroupName name = false ∧ PreludeText prelude.toList ∧ RawText block.toList
  | .comment _ => True

/-- Items with texts that are read, each by itself, as what they are. -/
def Item.LegibleAll : List Item → Prop
  | [] => True
  | .declaration p v :: is =>
      HeadText (printDeclaration p v) ∧
        declaration? (printDeclaration p v) = some (.declaration p v) ∧ Item.LegibleAll is
  | .nested n :: is => n.Legible ∧ Item.LegibleAll is
  | .comment _ :: is => Item.LegibleAll is

end

/-- A stylesheet with texts that are read, each by itself, as what they are. -/
def Stylesheet.Legible (s : Stylesheet) : Prop := ∀ n ∈ s.rules, n.Legible

/-- A text without comments that starts neither with a blank nor with an at-sign is read as one
item. -/
theorem headText_of_held {cs : List Char} (h : Held Piece.isClean cs)
    (hhead : ∀ c, cs.head? = some c → isBlank c = false ∧ c ≠ '@') : HeadText cs := by
  refine ⟨h.mono fun _ => Piece.isWhole_of_isClean, fun p hp => ?_⟩
  obtain ⟨ps, hps⟩ := List.head?_eq_some_iff.1 hp
  have hclean := h.kind p (by rw [hps]; exact List.mem_cons_self)
  cases p with
  | char c =>
    obtain ⟨hblank, hat⟩ := hhead c (head?_of_head?_pieces hp)
    have hend : isItemEnd c = false := by
      have hbal := h.balanced
      rw [hps, depthAfter] at hbal
      split at hbal
      · cases hbal
      · next hc => simpa using hc
    have hplainBlank : isPlainBlank c = false := by
      cases hc : isPlainBlank c with
      | false => rfl
      | true => rw [Text.isBlank_of_isPlainBlank hc] at hblank; cases hblank
    simp only [isItemEnd, Bool.or_eq_false_iff] at hend
    simp [Piece.opensItem, hplainBlank, hend, hat]
  | escape c => rfl
  | string q body => rfl
  | _ => cases hclean

theorem headText_printSelectors {ss : List String} (h : ∀ s ∈ ss, SelectorLike s.toList)
    (hat : ∀ s ∈ ss.head?, s.toList.head? ≠ some '@') : HeadText (printSelectors ss) := by
  have hheld := held_printSelectors (fun _ => Piece.isWhole_of_isClean) rfl
    fun s hs => (h s hs).held
  refine headText_of_held hheld fun c hc => ?_
  cases ss with
  | nil => cases hc
  | cons s ss =>
    have hs := h s List.mem_cons_self
    have hsc : s.toList.head? = some c := by
      cases hcs : s.toList with
      | nil => exact absurd hcs hs.nonempty
      | cons d ds =>
        cases ss with
        | nil => simpa [printSelectors, List.intercalate, hcs] using hc
        | cons s' ss => simpa [printSelectors_cons_cons, hcs] using hc
    refine ⟨((Text.trim_eq_self_iff _).1 hs.trimmed).1 c hsc, ?_⟩
    rintro rfl
    exact hat s rfl hsc

theorem headText_printDeclaration {p v : String} (h : Held Piece.isClean (printDeclaration p v))
    (hp : trim p.toList = p.toList) (hat : p.toList.head? ≠ some '@') :
    HeadText (printDeclaration p v) := by
  refine headText_of_held h fun c hc => ?_
  cases hps : p.toList with
  | nil =>
    obtain rfl : c = ':' := by simpa [printDeclaration, hps, eq_comm] using hc
    decide
  | cons d ds =>
    have hpc : p.toList.head? = some c := by simpa [printDeclaration, hps] using hc
    refine ⟨((Text.trim_eq_self_iff _).1 hp).1 c hpc, ?_⟩
    rintro rfl
    exact hat hpc

/-! ### Reading on -/

namespace Reader

/-- Read a text. -/
def read (r : Reader) (cs : List Char) : Except CssError Reader := (pieces cs).foldlM step r

theorem parse_eq_read (css : String) : parse css = (read {} css.toList).bind finish := rfl

theorem bind_eq_ok {α β : Type} {x : Except CssError α} {f : α → Except CssError β} {b : β} :
    x.bind f = .ok b ↔ ∃ a, x = .ok a ∧ f a = .ok b := by
  cases x with
  | ok a => simp [Except.bind]
  | error e => simp [Except.bind]

theorem step_eq_ok {r r' : Reader} {p : Piece} (h : r.step p = .ok r') :
    ∃ r₁, r.readPiece p = .ok r₁ ∧
      r' = { r₁ with offset := r.offset + byteLength p.source } := by
  obtain ⟨r₁, hread, h⟩ := bind_eq_ok.1 h
  exact ⟨r₁, hread, (Except.ok.inj h).symm⟩

theorem step_of_ok {r r' : Reader} {p : Piece} (h : r.readPiece p = .ok r') :
    r.step p = .ok { r' with offset := r.offset + byteLength p.source } := by
  rw [step, h]
  rfl

theorem foldlM_cons_of_ok {r r' : Reader} (p : Piece) (h : r.readPiece p = .ok r')
    (ps : List Piece) :
    (p :: ps).foldlM step r
      = ps.foldlM step { r' with offset := r.offset + byteLength p.source } := by
  rw [List.foldlM_cons, step_of_ok h]
  rfl

/-- A character that may be structure is read by itself. -/
theorem read_cons_of_ok {r r' : Reader} {c : Char} {cs : List Char} (hq : isQuote c = false)
    (hb : c ≠ '\\') (hs : c ≠ '/') (h : r.readChar c = .ok r') :
    r.read (c :: cs) = { r' with offset := r.offset + byteLength [c] }.read cs := by
  rw [read, pieces, piecesFrom_char hq hb fun hc => absurd hc hs]
  exact foldlM_cons_of_ok (.char c) h _

end Reader

/-- In front of `rest`, reading `cs` takes the reader `r` to `r'`, up to the number of bytes
read. -/
def Reads (r : Reader) (cs rest : List Char) (r' : Reader) : Prop :=
  ∃ o, r.read (cs ++ rest) = { r' with offset := o }.read rest

theorem Reads.refl (r : Reader) (rest : List Char) : Reads r [] rest r := ⟨r.offset, rfl⟩

theorem Reads.trans {r r' r'' : Reader} {cs ds rest : List Char} (h : Reads r cs (ds ++ rest) r')
    (h' : ∀ o, Reads { r' with offset := o } ds rest r'') : Reads r (cs ++ ds) rest r'' := by
  obtain ⟨o, ho⟩ := h
  obtain ⟨o', ho'⟩ := h' o
  exact ⟨o', by rw [List.append_assoc, ho, ho']⟩

theorem Reads.cons {r r' r'' : Reader} {c : Char} {cs rest : List Char}
    (h : Reads r [c] (cs ++ rest) r') (h' : ∀ o, Reads { r' with offset := o } cs rest r'') :
    Reads r (c :: cs) rest r'' :=
  h.trans h'

/-- One character that may be structure. -/
theorem reads_char {r r' : Reader} {c : Char} (hq : isQuote c = false) (hb : c ≠ '\\')
    (hs : c ≠ '/') (h : r.readChar c = .ok r') (rest : List Char) : Reads r [c] rest r' :=
  ⟨_, Reader.read_cons_of_ok hq hb hs h⟩

/-! ### Gathering -/

/-- A phase of reading in which text is gathered, with the number of open brackets, until an item
ends where none is open. -/
structure Gathers (phase : Nat → List Char → Phase) : Prop where
  /-- A character that ends no item is gathered. -/
  char : ∀ (r : Reader) (depth : Nat) (text : List Char) (c : Char),
    (depth == 0 && isItemEnd c) = false →
      { r with phase := phase depth text }.readChar c
        = .ok { r with phase := phase (Reader.bracketDepth depth c) (c :: text) }
  /-- A piece that holds no structure is gathered. -/
  text : ∀ (r : Reader) (depth : Nat) (text source : List Char),
    { r with phase := phase depth text }.readText source
      = { r with phase := phase depth (source.reverse ++ text) }
  /-- A comment is gathered. -/
  comment : ∀ (r : Reader) (depth : Nat) (text inside : List Char),
    { r with phase := phase depth text }.readComment inside
      = { r with phase := phase depth ((Piece.comment inside).source.reverse ++ text) }

theorem gathers_item (start : Nat) : Gathers (.item start) where
  char r depth text c h := by
    show Reader.itemChar _ start depth text c = _
    unfold Reader.itemChar
    split
    · cases h
    · cases h
    · cases h
    · rfl
  text _ _ _ _ := rfl
  comment _ _ _ _ := rfl

theorem gathers_prelude (name : String) : Gathers (.prelude name) where
  char r depth text c h := by
    show Reader.preludeChar _ name depth text c = _
    unfold Reader.preludeChar
    split
    · cases h
    · cases h
    · cases h
    · rfl
  text _ _ _ _ := rfl
  comment _ _ _ _ := rfl

/-- A piece that is no character is gathered. -/
theorem Gathers.readPiece {phase : Nat → List Char → Phase} (hg : Gathers phase) {p : Piece}
    (hp : p.isOpen = false) (hchar : ∀ c, p ≠ .char c) (r : Reader) (depth : Nat)
    (text : List Char) :
    { r with phase := phase depth text }.readPiece p
      = .ok { r with phase := phase depth (p.source.reverse ++ text) } := by
  cases p with
  | char c => exact absurd rfl (hchar c)
  | comment inside => exact congrArg Except.ok (hg.comment r depth text inside)
  | openString _ _ => cases hp
  | openComment _ => cases hp
  | _ => exact congrArg Except.ok (hg.text r depth text _)

/-- Pieces are gathered as long as no item ends. -/
theorem Gathers.foldlM {phase : Nat → List Char → Phase} (hg : Gathers phase) {ps : List Piece}
    (hps : ∀ p ∈ ps, p.isOpen = false) {depth depth' : Nat}
    (h : depthAfter isItemEnd depth ps = some depth') (r : Reader) (text : List Char) :
    ∃ o, ps.foldlM Reader.step { r with phase := phase depth text }
      = .ok { r with phase := phase depth' ((ps.flatMap Piece.source).reverse ++ text),
                     offset := o } := by
  fun_induction depthAfter isItemEnd depth ps generalizing r text with
  | case1 depth =>
    obtain rfl := Option.some.inj h
    exact ⟨r.offset, rfl⟩
  | case2 => cases h
  | case3 depth c ps hc ih =>
    have hread := hg.char r depth text c (by simpa using hc)
    obtain ⟨o, ho⟩ := ih (fun q hq => hps q (List.mem_cons_of_mem _ hq)) h
      { r with offset := r.offset + byteLength [c] } (c :: text)
    refine ⟨o, ?_⟩
    rw [Reader.foldlM_cons_of_ok (.char c) hread]
    simpa [Piece.source] using ho
  | case4 depth p ps hp ih =>
    have hread := hg.readPiece (hps p List.mem_cons_self) hp r depth text
    obtain ⟨o, ho⟩ := ih (fun q hq => hps q (List.mem_cons_of_mem _ hq)) h
      { r with offset := r.offset + byteLength p.source } (p.source.reverse ++ text)
    refine ⟨o, ?_⟩
    rw [Reader.foldlM_cons_of_ok p hread]
    simpa using ho

/-- A held text is gathered. -/
theorem Gathers.reads {phase : Nat → List Char → Phase} (hg : Gathers phase) {cs : List Char}
    (hcs : Held Piece.isWhole cs) {rest : List Char} (hrest : rest.head? ≠ some '*') (r : Reader)
    (text : List Char) :
    Reads { r with phase := phase 0 text } cs rest
      { r with phase := phase 0 (cs.reverse ++ text) } := by
  have hopen : ∀ p ∈ pieces cs, p.isOpen = false :=
    fun p hp => Piece.isOpen_of_isWhole (hcs.kind p hp)
  obtain ⟨o, ho⟩ := hg.foldlM hopen hcs.balanced r text
  refine ⟨o, ?_⟩
  rw [source_pieces] at ho
  rw [Reader.read, pieces_append_of_whole hcs.kind fun _ => hrest, List.foldlM_append, ho]
  rfl

/-! ### Items -/

theorem itemChar_phase (r : Reader) (phase : Phase) (start depth : Nat) (text : List Char)
    (c : Char) :
    { r with phase := phase }.itemChar start depth text c = r.itemChar start depth text c := by
  unfold Reader.itemChar
  split <;> rfl

/-- A piece that starts an item is read as part of it. -/
theorem foldlM_idle {r : Reader} (hr : r.phase = .idle) {p : Piece} (hs : p.opensItem = true)
    (ps : List Piece) :
    (p :: ps).foldlM Reader.step r
      = (p :: ps).foldlM Reader.step { r with phase := .item r.offset 0 [] } := by
  have hpiece : r.readPiece p = { r with phase := .item r.offset 0 [] }.readPiece p := by
    cases p with
    | char c =>
      simp only [Piece.opensItem, Bool.not_eq_true', Bool.or_eq_false_iff] at hs
      show r.readChar c = Reader.itemChar _ r.offset 0 [] c
      rw [Reader.readChar, hr]
      simp only [hs, Bool.or_self, Bool.false_eq_true, if_false]
      exact (itemChar_phase r _ r.offset 0 [] c).symm
    | string q body => simp [Reader.readPiece, Reader.readText, hr]
    | escape c => simp [Reader.readPiece, Reader.readText, hr]
    | _ => cases hs
  rw [List.foldlM_cons, List.foldlM_cons, Reader.step, Reader.step, hpiece]

theorem read_idle {r : Reader} (hr : r.phase = .idle) {cs : List Char} {p : Piece}
    (hp : (pieces cs).head? = some p) (hs : p.opensItem = true) :
    r.read cs = { r with phase := .item r.offset 0 [] }.read cs := by
  obtain ⟨ps, hps⟩ := List.head?_eq_some_iff.1 hp
  rw [Reader.read, Reader.read, hps, foldlM_idle hr hs]

/-- The text of an item is gathered up to the character that ends the item. -/
theorem reads_item {r : Reader} (hr : r.phase = .idle) {cs : List Char} (hcs : HeadText cs)
    {c : Char} (hc : isItemEnd c = true) (hne : cs = [] → c = '{') (rest : List Char) :
    Reads r cs (c :: rest) { r with phase := .item r.offset 0 cs.reverse } := by
  have hstar : (c :: rest).head? ≠ some '*' := by
    rintro ⟨⟩
    cases hc
  have hstart : ∃ p, (pieces (cs ++ c :: rest)).head? = some p ∧ p.opensItem = true := by
    rw [pieces_append_of_whole hcs.held.kind fun _ => hstar]
    cases hps : pieces cs with
    | nil =>
      have hsource := source_pieces cs
      rw [hps] at hsource
      obtain rfl := hne hsource.symm
      refine ⟨.char '{', ?_, rfl⟩
      rw [List.nil_append, pieces, piecesFrom_char rfl (by decide) fun h => absurd h (by decide)]
      rfl
    | cons p ps => exact ⟨p, rfl, hcs.opens p (by rw [hps]; rfl)⟩
  obtain ⟨p, hp, hs⟩ := hstart
  obtain ⟨o, ho⟩ := (gathers_item r.offset).reads hcs.held hstar r []
  refine ⟨o, ?_⟩
  rw [read_idle hr hp hs, ho, List.append_nil]

/-! ### The word behind an at-sign -/

theorem preludeChar_phase (r : Reader) (phase : Phase) (name : String) (depth : Nat)
    (text : List Char) (c : Char) :
    { r with phase := phase }.preludeChar name depth text c
      = r.preludeChar name depth text c := by
  unfold Reader.preludeChar
  split <;> rfl

/-- The characters of a name are gathered. -/
theorem reads_name {cs : List Char} (h : ∀ c ∈ cs, isNameChar c = true) (r : Reader)
    (text rest : List Char) :
    Reads { r with phase := .atName text } cs rest
      { r with phase := .atName (cs.reverse ++ text) } := by
  induction cs generalizing r text with
  | nil => exact Reads.refl _ rest
  | cons c cs ih =>
    have hc := h c List.mem_cons_self
    have hq : isQuote c = false := isQuote_eq_false_of_class hc (by decide) (by decide)
    have hread : { r with phase := .atName text }.readChar c
        = .ok { r with phase := .atName (c :: text) } := by
      simp [Reader.readChar, hc]
    refine Reads.cons (reads_char hq (ne_of_class hc (by decide))
      (ne_of_class hc (by decide)) hread (cs ++ rest)) fun o => ?_
    rw [List.reverse_cons, List.append_assoc, List.singleton_append]
    exact ih (fun d hd => h d (List.mem_cons_of_mem _ hd)) { r with offset := o } (c :: text)

/-- A piece that ends a name is read like one behind it. -/
theorem readPiece_atName {p : Piece} (hp : ∀ c, p = .char c → isNameChar c = false) (r : Reader)
    (text : List Char) :
    { r with phase := .atName text }.readPiece p
      = { r with phase := .prelude (String.ofList text.reverse) 0 [] }.readPiece p := by
  cases p with
  | char c =>
    simp only [Reader.readPiece, Reader.readChar, hp c rfl, Bool.false_eq_true, if_false]
    rw [preludeChar_phase r (.atName text), preludeChar_phase r (.prelude _ 0 [])]
  | comment inside => simp [Reader.readPiece, Reader.readComment, Reader.readText]
  | openString _ _ => rfl
  | openComment _ => rfl
  | _ => simp [Reader.readPiece, Reader.readText]

theorem foldlM_atName {p : Piece} (hp : ∀ c, p = .char c → isNameChar c = false) (r : Reader)
    (text : List Char) (ps : List Piece) :
    (p :: ps).foldlM Reader.step { r with phase := .atName text }
      = (p :: ps).foldlM Reader.step
          { r with phase := .prelude (String.ofList text.reverse) 0 [] } := by
  rw [List.foldlM_cons, List.foldlM_cons, Reader.step, Reader.step, readPiece_atName hp]

theorem read_atName {c : Char} (hn : isNameChar c = false) (hq : isQuote c = false)
    (hb : c ≠ '\\') (hs : c ≠ '/') (r : Reader) (text rest : List Char) :
    { r with phase := .atName text }.read (c :: rest)
      = { r with phase := .prelude (String.ofList text.reverse) 0 [] }.read (c :: rest) := by
  rw [Reader.read, Reader.read, pieces, piecesFrom_char hq hb fun hc => absurd hc hs]
  exact foldlM_atName (by rintro d ⟨⟩; exact hn) r text _

/-- What is printed behind the name of a rule with an at-sign. -/
def printPrelude (prelude : String) : List Char :=
  if prelude.isEmpty then [] else ' ' :: prelude.toList

theorem held_printPrelude {prelude : String} (h : PreludeText prelude.toList) :
    Held Piece.isWhole (printPrelude prelude) := by
  rw [printPrelude]
  split
  · exact held_nil _
  · exact (show Held Piece.isWhole [' '] by decide).append (fun _ hp => hp) h.held
      fun hs => by cases hs

theorem trim_printPrelude {prelude : String} (h : PreludeText prelude.toList) :
    trim (printPrelude prelude) = prelude.toList := by
  rw [printPrelude]
  split
  · next hp =>
    obtain rfl : prelude = "" := by simpa using hp
    rfl
  · exact Text.trim_blank_cons (by decide) h.trimmed

/-- A name ends at the blank in front of the prelude, or at the character behind an empty one. -/
theorem reads_name_end {name prelude : String} (hname : NameText name) {c : Char}
    (hc : isItemEnd c = true) (r : Reader) (rest : List Char) :
    Reads { r with phase := .atName [] } name.toList (printPrelude prelude ++ c :: rest)
      { r with phase := .prelude name 0 [] } := by
  obtain ⟨d, ds, hds, hd⟩ : ∃ d ds, printPrelude prelude ++ c :: rest = d :: ds ∧
      (d = ' ' ∨ isItemEnd d = true) := by
    rw [printPrelude]
    split
    · exact ⟨c, rest, rfl, .inr hc⟩
    · exact ⟨' ', _, rfl, .inl rfl⟩
  obtain ⟨hn, hq, hb, hs⟩ : isNameChar d = false ∧ isQuote d = false ∧ d ≠ '\\' ∧ d ≠ '/' := by
    simp only [isItemEnd, Bool.or_eq_true, beq_iff_eq] at hd
    rcases hd with rfl | (rfl | rfl) | rfl <;> decide
  obtain ⟨o, ho⟩ := reads_name hname r [] (d :: ds)
  refine ⟨o, ?_⟩
  rw [hds, ho, List.append_nil, read_atName hn hq hb hs { r with offset := o },
    List.reverse_reverse, String.ofList_toList]

/-- A rule with an at-sign is read up to the character behind its prelude. -/
theorem reads_atWord {r : Reader} (hr : r.phase = .idle) {name prelude : String}
    (hname : NameText name) (hprelude : PreludeText prelude.toList) {c : Char}
    (hc : isItemEnd c = true) (rest : List Char) :
    Reads r (printAtWord name prelude) (c :: rest)
      { r with phase := .prelude name 0 (printPrelude prelude).reverse } := by
  have hat : r.readChar '@' = .ok { r with phase := .atName [] } := by
    rw [Reader.readChar, hr]
    rfl
  have hstar : (c :: rest).head? ≠ some '*' := by
    rintro ⟨⟩
    cases hc
  have hword : printAtWord name prelude = '@' :: (name.toList ++ printPrelude prelude) := rfl
  rw [hword]
  refine Reads.cons (reads_char rfl (by decide) (by decide) hat _) fun o => ?_
  refine Reads.trans (reads_name_end hname hc { r with offset := o } rest) fun o' => ?_
  have hgather := (gathers_prelude name).reads (held_printPrelude hprelude) hstar
    { r with offset := o' } []
  rw [List.append_nil] at hgather
  exact hgather

/-! ### Blocks that are kept as they are written -/

/-- In a block that is kept as it is written, with `depth` braces open, the pieces are gathered up
to a closing brace behind them all, in front of which none is open. -/
def GathersRaw (name prelude : String) (opened depth : Nat) (ps : List Piece) : Prop :=
  ∃ qs, ps = qs ++ [.char '}'] ∧ ∀ (r : Reader) (text : List Char),
    ∃ o, qs.foldlM Reader.step { r with phase := .raw name prelude opened depth text }
      = .ok { r with phase := .raw name prelude opened 0
                      ((qs.flatMap Piece.source).reverse ++ text),
                     offset := o }

theorem GathersRaw.cons {name prelude : String} {opened depth depth' : Nat} {p : Piece}
    {ps : List Piece} (h : GathersRaw name prelude opened depth' ps)
    (hp : ∀ (r : Reader) (text : List Char),
      { r with phase := .raw name prelude opened depth text }.readPiece p
        = .ok { r with phase := .raw name prelude opened depth' (p.source.reverse ++ text) }) :
    GathersRaw name prelude opened depth (p :: ps) := by
  obtain ⟨qs, rfl, hqs⟩ := h
  refine ⟨p :: qs, rfl, fun r text => ?_⟩
  obtain ⟨o, ho⟩ := hqs { r with offset := r.offset + byteLength p.source }
    (p.source.reverse ++ text)
  refine ⟨o, ?_⟩
  rw [Reader.foldlM_cons_of_ok p (hp r text), List.flatMap_cons, List.reverse_append,
    List.append_assoc]
  exact ho

/-- In such a block a character that is no closing brace is gathered; an opening brace counts. -/
theorem readPiece_raw_char {c : Char} (hc : c ≠ '}') (name prelude : String) (opened depth : Nat)
    (r : Reader) (text : List Char) :
    { r with phase := .raw name prelude opened depth text }.readPiece (.char c)
      = .ok { r with phase := .raw name prelude opened (if c == '{' then depth + 1 else depth)
                      (c :: text) } := by
  by_cases hopen : c = '{'
  · subst hopen
    rfl
  · simp [Reader.readPiece, Reader.readChar, Reader.rawChar, hc, hopen]

theorem readPiece_raw_text {p : Piece} (hchar : ∀ c, p ≠ .char c) (hopen : p.isOpen = false)
    (name prelude : String) (opened depth : Nat) (r : Reader) (text : List Char) :
    { r with phase := .raw name prelude opened depth text }.readPiece p
      = .ok { r with phase := .raw name prelude opened depth (p.source.reverse ++ text) } := by
  cases p with
  | char c => exact absurd rfl (hchar c)
  | openString _ _ => cases hopen
  | openComment _ => cases hopen
  | _ => rfl

theorem gathersRaw_of_rawEnd {depth : Nat} {ps : List Piece} (h : rawEnd depth ps = some [])
    (name prelude : String) (opened : Nat) : GathersRaw name prelude opened depth ps := by
  fun_induction rawEnd depth ps with
  | case1 => cases h
  | case2 c ps hc =>
    obtain rfl : c = '}' := by simpa using hc
    obtain rfl := Option.some.inj h
    exact ⟨[], rfl, fun r text => ⟨r.offset, rfl⟩⟩
  | case3 c ps hc d ih =>
    obtain rfl : c = '}' := by simpa using hc
    exact (ih h).cons fun r text => rfl
  | case4 depth c ps hc ih =>
    exact (ih h).cons (readPiece_raw_char (by simpa using hc) name prelude opened depth)
  | case5 => cases h
  | case6 => cases h
  | case7 depth p ps h₁ h₂ h₃ ih =>
    exact (ih h).cons
      (readPiece_raw_text h₁ (Piece.isOpen_eq_false h₂ h₃) name prelude opened depth)

/-- A printed block that is kept as it is written is read up to its closing brace. -/
theorem reads_raw {block : List Char} (h : RawText block) (name prelude : String) (opened : Nat)
    (r : Reader) (rest : List Char) :
    Reads { r with phase := .raw name prelude opened 0 [] } block ('}' :: rest)
      { r with phase := .raw name prelude opened 0 block.reverse } := by
  obtain ⟨qs, hqs, hread⟩ := gathersRaw_of_rawEnd h.closing name prelude opened
  have hsource : qs.flatMap Piece.source = block := by
    have := source_pieces (block ++ ['}'])
    rw [hqs, List.flatMap_append] at this
    exact List.append_cancel_right this
  have happend : pieces (block ++ '}' :: rest) = qs ++ pieces ('}' :: rest) := by
    have hsettled : ∀ p ∈ (pieces (block ++ ['}'])).getLast?, p.Settled rest := by
      rw [hqs, List.getLast?_concat]
      rintro p ⟨⟩
      exact ⟨by decide, fun hc => absurd hc (by decide)⟩
    have := pieces_append hsettled
    rw [hqs, List.append_assoc, List.append_assoc] at this
    rw [show '}' :: rest = ['}'] ++ rest from rfl, this]
    rw [pieces, pieces, List.singleton_append, List.singleton_append,
      piecesFrom_char rfl (by decide) fun hc => absurd hc (by decide)]
  obtain ⟨o, ho⟩ := hread r []
  refine ⟨o, ?_⟩
  rw [hsource, List.append_nil] at ho
  rw [Reader.read, happend, List.foldlM_append, ho]
  rfl

/-! ### Nodes -/

/-- The reader with a further node, unless that is a comment. -/
def Reader.receive (r : Reader) : Node → Reader
  | .comment _ => r
  | n => r.addNode n.withoutComments

/-- The reader behind a block of which `is` are the last items. -/
def Reader.closeWith (r : Reader) (b : Block) (bs : List Block) (is : List Item) : Reader :=
  { r with blocks := bs }.addNode (b.head.toNode (b.items.reverse ++ is))

theorem Reads.of_addNode {r r' : Reader} {cs rest : List Char} {o : Nat} {n : Node}
    (h : Reads r cs rest ({ r' with offset := o }.addNode n)) :
    Reads r cs rest (r'.addNode n) := by
  obtain ⟨o', ho⟩ := h
  refine ⟨o', ho.trans ?_⟩
  unfold Reader.addNode
  cases r'.blocks <;> rfl

/-- An item may be put into the block, or be the first of those that close it. -/
theorem closeWith_items (r : Reader) (b : Block) (bs : List Block) (i : Item) (is : List Item) :
    r.closeWith { b with items := i :: b.items } bs is = r.closeWith b bs (i :: is) := by
  simp [Reader.closeWith]

/-- A comment is the only node that is not received. -/
theorem comment_or_received (n : Node) :
    (∃ text, n = .comment text) ∨
      (∀ r : Reader, r.receive n = r.addNode n.withoutComments) ∧
      (∀ is, Item.withoutComments (.nested n :: is)
        = .nested n.withoutComments :: Item.withoutComments is) ∧
      ∀ ns, Node.withoutCommentsAll (n :: ns)
        = n.withoutComments :: Node.withoutCommentsAll ns := by
  cases n with
  | comment text => exact .inl ⟨text, rfl⟩
  | _ => exact .inr ⟨fun _ => rfl, fun _ => rfl, fun _ => rfl⟩

/-- Behind a declaration a semicolon stands, unless nothing more is printed. -/
theorem printAll_true (is : List Item) :
    Item.printAll true is = ';' :: Item.printAll false is ∨
      Item.printAll true is = [] ∧ Item.printAll false is = [] := by
  induction is with
  | nil => exact .inr ⟨rfl, rfl⟩
  | cons i is ih =>
    cases i with
    | declaration p v => exact .inl rfl
    | nested n => exact .inl rfl
    | comment _ => exact ih

/-- A declaration is complete at the semicolon or the brace behind it. -/
theorem reads_separated {r : Reader} {b : Block} {bs : List Block} (hb : r.blocks = b :: bs)
    {start : Nat} {text : List Char} {d : Item} (hd : declaration? text.reverse = some d)
    {is : List Item} {rest : List Char} {r' : Reader}
    (h : ∀ o, Reads { r with offset := o, phase := .idle,
                             blocks := { b with items := d :: b.items } :: bs }
      (Item.printAll false is ++ ['}']) rest r') :
    Reads { r with phase := .item start 0 text } (Item.printAll true is ++ ['}']) rest r' := by
  have hend : { r with phase := .item start 0 text }.endItem start text
      = .ok { r with phase := .idle, blocks := { b with items := d :: b.items } :: bs } := by
    simp only [Reader.endItem, hb, hd]
  rcases printAll_true is with hsep | ⟨htrue, hfalse⟩
  · rw [hsep]
    have hsemi : Reader.readChar { r with phase := .item start 0 text } ';' = _ := hend
    exact Reads.cons (reads_char rfl (by decide) (by decide) hsemi _) h
  · -- the brace ends the declaration and the block at once
    rw [htrue]
    obtain ⟨o, ho⟩ := h r.offset
    rw [hfalse] at ho
    refine ⟨o, ho ▸ ?_⟩
    have hclose : { r with phase := .item start 0 text }.readPiece (.char '}')
        = { r with phase := .idle, blocks := { b with items := d :: b.items } :: bs }.readPiece
            (.char '}') := by
      show (Reader.endItem _ start text).bind Reader.close = _
      rw [hend]
      rfl
    rw [Reader.read, Reader.read, List.nil_append, List.singleton_append, pieces,
      piecesFrom_char rfl (by decide) fun hc => absurd hc (by decide), List.foldlM_cons,
      List.foldlM_cons, Reader.step, Reader.step, hclose]

/-- A declaration is gathered up to the semicolon or the brace behind it. -/
theorem reads_declaration {p v : String} (h : HeadText (printDeclaration p v))
    {r : Reader} (hr : r.phase = .idle) (is : List Item) (rest : List Char) :
    Reads r (printDeclaration p v) (Item.printAll true is ++ ['}'] ++ rest)
      { r with phase := .item r.offset 0 (printDeclaration p v).reverse } := by
  have hne : printDeclaration p v ≠ [] := by simp [printDeclaration]
  rcases printAll_true is with hsep | ⟨htrue, -⟩
  · rw [hsep]
    exact reads_item hr h rfl (fun h => absurd h hne) _
  · rw [htrue]
    exact reads_item hr h rfl (fun h => absurd h hne) _

mutual

/-- Reading a printed node adds the node without its comments. -/
theorem reads_node : ∀ (n : Node), n.Legible → ∀ (r : Reader), r.phase = .idle →
    ∀ rest : List Char, Reads r n.print rest (r.receive n)
  | .rule ss body, ⟨hhead, hsplit, hbody⟩, ⟨start, _, blocks, nodes⟩, rfl, rest => by
    refine Reads.trans (reads_item rfl hhead rfl (fun _ => rfl) _) fun o => ?_
    have hopen : Reader.readChar ⟨o, .item start 0 (printSelectors ss).reverse, blocks, nodes⟩ '{'
        = .ok (Reader.openBlock ⟨o, .idle, blocks, nodes⟩ (.rule ss)) := by
      show Except.ok (Reader.openBlock _ (.rule (splitSelectors _))) = _
      rw [List.reverse_reverse, hsplit]
      rfl
    -- the new block is the innermost one, so that closing it gives the node to the blocks around
    refine Reads.cons (reads_char rfl (by decide) (by decide) hopen _) fun o' => ?_
    exact Reads.of_addNode (o := o') (reads_body body hbody
      ⟨o', .idle, ⟨.rule ss, o, []⟩ :: blocks, nodes⟩ _ _ rfl rfl rest)
  | .group name prelude body, ⟨hname, hgroup, hprelude, hbody⟩, ⟨start, _, blocks, nodes⟩, rfl,
      rest => by
    refine Reads.trans (reads_atWord rfl hname hprelude rfl _) fun o => ?_
    have hopen : Reader.readChar
        ⟨o, .prelude name 0 (printPrelude prelude).reverse, blocks, nodes⟩ '{'
        = .ok (Reader.openBlock ⟨o, .idle, blocks, nodes⟩ (.group name prelude)) := by
      simp [Reader.readChar, Reader.preludeChar, hgroup, trim_printPrelude hprelude,
        Reader.openBlock]
    refine Reads.cons (reads_char rfl (by decide) (by decide) hopen _) fun o' => ?_
    exact Reads.of_addNode (o := o') (reads_body body hbody
      ⟨o', .idle, ⟨.group name prelude, o, []⟩ :: blocks, nodes⟩ _ _ rfl rfl rest)
  | .atRule name prelude none, ⟨hname, hprelude⟩, ⟨start, _, blocks, nodes⟩, rfl, rest => by
    refine Reads.trans (reads_atWord rfl hname hprelude rfl rest) fun o => ?_
    have hend : Reader.readChar
        ⟨o, .prelude name 0 (printPrelude prelude).reverse, blocks, nodes⟩ ';'
        = .ok (Reader.addNode ⟨o, .idle, blocks, nodes⟩ (.atRule name prelude none)) := by
      simp [Reader.readChar, Reader.preludeChar, Reader.endAtRule, trim_printPrelude hprelude]
    exact Reads.of_addNode (o := o) (reads_char rfl (by decide) (by decide) hend rest)
  | .atRule name prelude (some block), ⟨hname, hgroup, hprelude, hblock⟩,
      ⟨start, _, blocks, nodes⟩, rfl, rest => by
    refine Reads.trans (reads_atWord rfl hname hprelude rfl _) fun o => ?_
    have hopen : Reader.readChar
        ⟨o, .prelude name 0 (printPrelude prelude).reverse, blocks, nodes⟩ '{'
        = .ok ⟨o, .raw name prelude o 0 [], blocks, nodes⟩ := by
      simp [Reader.readChar, Reader.preludeChar, hgroup, trim_printPrelude hprelude]
    refine Reads.cons (reads_char rfl (by decide) (by decide) hopen _) fun o' => ?_
    refine Reads.trans (reads_raw hblock name prelude o ⟨o', .idle, blocks, nodes⟩ _) fun o'' => ?_
    have hclose : Reader.readChar ⟨o'', .raw name prelude o 0 block.toList.reverse, blocks, nodes⟩
        '}' = .ok (Reader.addNode ⟨o'', .idle, blocks, nodes⟩
          (.atRule name prelude (some block))) := by
      simp [Reader.readChar, Reader.rawChar, hblock.trimmed]
    exact Reads.of_addNode (o := o'') (reads_char rfl (by decide) (by decide) hclose rest)
  | .comment _, _, r, _, rest => Reads.refl r rest

/-- Reading the rest of a block closes it with the further items. -/
theorem reads_body : ∀ (is : List Item), Item.LegibleAll is → ∀ (r : Reader) (b : Block)
    (bs : List Block), r.phase = .idle → r.blocks = b :: bs → ∀ rest : List Char,
    Reads r (Item.printAll false is ++ ['}']) rest
      (r.closeWith b bs (Item.withoutComments is))
  | [], _, ⟨start, _, _, nodes⟩, b, bs, rfl, rfl, rest => by
    have hclose : Reader.readChar ⟨start, .idle, b :: bs, nodes⟩ '}'
        = .ok (Reader.closeWith ⟨start, .idle, b :: bs, nodes⟩ b bs []) := by
      rw [Reader.closeWith, List.append_nil]
      rfl
    exact reads_char rfl (by decide) (by decide) hclose rest
  | .declaration p v :: is, ⟨hhead, hread, his⟩, ⟨start, _, _, nodes⟩, b, bs, rfl, rfl, rest => by
    show Reads _ (printDeclaration p v ++ Item.printAll true is ++ ['}']) rest _
    rw [List.append_assoc]
    refine Reads.trans (reads_declaration hhead rfl is rest) fun o => ?_
    refine reads_separated (r := ⟨o, .idle, b :: bs, nodes⟩) rfl
      (by rw [List.reverse_reverse, hread]) fun o' => ?_
    refine Reads.of_addNode (o := o') ?_
    have hbody := reads_body is his
      ⟨o', .idle, ⟨b.head, b.opened, .declaration p v :: b.items⟩ :: bs, nodes⟩ _ _ rfl rfl rest
    rw [closeWith_items] at hbody
    exact hbody
  | .nested n :: is, ⟨hn, his⟩, ⟨start, _, _, nodes⟩, b, bs, rfl, rfl, rest => by
    show Reads _ (n.print ++ Item.printAll false is ++ ['}']) rest _
    rw [List.append_assoc]
    refine Reads.trans (reads_node n hn _ rfl _) fun o => ?_
    -- a nested comment is printed as nothing and leaves nothing in the block
    rcases comment_or_received n with ⟨text, rfl⟩ | ⟨hreceive, hnested, -⟩
    · exact Reads.of_addNode (o := o)
        (reads_body is his ⟨o, .idle, b :: bs, nodes⟩ b bs rfl rfl rest)
    · rw [hreceive, hnested]
      refine Reads.of_addNode (o := o) ?_
      have hbody := reads_body is his
        ⟨o, .idle, ⟨b.head, b.opened, .nested n.withoutComments :: b.items⟩ :: bs, nodes⟩
        _ _ rfl rfl rest
      rw [closeWith_items] at hbody
      exact hbody
  | .comment _ :: is, his, r, b, bs, hr, hb, rest => reads_body is his r b bs hr hb rest

end

/-! ### Whole stylesheets -/

/-- Reading printed nodes outside every block adds them, without their comments, in order. -/
theorem reads_printAll {ns : List Node} (h : ∀ n ∈ ns, n.Legible) (o : Nat) (nodes : List Node) :
    Reads ⟨o, .idle, [], nodes⟩ (Node.printAll ns) []
      ⟨o, .idle, [], (Node.withoutCommentsAll ns).reverse ++ nodes⟩ := by
  induction ns generalizing o nodes with
  | nil => exact Reads.refl _ []
  | cons n ns ih =>
    have hns := ih fun m hm => h m (List.mem_cons_of_mem _ hm)
    rw [Node.printAll, List.flatMap_cons]
    refine Reads.trans (reads_node n (h n List.mem_cons_self) _ rfl _) fun o' => ?_
    rcases comment_or_received n with ⟨text, rfl⟩ | ⟨hreceive, -, hall⟩
    · exact hns o' nodes
    · rw [hreceive, hall, List.reverse_cons, List.append_assoc]
      exact hns o' (n.withoutComments :: nodes)

/-- A legible stylesheet is read back, without its comments, from what is printed. -/
theorem parse_print_of_legible {s : Stylesheet} (h : s.Legible) :
    parse s.print = .ok s.withoutComments := by
  obtain ⟨o, ho⟩ := reads_printAll h 0 []
  rw [List.append_nil, List.append_nil] at ho
  rw [Reader.parse_eq_read, Stylesheet.print, String.toList_ofList, ho]
  show Except.ok (Stylesheet.mk _) = _
  rw [List.reverse_reverse]
  rfl

end ComponentCompiler.Style
