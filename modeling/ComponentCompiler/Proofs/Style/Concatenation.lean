import ComponentCompiler.Proofs.Style.RoundTrip

/-!
# Stylesheets one behind the other

A text that is a stylesheet by itself leaves the reader between items, outside every block, so a
text behind it is read as if it stood alone.  Two things only are different: all offsets are further
back by the length of the first text, and its nodes are there already.  No step of the reader looks
at either of them.

The exception is a text whose last rule starts with an at-sign and ends where the text ends: what
follows would be read as part of it.

## Main definitions

* `CssError.shift`, `Reader.behind` — an error and a reader behind a text of some length.
* `EndsInAtRule` — the end of a text ends a rule with an at-sign.

## Main results

* `step_behind`, `finish_behind` — a reader behind a text does what it does without it.
* `read_of_parse` — where a stylesheet leaves the reader.
* `parse_append` — **reading stylesheets one behind the other gives their nodes one behind the
  other**.
-/

namespace ComponentCompiler.Style

open Text (byteLength trim isPlainBlank)

/-! ### Behind a text -/

/-- The same error behind a text of `n` bytes. -/
def CssError.shift (n : Nat) : CssError → CssError
  | .fault f offset => .fault f (offset + n)
  | e => e

/-- A result behind a text of `n` bytes. -/
def moved {α β : Type} (n : Nat) (f : α → β) : Except CssError α → Except CssError β
  | .ok a => .ok (f a)
  | .error e => .error (e.shift n)

theorem bind_moved {α β α' β' : Type} {n : Nat} {f : α → α'} {f' : β → β'}
    {g : α → Except CssError β} {g' : α' → Except CssError β'}
    (h : ∀ a, g' (f a) = moved n f' (g a)) (x : Except CssError α) :
    (moved n f x).bind g' = moved n f' (x.bind g) := by
  cases x with
  | ok a => exact h a
  | error e => rfl

/-- The same phase behind a text of `n` bytes. -/
def Phase.behind (n : Nat) : Phase → Phase
  | .item start depth text => .item (start + n) depth text
  | .raw name condition opened depth text => .raw name condition (opened + n) depth text
  | phase => phase

/-- The same open block behind a text of `n` bytes. -/
def Block.behind (n : Nat) (b : Block) : Block := { b with opened := b.opened + n }

namespace Reader

variable {n : Nat} {ns : List Node} {r : Reader}

/-- The same reader behind a text of `n` bytes with the nodes `ns`, latest first. -/
def behind (n : Nat) (ns : List Node) (r : Reader) : Reader where
  offset := r.offset + n
  phase := r.phase.behind n
  blocks := r.blocks.map (Block.behind n)
  nodes := r.nodes ++ ns

/-! ### One step -/

theorem addNode_behind (r : Reader) (m : Node) :
    (r.behind n ns).addNode m = (r.addNode m).behind n ns := by
  obtain ⟨offset, phase, blocks, nodes⟩ := r
  cases blocks <;> rfl

theorem addComment_behind (r : Reader) (text : List Char) :
    (r.behind n ns).addComment text = (r.addComment text).behind n ns := by
  obtain ⟨offset, phase, blocks, nodes⟩ := r
  cases blocks <;> rfl

theorem close_behind (r : Reader) : (r.behind n ns).close = moved n (behind n ns) r.close := by
  obtain ⟨offset, phase, blocks, nodes⟩ := r
  cases blocks with
  | nil => rfl
  | cons b bs => exact congrArg Except.ok (addNode_behind ⟨offset, .idle, bs, nodes⟩ _)

theorem endItem_behind (r : Reader) (start : Nat) (text : List Char) :
    (r.behind n ns).endItem (start + n) text = moved n (behind n ns) (r.endItem start text) := by
  obtain ⟨offset, phase, blocks, nodes⟩ := r
  cases blocks with
  | nil => rfl
  | cons b bs =>
    simp only [endItem, behind, List.map_cons]
    cases declaration? text.reverse <;> rfl

theorem endAtRule_behind (r : Reader) (name : String) (text : List Char) :
    (r.behind n ns).endAtRule name text = (r.endAtRule name text).behind n ns :=
  addNode_behind { r with phase := .idle } _

theorem itemChar_behind (r : Reader) (start depth : Nat) (text : List Char) (c : Char) :
    (r.behind n ns).itemChar (start + n) depth text c
      = moved n (behind n ns) (r.itemChar start depth text c) := by
  unfold itemChar
  split
  · rfl
  · exact endItem_behind r start text
  · show ((r.behind n ns).endItem (start + n) text).bind close = _
    rw [endItem_behind]
    exact bind_moved close_behind _
  · rfl

theorem preludeChar_behind (r : Reader) (name : String) (depth : Nat) (text : List Char)
    (c : Char) :
    (r.behind n ns).preludeChar name depth text c
      = moved n (behind n ns) (r.preludeChar name depth text c) := by
  unfold preludeChar
  split
  · show (if isGroupName name then _ else _) = _
    split <;> rfl
  · exact congrArg Except.ok (endAtRule_behind r name text)
  · rw [endAtRule_behind]
    exact close_behind _
  · rfl

theorem rawChar_behind (r : Reader) (name prelude : String) (opened depth : Nat)
    (text : List Char) (c : Char) :
    (r.behind n ns).rawChar name prelude (opened + n) depth text c
      = (r.rawChar name prelude opened depth text c).behind n ns := by
  unfold rawChar
  split
  · exact addNode_behind { r with phase := .idle } _
  · rfl
  · rfl
  · rfl

theorem readChar_behind (r : Reader) (c : Char) :
    (r.behind n ns).readChar c = moved n (behind n ns) (r.readChar c) := by
  obtain ⟨offset, phase, blocks, nodes⟩ := r
  cases phase with
  | idle =>
    simp only [readChar, behind, Phase.behind]
    split
    · rfl
    · split
      · exact close_behind ⟨offset, .idle, blocks, nodes⟩
      · split
        · rfl
        · exact itemChar_behind ⟨offset, .idle, blocks, nodes⟩ offset 0 [] c
  | item start depth text => exact itemChar_behind _ start depth text c
  | atName text =>
    simp only [readChar, behind, Phase.behind]
    split
    · rfl
    · exact preludeChar_behind ⟨offset, .atName text, blocks, nodes⟩ _ 0 [] c
  | prelude name depth text => exact preludeChar_behind _ name depth text c
  | raw name prelude opened depth text =>
    exact congrArg Except.ok (rawChar_behind _ name prelude opened depth text c)

theorem readText_behind (r : Reader) (source : List Char) :
    (r.behind n ns).readText source = (r.readText source).behind n ns := by
  obtain ⟨offset, phase, blocks, nodes⟩ := r
  cases phase <;> rfl

theorem readComment_behind (r : Reader) (inside : List Char) :
    (r.behind n ns).readComment inside = (r.readComment inside).behind n ns := by
  obtain ⟨offset, phase, blocks, nodes⟩ := r
  cases phase with
  | idle => exact addComment_behind ⟨offset, .idle, blocks, nodes⟩ inside
  | _ => rfl

theorem readPiece_behind (r : Reader) (p : Piece) :
    (r.behind n ns).readPiece p = moved n (behind n ns) (r.readPiece p) := by
  cases p with
  | char c => exact readChar_behind r c
  | comment inside => exact congrArg Except.ok (readComment_behind r inside)
  | openString q inside => rfl
  | openComment inside => rfl
  | escape c => exact congrArg Except.ok (readText_behind r _)
  | string q inside => exact congrArg Except.ok (readText_behind r _)

/-- **A step behind a text is the step without it.** -/
theorem step_behind (r : Reader) (p : Piece) :
    (r.behind n ns).step p = moved n (behind n ns) (r.step p) := by
  show ((r.behind n ns).readPiece p).bind _ = moved n (behind n ns) ((r.readPiece p).bind _)
  rw [readPiece_behind]
  refine bind_moved (fun r' => ?_) _
  refine congrArg Except.ok ?_
  simp only [behind]
  congr 1
  omega

/-! ### A whole text -/

theorem foldlM_step_behind (r : Reader) (ps : List Piece) :
    ps.foldlM step (r.behind n ns) = moved n (behind n ns) (ps.foldlM step r) := by
  induction ps generalizing r with
  | nil => rfl
  | cons p ps ih =>
    rw [List.foldlM_cons, List.foldlM_cons, step_behind]
    exact bind_moved ih _

theorem settle_behind (r : Reader) :
    (r.behind n ns).settle = moved n (fun s => ⟨ns.reverse ++ s.rules⟩) r.settle := by
  obtain ⟨offset, phase, blocks, nodes⟩ := r
  cases blocks with
  | nil => exact congrArg (fun rules => Except.ok (Stylesheet.mk rules)) List.reverse_append
  | cons b bs => rfl

/-- The end of a text behind another one is the end without it. -/
theorem finish_behind (n : Nat) (ns : List Node) (r : Reader) :
    (r.behind n ns).finish = moved n (fun s => ⟨ns.reverse ++ s.rules⟩) r.finish := by
  obtain ⟨offset, phase, blocks, nodes⟩ := r
  cases phase with
  | idle => exact settle_behind _
  | item start depth text =>
    show ((behind n ns _).endItem (start + n) text).bind settle = _
    rw [endItem_behind]
    exact bind_moved settle_behind _
  | atName text =>
    show ((behind n ns _).endAtRule _ []).settle = _
    rw [endAtRule_behind]
    exact settle_behind _
  | prelude name depth text =>
    show ((behind n ns _).endAtRule name text).settle = _
    rw [endAtRule_behind]
    exact settle_behind _
  | raw name prelude opened depth text => rfl

/-! ### Where a stylesheet leaves the reader -/

theorem offset_of_foldlM {r r' : Reader} {ps : List Piece} (h : ps.foldlM step r = .ok r') :
    r'.offset = r.offset + byteLength (ps.flatMap Piece.source) := by
  induction ps generalizing r with
  | nil =>
    cases h
    rfl
  | cons p ps ih =>
    rw [List.foldlM_cons] at h
    obtain ⟨r₁, hstep, h⟩ := bind_eq_ok.1 h
    obtain ⟨r₂, -, rfl⟩ := step_eq_ok hstep
    have htail := ih h
    rw [List.flatMap_cons, Text.byteLength_append]
    simp only at htail
    omega

/-- Behind a slash or a backslash that is a piece by itself, the reader is in the middle of an
item. -/
theorem phase_of_readChar {r r' : Reader} {c : Char} (hc : c = '/' ∨ c = '\\')
    (h : r.readChar c = .ok r') : r'.phase ≠ .idle := by
  -- neither character ends anything, so in every phase it is text
  have hitem : ∀ start depth text, r.itemChar start depth text c
      = .ok { r with phase := .item start (bracketDepth depth c) (c :: text) } := by
    intro start depth text
    rcases hc with rfl | rfl <;> cases depth <;> rfl
  have hprelude : ∀ name depth text, r.preludeChar name depth text c
      = .ok { r with phase := .prelude name (bracketDepth depth c) (c :: text) } := by
    intro name depth text
    rcases hc with rfl | rfl <;> cases depth <;> rfl
  have hraw : ∀ name prelude opened depth text, r.rawChar name prelude opened depth text c
      = { r with phase := .raw name prelude opened depth (c :: text) } := by
    intro name prelude opened depth text
    rcases hc with rfl | rfl <;> rfl
  rw [readChar] at h
  split at h
  · have hstart :
        (isPlainBlank c || c == ';') = false ∧ (c == '}') = false ∧ (c == '@') = false := by
      rcases hc with rfl | rfl <;> decide
    simp only [hstart, Bool.false_eq_true, if_false, hitem] at h
    cases h
    simp
  · rw [hitem] at h
    cases h
    simp
  · have hname : isNameChar c = false := by
      rcases hc with rfl | rfl <;> decide
    simp only [hname, Bool.false_eq_true, if_false, hprelude] at h
    cases h
    simp
  · rw [hprelude] at h
    cases h
    simp
  · rw [hraw] at h
    cases h
    simp

/-- A reader between items has read its last piece to the end. -/
theorem settled_of_foldlM {r r' : Reader} {ps : List Piece} (h : ps.foldlM step r = .ok r')
    (hidle : r'.phase = .idle) (rest : List Char) : ∀ p ∈ ps.getLast?, p.Settled rest := by
  intro p hp
  obtain ⟨qs, rfl⟩ := List.getLast?_eq_some_iff.1 hp
  rw [List.foldlM_append] at h
  obtain ⟨r₁, -, h⟩ := bind_eq_ok.1 h
  rw [List.foldlM_cons] at h
  obtain ⟨r₂, hstep, h⟩ := bind_eq_ok.1 h
  cases h
  obtain ⟨r₃, hread, rfl⟩ := step_eq_ok hstep
  cases p with
  | char c =>
    have hne : ¬ (c = '/' ∨ c = '\\') := fun hc => phase_of_readChar hc hread hidle
    exact ⟨fun hc => hne (.inr hc), fun hc => absurd (.inl hc) hne⟩
  | openString q inside => cases hread
  | openComment inside => cases hread
  | _ => exact trivial

end Reader

/-- In a rule with an at-sign, in front of its block. -/
def Phase.inAtRule : Phase → Bool
  | .atName _ => true
  | .prelude .. => true
  | _ => false

/-- The end of the text ends a rule with an at-sign. -/
def EndsInAtRule (css : String) : Prop :=
  ∃ r : Reader, Reader.read {} css.toList = .ok r ∧ r.phase.inAtRule = true

instance (css : String) : Decidable (EndsInAtRule css) :=
  decidable_of_iff (((Reader.read {} css.toList).toOption.any (·.phase.inAtRule)) = true) (by
    cases h : Reader.read {} css.toList <;> simp [EndsInAtRule, h, Except.toOption])

/-- A stylesheet leaves the reader between items and outside every block, unless its end ends a rule
with an at-sign. -/
theorem read_of_parse {a : String} {s : Stylesheet} (h : parse a = .ok s)
    (hend : ¬ EndsInAtRule a) :
    Reader.read {} a.toList = .ok ⟨byteLength a.toList, .idle, [], s.rules.reverse⟩ := by
  rw [Reader.parse_eq_read] at h
  obtain ⟨r, hread, hfinish⟩ := Reader.bind_eq_ok.1 h
  have hoffset := Reader.offset_of_foldlM hread
  rw [source_pieces] at hoffset
  obtain ⟨offset, phase, blocks, nodes⟩ := r
  cases phase with
  | idle =>
    cases blocks with
    | nil =>
      cases hfinish
      rw [hread, List.reverse_reverse]
      simpa using hoffset
    | cons b bs => cases hfinish
  | item start depth text =>
    -- outside every block the item would lack its block, and a block would lack its brace
    obtain ⟨r₁, hitem, hsettle⟩ := Reader.bind_eq_ok.1 hfinish
    cases blocks with
    | nil => cases hitem
    | cons b bs =>
      simp only [Reader.endItem] at hitem
      split at hitem
      · cases hitem
      · cases hitem
        cases hsettle
  | atName text => exact absurd ⟨_, hread, rfl⟩ hend
  | prelude name depth text => exact absurd ⟨_, hread, rfl⟩ hend
  | raw name prelude opened depth text => cases hfinish

/-- Behind a stylesheet, a text is read as it is read by itself. -/
theorem parse_append_eq_moved {a b : String} {s : Stylesheet} (ha : parse a = .ok s)
    (hend : ¬ EndsInAtRule a) :
    parse (a ++ b) = moved (byteLength a.toList) (fun t => ⟨s.rules ++ t.rules⟩) (parse b) := by
  have hread := read_of_parse ha hend
  have hpieces : pieces (a.toList ++ b.toList) = pieces a.toList ++ pieces b.toList :=
    pieces_append (Reader.settled_of_foldlM hread rfl _)
  have hstart : (⟨byteLength a.toList, .idle, [], s.rules.reverse⟩ : Reader)
      = Reader.behind (byteLength a.toList) s.rules.reverse {} := by
    simp [Reader.behind, Phase.behind]
  rw [Reader.parse_eq_read, Reader.parse_eq_read, String.toList_append, Reader.read, hpieces,
    List.foldlM_append]
  show ((Reader.read {} a.toList).bind fun r => (pieces b.toList).foldlM Reader.step r).bind _ = _
  rw [hread, hstart]
  show ((pieces b.toList).foldlM Reader.step (Reader.behind _ _ {})).bind Reader.finish = _
  rw [Reader.foldlM_step_behind]
  have hfinish := bind_moved
    (Reader.finish_behind (byteLength a.toList) s.rules.reverse) (Reader.read {} b.toList)
  rw [List.reverse_reverse] at hfinish
  exact hfinish

/-- **Stylesheets one behind the other are read one behind the other.**  Behind a stylesheet whose
end does not end a rule with an at-sign, a further stylesheet gives its nodes behind those of the
first one, and what is wrong with a text is wrong with it there, further back by the length of the
first one in bytes. -/
theorem parse_append {a b : String} {s : Stylesheet} (ha : parse a = .ok s)
    (hend : ¬ EndsInAtRule a) :
    (∀ t, parse b = .ok t → parse (a ++ b) = .ok ⟨s.rules ++ t.rules⟩) ∧
      ∀ e, parse b = .error e → parse (a ++ b) = .error (e.shift a.utf8ByteSize) := by
  have hmoved := parse_append_eq_moved (b := b) ha hend
  rw [Text.byteLength_toList] at hmoved
  constructor
  · intro t ht
    rw [hmoved, ht]
    rfl
  · intro e he
    rw [hmoved, he]
    rfl

/-- A comment, an import and a rule. -/
def frontText : String := "/* é */@import 'x';p\x7ba:b\x7d"

/-- What is read from it. -/
def frontSheet : Stylesheet :=
  ⟨[.comment " é ", .atRule "import" "'x'" none, .rule ["p"] [.declaration "a" "b"]]⟩

theorem parse_append_frontText :
    parse frontText = .ok frontSheet ∧ ¬ EndsInAtRule frontText ∧
      parse (frontText ++ "q\x7b\x7d") = .ok ⟨frontSheet.rules ++ [.rule ["q"] []]⟩ ∧
      parse (frontText ++ "q\x7b") = .error (.fault .unclosedBlock 27) := by
  have hfront : parse frontText = .ok frontSheet := by decide +kernel
  have hend : ¬ EndsInAtRule frontText := by decide +kernel
  have hrule : parse "q\x7b\x7d" = .ok ⟨[.rule ["q"] []]⟩ := by decide +kernel
  have hopen : parse "q\x7b" = .error (.fault .unclosedBlock 1) := by decide +kernel
  refine ⟨hfront, hend, (parse_append hfront hend).1 _ hrule, ?_⟩
  rw [(parse_append hfront hend).2 _ hopen]
  rfl

end ComponentCompiler.Style
