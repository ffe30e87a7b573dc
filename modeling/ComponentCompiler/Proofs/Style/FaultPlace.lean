import ComponentCompiler.Proofs.Style.CommentRemoval
import ComponentCompiler.Proofs.Style.Components
import ComponentCompiler.Proofs.Style.Concatenation

/-!
# Where a fault is

What is wrong with a text that is no stylesheet is reported with a place.  At this place stands what
is at fault: the mark of a comment or the quote of a string that is never closed, the brace of a
block that is never closed, a brace that closes nothing, the first character of an item that lacks
its block or its colon.

The reader keeps two kinds of places, those of braces that are open and that of the item under way.
`Reader.Moves` says what one piece can do to them, and from it follows, piece by piece, where they
point (`Reader.Placed`).

## Main definitions

* `Cause before after f` — the fault `f` between two texts is a fault of what stands there.
* `openBlocks?` — how many blocks are open behind a text that ends between items.
* `BareItem` — an item that is not followed by a block.
* `Reader.Moves` — what reading a piece does to the places that a reader keeps.

## Main results

* `moves_of_readPiece`, `placed_step`, `placed_foldlM` — where the places of a reader point.
* `cause_of_parse` — every fault has its cause where it is reported.
-/

namespace ComponentCompiler.Style

open Text (byteLength isPlainBlank)

/-! ### Causes -/

/-- How many blocks are open behind a text, if the text ends between two items. -/
def openBlocks? (cs : List Char) : Option Nat :=
  match Reader.read {} cs with
  | .ok ⟨_, .idle, blocks, _⟩ => some blocks.length
  | _ => none

/-- An item stands in front of `rest` and has no block: a semicolon or a closing brace ends it where
no bracket is open, or else the end of the whole text. -/
structure BareItem (item rest : List Char) : Prop where
  /-- Its first piece starts an item. -/
  opens : ∃ p ∈ (pieces item).head?, p.opensItem = true
  /-- It does not end earlier. -/
  undivided : depthAfter isItemEnd 0 (pieces item) ≠ none
  /-- It ends in front of `rest`. -/
  ends : rest = [] ∨
    depthAfter isItemEnd 0 (pieces item) = some 0 ∧ (rest.head? = some ';' ∨ rest.head? = some '}')

/-- What a fault between `before` and `after` is caused by. -/
def Cause (before after : List Char) : Fault → Prop
  | .unterminatedComment => ∃ inside, after = '/' :: '*' :: inside ∧ ¬ ['*', '/'] <:+: inside
  | .unterminatedString => ∃ quote inside, after = quote :: inside ∧ isQuote quote = true ∧
      ∀ a b, inside = a ++ quote :: b → endsEscaping a = true
  | .unclosedBlock => after.head? = some '{'
  | .unexpectedClose => after.head? = some '}' ∧ ∃ s, parse (String.ofList before) = .ok s
  | .missingBlock => openBlocks? before = some 0 ∧ ∃ item rest, after = item ++ rest ∧
      BareItem item rest
  | .missingColon => (∃ n, openBlocks? before = some (n + 1)) ∧ ∃ item rest, after = item ++ rest ∧
      BareItem item rest ∧ ':' ∉ stripComments item

theorem BareItem.ne_nil {item rest : List Char} (h : BareItem item rest) : item ≠ [] := by
  rintro rfl
  obtain ⟨p, hp, -⟩ := h.opens
  cases hp

/-- A fault is never behind the text. -/
theorem Cause.ne_nil {before after : List Char} {f : Fault} (h : Cause before after f) :
    after ≠ [] := by
  rintro rfl
  cases f with
  | unterminatedComment => obtain ⟨inside, hafter, -⟩ := h; cases hafter
  | unterminatedString => obtain ⟨quote, inside, hafter, -⟩ := h; cases hafter
  | unclosedBlock => cases h
  | unexpectedClose => cases h.1
  | missingBlock =>
    obtain ⟨-, item, rest, hafter, hitem⟩ := h
    exact hitem.ne_nil (List.append_eq_nil_iff.1 hafter.symm).1
  | missingColon =>
    obtain ⟨-, item, rest, hafter, hitem, -⟩ := h
    exact hitem.ne_nil (List.append_eq_nil_iff.1 hafter.symm).1

/-! ### Strings and comments that are never closed -/

/-- In what can stand in a string, every quote of its own is escaped; a backslash may be left over
behind it. -/
theorem escaped_of_isStringBody {q : Char} (hq : q ≠ '\\') {body lone : List Char}
    (h : isStringBody q body = true) (hlone : q ∉ lone) {a b : List Char}
    (heq : body ++ lone = a ++ q :: b) : endsEscaping a = true := by
  fun_induction isStringBody q body generalizing a with
  | case1 c body ih =>
    cases a with
    | nil => exact absurd (List.cons.inj heq).1.symm hq
    | cons d a =>
      obtain ⟨rfl, htail⟩ := List.cons.inj heq
      cases a with
      | nil => rfl
      | cons e a => exact ih (a := a) h (List.cons.inj htail).2
  | case2 c body hbody ih =>
    simp only [Bool.and_eq_true, bne_iff_ne] at h
    cases a with
    | nil => exact absurd (List.cons.inj heq).1 h.1.1
    | cons d a =>
      obtain ⟨rfl, htail⟩ := List.cons.inj heq
      rw [endsEscaping_cons h.1.2]
      exact ih h.2 htail
  | case3 =>
    refine absurd ?_ hlone
    rw [← List.nil_append lone, heq]
    simp

/-- What can stand between the marks of a comment does not hold the closing one. -/
theorem not_mark_of_isCommentBody {cs : List Char} (h : isCommentBody cs = true) :
    ¬ ['*', '/'] <:+: cs := by
  fun_induction isCommentBody cs with
  | case1 => cases h
  | case2 c cs hmark ih =>
    rw [List.infix_cons_iff]
    rintro (⟨ds, hds⟩ | hcs)
    · obtain ⟨rfl, rfl⟩ := List.cons.inj hds
      exact hmark ds rfl rfl
    · exact ih h hcs
  | case3 => simp

/-- A piece that is open has nothing in it that would close it. -/
def Piece.NeverClosed : Piece → Prop
  | .openString q body =>
      isQuote q = true ∧ ∀ a b, body = a ++ q :: b → endsEscaping a = true
  | .openComment body => ¬ ['*', '/'] <:+: body
  | _ => True

theorem neverClosed_piecesFrom (cut : Cut) (cs : List Char) (hcut : cut.Fits cs) :
    ∀ p ∈ piecesFrom cut cs, p.NeverClosed := by
  fun_induction piecesFrom cut cs with
  | case1 cs ih => exact ih ⟨rfl, by simp⟩
  | case2 c cs ih => exact List.forall_mem_cons.2 ⟨trivial, ih trivial⟩
  | case3 c cs _ _ hc ih => exact ih ⟨hc, rfl⟩
  | case4 c cs _ _ hc ih => exact List.forall_mem_cons.2 ⟨trivial, ih trivial⟩
  | case5 => simp
  | case6 q r c cs ih => exact ih (hcut.escape c cs)
  | case7 q r c cs _ _ ih => exact List.forall_mem_cons.2 ⟨trivial, ih trivial⟩
  | case8 q r c cs h₁ hc ih =>
    have hq := ne_backslash_of_isQuote hcut.1
    by_cases hb : c = '\\'
    · -- a backslash with nothing behind it is the last character of the string
      obtain rfl : cs = [] := by
        cases cs with
        | nil => rfl
        | cons d ds => exact (h₁ d ds hb rfl).elim
      rw [piecesFrom, hb, List.reverse_cons]
      refine List.forall_mem_singleton.2 ⟨hcut.1, fun a b hab => ?_⟩
      exact escaped_of_isStringBody hq hcut.2 (by simpa using hq) hab
    · exact ih (hcut.char hc hb cs)
  | case9 q r =>
    refine List.forall_mem_singleton.2 ⟨hcut.1, fun a b hab => ?_⟩
    rw [← List.append_nil r.reverse] at hab
    exact escaped_of_isStringBody (ne_backslash_of_isQuote hcut.1) hcut.2 (by simp) hab
  | case10 r cs ih => exact List.forall_mem_cons.2 ⟨trivial, ih trivial⟩
  | case11 r c cs h₁ ih => exact ih (hcut.inside h₁)
  | case12 r => exact List.forall_mem_singleton.2 (not_mark_of_isCommentBody hcut.1)

/-! ### The places that a reader keeps -/

/-- The place of the brace that opened the block under way, if it is one that is kept as it is
written. -/
def Phase.brace? : Phase → Option Nat
  | .raw _ _ opened _ _ => some opened
  | _ => none

namespace Reader

/-- The places of the braces whose blocks are open. -/
def braces (r : Reader) : List Nat := r.phase.brace?.toList ++ r.blocks.map Block.opened

/-- What reading the piece `p` does to the places that a reader keeps. -/
inductive Moves (r : Reader) (p : Piece) (r' : Reader) : Prop
  /-- The piece starts an item. -/
  | starts {depth : Nat} (idle : r.phase = .idle) (opens : p.opensItem = true)
      (depth_eq : depthAfter isItemEnd 0 [p] = some depth)
      (phase : r'.phase = .item r.offset depth p.source.reverse) (blocks : r'.blocks = r.blocks)
  /-- The piece adds to the item under way. -/
  | adds {start depth depth' : Nat} {text : List Char} (item : r.phase = .item start depth text)
      (depth_eq : depthAfter isItemEnd depth [p] = some depth')
      (phase : r'.phase = .item start depth' (p.source.reverse ++ text))
      (blocks : r'.blocks = r.blocks)
  /-- Otherwise no item is under way, and the only new brace is the piece itself. -/
  | other (noItem : ∀ start depth text, r'.phase ≠ .item start depth text)
      (braces : ∀ o ∈ r'.braces, o ∈ r.braces ∨ p = .char '{' ∧ o = r.offset)

variable {r r' : Reader}

/-- A reader that is between items again has closed blocks, if anything. -/
structure Settles (r r' : Reader) : Prop where
  idle : r'.phase = .idle
  blocks : r'.blocks.map Block.opened ⊆ r.blocks.map Block.opened

theorem Settles.moves {p : Piece} (h : Settles r r') : Moves r p r' := by
  refine .other (by simp [h.idle]) fun o ho => .inl ?_
  rw [braces, h.idle] at ho
  exact List.mem_append_right _ (h.blocks ho)

theorem opened_addNode (r : Reader) (n : Node) :
    (r.addNode n).blocks.map Block.opened = r.blocks.map Block.opened := by
  obtain ⟨offset, phase, blocks, nodes⟩ := r
  cases blocks <;> rfl

theorem opened_addComment (r : Reader) (text : List Char) :
    (r.addComment text).blocks.map Block.opened = r.blocks.map Block.opened := by
  obtain ⟨offset, phase, blocks, nodes⟩ := r
  cases blocks <;> rfl

theorem settles_addNode (r : Reader) (n : Node) : Settles r ({ r with phase := .idle }.addNode n) :=
  ⟨phase_addNode _ _, by rw [opened_addNode]; exact List.Subset.refl _⟩

theorem settles_close (h : r.close = .ok r') : Settles r r' := by
  obtain ⟨offset, phase, blocks, nodes⟩ := r
  cases blocks with
  | nil => cases h
  | cons b bs =>
    obtain rfl := Except.ok.inj h
    refine ⟨phase_addNode _ _, ?_⟩
    rw [opened_addNode]
    exact List.subset_cons_self _ _

theorem settles_endItem {start : Nat} {text : List Char} (h : r.endItem start text = .ok r') :
    Settles r r' := by
  obtain ⟨offset, phase, blocks, nodes⟩ := r
  cases blocks with
  | nil => cases h
  | cons b bs =>
    simp only [endItem] at h
    split at h
    · cases h
    · obtain rfl := Except.ok.inj h
      exact ⟨rfl, List.Subset.refl _⟩

theorem Settles.trans {r'' : Reader} (h : Settles r r') (h' : Settles r' r'') : Settles r r'' :=
  ⟨h'.idle, List.Subset.trans h'.blocks h.blocks⟩

theorem moves_openBlock (head : Head) : Moves r (.char '{') (r.openBlock head) := by
  refine .other (by simp [openBlock]) fun o ho => ?_
  rcases List.mem_cons.1 ho with rfl | ho
  · exact .inr ⟨rfl, rfl⟩
  · exact .inl (List.mem_append_right _ ho)

/-- A character of an item is added to it, or ends it. -/
theorem itemChar_cases {start depth : Nat} {text : List Char} {c : Char}
    (h : r.itemChar start depth text c = .ok r') :
    Settles r r' ∨ c = '{' ∧ (∃ head, r' = r.openBlock head) ∨
      depthAfter isItemEnd depth [.char c] = some (bracketDepth depth c) ∧
        r' = { r with phase := .item start (bracketDepth depth c) (c :: text) } := by
  by_cases hc : (depth == 0 && isItemEnd c) = true
  · simp only [isItemEnd, Bool.and_eq_true, Bool.or_eq_true, beq_iff_eq] at hc
    obtain ⟨rfl, (rfl | rfl) | rfl⟩ := hc
    · exact .inr (.inl ⟨rfl, _, (Except.ok.inj h).symm⟩)
    · exact .inl (settles_endItem h)
    · obtain ⟨r₁, hend, hclose⟩ := bind_eq_ok.1 h
      exact .inl ((settles_endItem hend).trans (settles_close hclose))
  · have hgather := (gathers_item start).char r depth text c (by simpa using hc)
    have hphase := itemChar_phase r (.item start depth text) start depth text c
    refine .inr (.inr ⟨?_, (Except.ok.inj (hgather.symm.trans (hphase.trans h))).symm⟩)
    rw [depthAfter, if_neg hc]
    rfl

theorem moves_preludeChar {name : String} {depth : Nat} {text : List Char} {c : Char}
    (h : r.preludeChar name depth text c = .ok r') : Moves r (.char c) r' := by
  by_cases hc : (depth == 0 && isItemEnd c) = true
  · simp only [isItemEnd, Bool.and_eq_true, Bool.or_eq_true, beq_iff_eq] at hc
    obtain ⟨rfl, (rfl | rfl) | rfl⟩ := hc
    · simp only [preludeChar] at h
      split at h
      · obtain rfl := Except.ok.inj h
        exact moves_openBlock _
      · obtain rfl := Except.ok.inj h
        refine .other (by simp) fun o ho => ?_
        rcases List.mem_cons.1 ho with rfl | ho
        · exact .inr ⟨rfl, rfl⟩
        · exact .inl (List.mem_append_right _ ho)
    · obtain rfl := Except.ok.inj h
      exact (settles_addNode r _).moves
    · exact ((settles_addNode r _).trans (settles_close h)).moves
  · have hgather := (gathers_prelude name).char r depth text c (by simpa using hc)
    have hphase := preludeChar_phase r (.prelude name depth text) name depth text c
    obtain rfl := Except.ok.inj (hgather.symm.trans (hphase.trans h))
    exact .other (by simp) fun o ho => .inl (List.mem_append_right _ ho)

theorem moves_rawChar {name condition : String} {opened depth : Nat} {text : List Char} {c : Char}
    (hphase : r.phase = .raw name condition opened depth text) :
    Moves r (.char c) (r.rawChar name condition opened depth text c) := by
  unfold rawChar
  split
  · exact (settles_addNode r _).moves
  all_goals
    refine .other (by simp) fun o ho => .inl ?_
    rw [braces, hphase]
    exact ho

theorem moves_readChar {c : Char} (h : r.readChar c = .ok r') : Moves r (.char c) r' := by
  obtain ⟨offset, phase, blocks, nodes⟩ := r
  cases phase with
  | idle =>
    simp only [readChar] at h
    split at h
    · obtain rfl := Except.ok.inj h
      exact .other (by simp) fun o ho => .inl ho
    next hblank =>
    split at h
    · exact (settles_close h).moves
    next hclose =>
    split at h
    · obtain rfl := Except.ok.inj h
      exact .other (by simp) fun o ho => .inl ho
    next hat =>
    -- any other character is the first one of an item, which it may also end
    rcases itemChar_cases h with hsettles | ⟨rfl, head, rfl⟩ | ⟨hdepth, rfl⟩
    · exact hsettles.moves
    · exact moves_openBlock head
    · refine .starts rfl ?_ hdepth rfl rfl
      simp only [Bool.or_eq_true, not_or, Bool.not_eq_true] at hblank hclose hat
      simp [Piece.opensItem, hblank, hclose, hat]
  | item start depth text =>
    rcases itemChar_cases h with hsettles | ⟨rfl, head, rfl⟩ | ⟨hdepth, rfl⟩
    · exact hsettles.moves
    · exact moves_openBlock head
    · exact .adds rfl hdepth rfl rfl
  | atName text =>
    simp only [readChar] at h
    split at h
    · obtain rfl := Except.ok.inj h
      exact .other (by simp) fun o ho => .inl ho
    · exact moves_preludeChar h
  | prelude name depth text => exact moves_preludeChar h
  | raw name condition opened depth text =>
    obtain rfl := Except.ok.inj h
    exact moves_rawChar rfl

/-- A piece that is no character starts an item, or adds to the text under way. -/
theorem moves_readText {p : Piece} (hchar : ∀ c, p ≠ .char c)
    (hidle : r.phase = .idle → p.opensItem = true) : Moves r p (r.readText p.source) := by
  have hdepth : ∀ depth, depthAfter isItemEnd depth [p] = some depth := by
    intro depth
    rw [depthAfter]
    · rfl
    · exact hchar
  obtain ⟨offset, phase, blocks, nodes⟩ := r
  cases phase with
  | idle => exact .starts rfl (hidle rfl) (hdepth 0) rfl rfl
  | item start depth text => exact .adds rfl (hdepth depth) rfl rfl
  | atName text => exact .other (by simp [readText]) fun o ho => .inl ho
  | prelude name depth text => exact .other (by simp [readText]) fun o ho => .inl ho
  | raw name condition opened depth text =>
    exact .other (by simp [readText]) fun o ho => .inl ho

/-- **What reading a piece does to the places that a reader keeps.** -/
theorem moves_of_readPiece {p : Piece} (h : r.readPiece p = .ok r') : Moves r p r' := by
  cases p with
  | char c => exact moves_readChar h
  | comment inside =>
    obtain rfl := Except.ok.inj h
    unfold readComment
    split
    · next hidle =>
      refine .other (by simp [phase_addComment, hidle]) fun o ho => .inl ?_
      rwa [braces, phase_addComment, opened_addComment] at ho
    · next hidle => exact moves_readText (by simp) fun h => absurd h hidle
  | openString _ _ => cases h
  | openComment _ => cases h
  | escape c =>
    obtain rfl := Except.ok.inj h
    exact moves_readText (by simp) fun _ => rfl
  | string q body =>
    obtain rfl := Except.ok.inj h
    exact moves_readText (by simp) fun _ => rfl

/-! ### Where the places point -/

/-- The item under way stands at its place: the reader was between items there, in the same blocks,
and what it has read since is the text of the item. -/
def ItemUnderWay (done : List Piece) (blocks : List Block) (start depth : Nat) (text : List Char) :
    Prop :=
  ∃ ps qs r₀, done = ps ++ qs ∧ ps.foldlM step {} = .ok r₀ ∧ r₀.phase = .idle ∧
    r₀.blocks = blocks ∧ start = byteLength (ps.flatMap Piece.source) ∧
    text.reverse = qs.flatMap Piece.source ∧ (∃ p ∈ qs.head?, p.opensItem = true) ∧
    depthAfter isItemEnd 0 qs = some depth

/-- The places that a reader keeps point at what they should in the pieces it has read. -/
structure Placed (done : List Piece) (r : Reader) : Prop where
  /-- At the places of braces, braces stand. -/
  braces : ∀ o ∈ r.braces, ∃ ps qs, done = ps ++ .char '{' :: qs ∧
    o = byteLength (ps.flatMap Piece.source)
  /-- At the place of the item under way, the item starts. -/
  item : ∀ start depth text, r.phase = .item start depth text →
    ItemUnderWay done r.blocks start depth text

/-- The places of a reader stay right when one more piece is read. -/
theorem placed_step {done : List Piece} {p : Piece} (hread : done.foldlM step {} = .ok r)
    (h : Placed done r) (hstep : r.step p = .ok r') : Placed (done ++ [p]) r' := by
  have hoffset : r.offset = byteLength (done.flatMap Piece.source) := by
    simpa using offset_of_foldlM hread
  obtain ⟨r₁, hpiece, rfl⟩ := step_eq_ok hstep
  -- what a place points at stays where it is when a piece is added behind
  have hkept : ∀ o ∈ r.braces, ∃ ps qs, done ++ [p] = ps ++ .char '{' :: qs ∧
      o = byteLength (ps.flatMap Piece.source) := by
    intro o ho
    obtain ⟨ps, qs, rfl, hbefore⟩ := h.braces o ho
    exact ⟨ps, qs ++ [p], by simp, hbefore⟩
  cases moves_of_readPiece hpiece with
  | starts hidle hopens hdepth hphase hblocks =>
    refine ⟨fun o ho => hkept o ?_, fun start depth text heq => ?_⟩
    · rw [Reader.braces, hphase, hblocks] at ho
      exact List.mem_append_right _ ho
    · obtain ⟨rfl, rfl, rfl⟩ := Phase.item.inj (hphase.symm.trans heq)
      exact ⟨done, [p], r, rfl, hread, hidle, hblocks.symm, hoffset, by simp, ⟨p, rfl, hopens⟩,
        hdepth⟩
  | adds hitem hdepth hphase hblocks =>
    refine ⟨fun o ho => hkept o ?_, fun start depth text heq => ?_⟩
    · rw [Reader.braces, hphase, hblocks] at ho
      exact List.mem_append_right _ ho
    · obtain ⟨rfl, rfl, rfl⟩ := Phase.item.inj (hphase.symm.trans heq)
      obtain ⟨ps, qs, r₀, rfl, hps, hidle, hsame, hstart, htext, ⟨q, hq, hopens⟩, hqs⟩ :=
        h.item _ _ _ hitem
      refine ⟨ps, qs ++ [p], r₀, by simp, hps, hidle, hsame.trans hblocks.symm, hstart,
        by simp [htext], ⟨q, ?_, hopens⟩, ?_⟩
      · obtain ⟨rs, rfl⟩ := List.head?_eq_some_iff.1 hq
        rfl
      · rw [depthAfter_append, hqs]
        exact hdepth
  | other hno hbraces =>
    refine ⟨fun o ho => ?_, fun start depth text heq => absurd heq (hno start depth text)⟩
    rcases hbraces o ho with ho | ⟨rfl, rfl⟩
    · exact hkept o ho
    · exact ⟨done, [], rfl, hoffset⟩

/-- The places of a reader are right behind every text. -/
theorem placed_foldlM {done : List Piece} (hread : done.foldlM step {} = .ok r) :
    Placed done r := by
  induction done using List.reverseRecOn generalizing r with
  | nil =>
    obtain rfl := Except.ok.inj hread
    exact ⟨by simp [braces, Phase.brace?], by simp⟩
  | append_singleton done p ih =>
    rw [List.foldlM_append] at hread
    obtain ⟨r₁, hdone, hlast⟩ := bind_eq_ok.1 hread
    rw [List.foldlM_cons] at hlast
    obtain ⟨r₂, hstep, hlast⟩ := bind_eq_ok.1 hlast
    obtain rfl := Except.ok.inj hlast
    exact placed_step hdone (ih hdone) hstep

/-! ### What a reader reports -/

theorem endItem_eq_error {start : Nat} {text : List Char} {e : CssError}
    (h : r.endItem start text = .error e) :
    r.blocks = [] ∧ e = .fault .missingBlock start ∨
      r.blocks ≠ [] ∧ declaration? text.reverse = none ∧ e = .fault .missingColon start := by
  obtain ⟨offset, phase, blocks, nodes⟩ := r
  cases blocks with
  | nil => exact .inl ⟨rfl, (Except.error.inj h).symm⟩
  | cons b bs =>
    simp only [endItem] at h
    split at h
    · next hnone => exact .inr ⟨by simp, hnone, (Except.error.inj h).symm⟩
    · cases h

theorem close_eq_error {e : CssError} (h : r.close = .error e) :
    r.blocks = [] ∧ e = .fault .unexpectedClose r.offset := by
  obtain ⟨offset, phase, blocks, nodes⟩ := r
  cases blocks with
  | nil => exact ⟨rfl, (Except.error.inj h).symm⟩
  | cons b bs => cases h

/-- Behind a declaration a block is open, which can be closed. -/
theorem close_of_endItem {start : Nat} {text : List Char} (h : r.endItem start text = .ok r') :
    ∃ r'', r'.close = .ok r'' := by
  obtain ⟨offset, phase, blocks, nodes⟩ := r
  cases blocks with
  | nil => cases h
  | cons b bs =>
    simp only [endItem] at h
    split at h
    · cases h
    · obtain rfl := Except.ok.inj h
      exact ⟨_, rfl⟩

/-- The characters that end an item without a block. -/
def endsBare (c : Char) : Prop := c = ';' ∨ c = '}'

theorem itemChar_eq_error {start depth : Nat} {text : List Char} {c : Char} {e : CssError}
    (h : r.itemChar start depth text c = .error e) :
    depth = 0 ∧ endsBare c ∧ r.endItem start text = .error e := by
  unfold itemChar at h
  split at h
  · cases h
  · exact ⟨rfl, .inl rfl, h⟩
  · cases hend : r.endItem start text with
    | error e' =>
      rw [hend] at h
      exact ⟨rfl, .inr rfl, h⟩
    | ok r' =>
      obtain ⟨r'', hclose⟩ := close_of_endItem hend
      rw [hend] at h
      cases hclose.symm.trans h
  · cases h

theorem preludeChar_eq_error {name : String} {depth : Nat} {text : List Char} {c : Char}
    {e : CssError} (h : r.preludeChar name depth text c = .error e) :
    c = '}' ∧ r.blocks = [] ∧ e = .fault .unexpectedClose r.offset := by
  unfold preludeChar at h
  split at h
  · simp only at h
    split at h <;> cases h
  · cases h
  · obtain ⟨hblocks, rfl⟩ := close_eq_error h
    obtain ⟨offset, phase, blocks, nodes⟩ := r
    cases blocks with
    | nil => exact ⟨rfl, rfl, rfl⟩
    | cons b bs => cases hblocks
  · cases h

/-- What a reader reports when it meets a piece. -/
theorem readPiece_eq_error {p : Piece} {e : CssError} (h : r.readPiece p = .error e) :
    (∃ q inside, p = .openString q inside ∧ e = .fault .unterminatedString r.offset) ∨
    (∃ inside, p = .openComment inside ∧ e = .fault .unterminatedComment r.offset) ∨
    (p = .char '}' ∧ r.blocks = [] ∧ (r.phase = .idle ∨ r.phase.inAtRule = true) ∧
      e = .fault .unexpectedClose r.offset) ∨
    ∃ start text c, p = .char c ∧ endsBare c ∧ r.phase = .item start 0 text ∧
      r.endItem start text = .error e := by
  cases p with
  | openString q inside => exact .inl ⟨q, inside, rfl, (Except.error.inj h).symm⟩
  | openComment inside => exact .inr (.inl ⟨inside, rfl, (Except.error.inj h).symm⟩)
  | char c =>
    refine .inr (.inr ?_)
    obtain ⟨offset, phase, blocks, nodes⟩ := r
    cases phase with
    | idle =>
      simp only [readPiece, readChar] at h
      split at h
      · cases h
      next hblank =>
      split at h
      · next hc =>
        obtain ⟨hblocks, rfl⟩ := close_eq_error h
        exact .inl ⟨by rw [eq_of_beq hc], hblocks, .inl rfl, rfl⟩
      next hclose =>
      split at h
      · cases h
      · -- an item cannot be at fault with its first character: neither mark that ends one starts it
        obtain ⟨-, rfl | rfl, -⟩ := itemChar_eq_error h
        · simp at hblank
        · simp at hclose
    | item start depth text =>
      obtain ⟨rfl, hc, hend⟩ := itemChar_eq_error h
      exact .inr ⟨start, text, c, rfl, hc, rfl, hend⟩
    | atName text =>
      simp only [readPiece, readChar] at h
      split at h
      · cases h
      · obtain ⟨rfl, hblocks, rfl⟩ := preludeChar_eq_error h
        exact .inl ⟨rfl, hblocks, .inr rfl, rfl⟩
    | prelude name depth text =>
      obtain ⟨rfl, hblocks, rfl⟩ := preludeChar_eq_error h
      exact .inl ⟨rfl, hblocks, .inr rfl, rfl⟩
    | raw name condition opened depth text => cases h
  | _ => cases h

theorem settle_eq_error {e : CssError} (h : r.settle = .error e) :
    ∃ o ∈ r.blocks.map Block.opened, e = .fault .unclosedBlock o := by
  obtain ⟨offset, phase, blocks, nodes⟩ := r
  cases blocks with
  | nil => cases h
  | cons b bs => exact ⟨b.opened, List.mem_cons_self, (Except.error.inj h).symm⟩

/-- What a reader reports at the end of a text. -/
theorem finish_eq_error {e : CssError} (h : r.finish = .error e) :
    (∃ o ∈ r.braces, e = .fault .unclosedBlock o) ∨
      ∃ start depth text, r.phase = .item start depth text ∧ r.endItem start text = .error e := by
  have hsettles : ∀ {r'}, Settles r r' → r'.settle = .error e →
      ∃ o ∈ r.braces, e = .fault .unclosedBlock o := by
    intro r' hr' hsettle
    obtain ⟨o, ho, rfl⟩ := settle_eq_error hsettle
    exact ⟨o, List.mem_append_right _ (hr'.blocks ho), rfl⟩
  obtain ⟨offset, phase, blocks, nodes⟩ := r
  cases phase with
  | idle => exact .inl (hsettles ⟨rfl, List.Subset.refl _⟩ h)
  | item start depth text =>
    have hitem : (endItem ⟨offset, .item start depth text, blocks, nodes⟩ start text).bind settle
        = .error e := h
    cases hend : endItem ⟨offset, .item start depth text, blocks, nodes⟩ start text with
    | error e' =>
      rw [hend] at hitem
      obtain rfl := Except.error.inj hitem
      exact .inr ⟨start, depth, text, rfl, hend⟩
    | ok r' =>
      rw [hend] at hitem
      exact .inl (hsettles (settles_endItem hend) hitem)
  | atName text => exact .inl (hsettles (settles_addNode _ _) h)
  | prelude name depth text => exact .inl (hsettles (settles_addNode _ _) h)
  | raw name condition opened depth text =>
    exact .inl ⟨opened, List.mem_cons_self, (Except.error.inj h).symm⟩

/-- Between items and in a rule with an at-sign, the text may end outside every block. -/
theorem finish_of_outside (hblocks : r.blocks = [])
    (hphase : r.phase = .idle ∨ r.phase.inAtRule = true) : ∃ s, r.finish = .ok s := by
  obtain ⟨offset, phase, blocks, nodes⟩ := r
  obtain rfl : blocks = [] := hblocks
  cases phase with
  | idle => exact ⟨_, rfl⟩
  | atName text => exact ⟨_, rfl⟩
  | prelude name depth text => exact ⟨_, rfl⟩
  | _ => simp [Phase.inAtRule] at hphase

theorem foldlM_eq_error {ps : List Piece} {e : CssError} (h : ps.foldlM step r = .error e) :
    ∃ done p todo r', ps = done ++ p :: todo ∧ done.foldlM step r = .ok r' ∧
      r'.readPiece p = .error e := by
  induction ps generalizing r with
  | nil => cases h
  | cons p ps ih =>
    cases hstep : r.step p with
    | error e' =>
      rw [List.foldlM_cons, hstep] at h
      obtain rfl := Except.error.inj h
      refine ⟨[], p, ps, r, rfl, rfl, ?_⟩
      cases hread : r.readPiece p with
      | error e'' =>
        rw [step, hread] at hstep
        exact hstep
      | ok r' =>
        rw [step_of_ok hread] at hstep
        cases hstep
    | ok r₁ =>
      rw [List.foldlM_cons, hstep] at h
      obtain ⟨done, q, todo, r', rfl, hdone, hread⟩ := ih h
      refine ⟨p :: done, q, todo, r', rfl, ?_, hread⟩
      rw [List.foldlM_cons, hstep]
      exact hdone

end Reader

/-! ### Every fault has its cause -/

section Causes

variable {css : String} {done todo : List Piece} {r : Reader}

/-- What was read so far is read so when it stands alone. -/
theorem read_done (hall : pieces css.toList = done ++ todo)
    (hread : done.foldlM Reader.step {} = .ok r) :
    Reader.read {} (done.flatMap Piece.source) = .ok r := by
  have hwithin : done <:+: pieces css.toList := ⟨[], todo, by rw [hall]; rfl⟩
  rw [Reader.read, pieces_of_within hwithin (isOpen_of_foldlM hread), hread]

theorem toList_eq_append (hall : pieces css.toList = done ++ todo) :
    css.toList = done.flatMap Piece.source ++ todo.flatMap Piece.source := by
  rw [← List.flatMap_append, ← hall, source_pieces]

theorem not_mem_of_declaration? {cs : List Char} (h : declaration? cs = none) :
    ':' ∉ stripComments cs := by
  intro hmem
  simp only [declaration?] at h
  split at h
  · next hdrop =>
    -- nothing stands behind the longest front without a colon
    have hfront := List.takeWhile_prefix (fun c => c != ':') (l := stripComments cs)
    have hall := hfront.eq_of_length_le (List.drop_eq_nil_iff.1 hdrop)
    rw [← hall] at hmem
    simpa using List.all_eq_true.1 List.all_takeWhile ':' hmem
  · cases h

/-- An item that lacks something does so where it starts. -/
theorem cause_of_endItem {e : CssError} {start depth : Nat} {text : List Char}
    (hall : pieces css.toList = done ++ todo) (hread : done.foldlM Reader.step {} = .ok r)
    (hphase : r.phase = .item start depth text) (hend : r.endItem start text = .error e)
    (hrest : todo = [] ∨ depth = 0 ∧ ∃ c, todo.head? = some (.char c) ∧ Reader.endsBare c) :
    ∃ f before after, e = .fault f (byteLength before) ∧ css.toList = before ++ after ∧
      Cause before after f := by
  obtain ⟨ps, qs, r₀, rfl, hps, hidle, hblocks, rfl, htext, ⟨p, hp, hopens⟩, hdepth⟩ :=
    (Reader.placed_foldlM hread).item _ _ _ hphase
  have hopen := isOpen_of_foldlM hread
  -- the item is cut into the same pieces when it stands by itself
  have hwithin : qs <:+: pieces css.toList := ⟨ps, todo, hall.symm⟩
  have hpieces := pieces_of_within hwithin fun p hp => hopen p (List.mem_append_right _ hp)
  have hbefore : openBlocks? (ps.flatMap Piece.source) = some r.blocks.length := by
    rw [List.append_assoc] at hall
    rw [openBlocks?, read_done hall hps]
    obtain ⟨offset, phase, blocks, nodes⟩ := r₀
    obtain rfl : phase = .idle := hidle
    rw [← hblocks]
  have hitem : BareItem (qs.flatMap Piece.source) (todo.flatMap Piece.source) := by
    refine ⟨⟨p, by rw [hpieces]; exact hp, hopens⟩, by rw [hpieces, hdepth]; simp, ?_⟩
    rcases hrest with rfl | ⟨rfl, c, hc, hends⟩
    · exact .inl rfl
    · obtain ⟨rs, rfl⟩ := List.head?_eq_some_iff.1 hc
      refine .inr ⟨by rw [hpieces, hdepth], ?_⟩
      rcases hends with rfl | rfl
      · exact .inl rfl
      · exact .inr rfl
  have hcss : css.toList = ps.flatMap Piece.source ++
      (qs.flatMap Piece.source ++ todo.flatMap Piece.source) := by
    rw [toList_eq_append hall, List.flatMap_append, List.append_assoc]
  rcases Reader.endItem_eq_error hend with ⟨hnil, rfl⟩ | ⟨hne, hnone, rfl⟩
  · rw [hnil] at hbefore
    exact ⟨.missingBlock, _, _, rfl, hcss, hbefore, _, _, rfl, hitem⟩
  · obtain ⟨b, bs, hbs⟩ := List.exists_cons_of_ne_nil hne
    rw [hbs] at hbefore
    rw [htext] at hnone
    exact ⟨.missingColon, _, _, rfl, hcss, ⟨bs.length, hbefore⟩, _, _, rfl, hitem,
      not_mem_of_declaration? hnone⟩

/-- A piece that cannot be read is at fault where it stands. -/
theorem cause_of_readPiece {e : CssError} {p : Piece}
    (hall : pieces css.toList = done ++ p :: todo) (hread : done.foldlM Reader.step {} = .ok r)
    (herror : r.readPiece p = .error e) :
    ∃ f before after, e = .fault f (byteLength before) ∧ css.toList = before ++ after ∧
      Cause before after f := by
  have hoffset : r.offset = byteLength (done.flatMap Piece.source) := by
    simpa using Reader.offset_of_foldlM hread
  have hcss := toList_eq_append hall
  have hclosed : p.NeverClosed :=
    neverClosed_piecesFrom .outside css.toList trivial p (by rw [← pieces, hall]; simp)
  rcases Reader.readPiece_eq_error herror with ⟨q, inside, rfl, rfl⟩ | ⟨inside, rfl, rfl⟩ |
    ⟨rfl, hblocks, hphase, rfl⟩ | ⟨start, text, c, rfl, hc, hphase, hend⟩
  · obtain rfl := eq_nil_of_isWhole .outside css.toList hall rfl
    refine ⟨.unterminatedString, _, _, by rw [hoffset], hcss, q, inside, ?_, hclosed⟩
    simp [Piece.source]
  · obtain rfl := eq_nil_of_isWhole .outside css.toList hall rfl
    refine ⟨.unterminatedComment, _, _, by rw [hoffset], hcss, inside, ?_, hclosed⟩
    simp [Piece.source]
  · obtain ⟨s, hs⟩ := Reader.finish_of_outside hblocks hphase
    refine ⟨.unexpectedClose, _, _, by rw [hoffset], hcss, rfl, s, ?_⟩
    rw [Reader.parse_eq_read, String.toList_ofList, read_done hall hread]
    exact hs
  · exact cause_of_endItem hall hread hphase hend (.inr ⟨rfl, c, rfl, hc⟩)

/-- **Every fault has its cause where it is reported.** -/
theorem cause_of_parse {e : CssError} (h : parse css = .error e) :
    ∃ f before after, e = .fault f (byteLength before) ∧ css.toList = before ++ after ∧
      Cause before after f := by
  rw [Reader.parse_eq_read] at h
  cases hread : Reader.read {} css.toList with
  | error e' =>
    rw [hread] at h
    obtain rfl := Except.error.inj h
    obtain ⟨done, p, todo, r, hall, hdone, herror⟩ := Reader.foldlM_eq_error hread
    exact cause_of_readPiece hall hdone herror
  | ok r =>
    rw [hread] at h
    have hall : pieces css.toList = pieces css.toList ++ [] := (List.append_nil _).symm
    rcases Reader.finish_eq_error h with ⟨o, ho, rfl⟩ | ⟨start, depth, text, hphase, hend⟩
    · obtain ⟨ps, qs, hbrace, rfl⟩ := (Reader.placed_foldlM hread).braces o ho
      exact ⟨.unclosedBlock, _, _, rfl, toList_eq_append hbrace, rfl⟩
    · exact cause_of_endItem hall hread hphase hend (.inl rfl)

end Causes

end ComponentCompiler.Style
