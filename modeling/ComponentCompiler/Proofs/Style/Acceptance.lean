import ComponentCompiler.Proofs.Style.Spelling

/-!
# Accepted texts

The grammar of stylesheets is exact: a text that spells out items is accepted, unless a string or a
comment in it is left open, and it is read as the items that it spells out.  So a text spells out
one stylesheet at most.

An item without a block is ended by what follows it, a semicolon, the brace that closes its block or
the end of the text.  Until then the reader has not received it, but from there on it does what a
reader does that has (`Reader.Passes`).

## Main definitions

* `Reader.Accepts` — what a reader between items makes of the items up to the end of its block.

## Main results

* `accepts_of_spells` — a reader accepts the items that are spelled out.
* `parse_eq_ok_iff` — **a text is accepted exactly if it spells out a stylesheet**.
* `spells_unique` — a text spells out one stylesheet at most.
-/

namespace ComponentCompiler.Style

open Text (trim byteLength)

namespace Reader

variable {r r' : Reader} {qs ps : List Piece} {i : Item} {is : List Item}

/-- A reader between items reads items to the end: outside every block to the end of the text, and
in a block to the brace that closes it. -/
inductive Accepts (r : Reader) (ps : List Piece) (is : List Item) : Prop
  /-- Outside every block. -/
  | sheet {s : Stylesheet} (blocks : r.blocks = [])
      (read : (ps.foldlM step r).bind finish = .ok s)
      (rules : s.rules.map Node.toItem = r.nodes.reverse.map Node.toItem ++ is)
  /-- In a block. -/
  | block {b : Block} {bs : List Block} {o : Nat} (blocks : r.blocks = b :: bs)
      (read : (ps ++ [Piece.char '}']).foldlM step r
        = .ok { r.closeWith b bs is with offset := o })

/-- Behind the pieces `qs`, one reader goes on with `ps` as another one does that stands between
items. -/
structure Passes (r : Reader) (qs ps : List Piece) (r' : Reader) : Prop where
  /-- To the brace that closes the block. -/
  closed : r.blocks ≠ [] →
    ((qs ++ ps) ++ [Piece.char '}']).foldlM step r = (ps ++ [Piece.char '}']).foldlM step r'
  /-- To the end of the text. -/
  ended : r.blocks = [] →
    ((qs ++ ps).foldlM step r).bind finish = (ps.foldlM step r').bind finish

theorem passes_of_read (h : qs.foldlM step r = .ok r') (ps : List Piece) : r.Passes qs ps r' where
  closed _ := by
    rw [List.append_assoc, List.foldlM_append, h]
    rfl
  ended _ := by
    rw [List.foldlM_append, h]
    rfl

/-- An item that is not ended yet is ended by what follows it. -/
theorem passes_of_endsAs {r₁ : Reader} (hread : qs.foldlM step r = .ok r₁) (hends : EndsItem ps)
    (h : EndsAs 0 r₁ r') : r.Passes qs ps r' := by
  have hread₁ := passes_of_read hread ps
  constructor
  · intro hblocks
    rw [hread₁.closed hblocks]
    cases ps with
    | nil => exact congrArg (Except.bind · pure) (h.step rfl _ (.inr rfl))
    | cons p ps =>
      obtain rfl := hends p rfl
      rw [List.cons_append, List.foldlM_cons, List.foldlM_cons, h.step rfl _ (.inl rfl)]
  · intro hblocks
    rw [hread₁.ended hblocks]
    cases ps with
    | nil => exact h.finish
    | cons p ps =>
      obtain rfl := hends p rfl
      rw [List.foldlM_cons, List.foldlM_cons, h.step rfl _ (.inl rfl)]

theorem passes_of_finish {r₁ : Reader} (hread : qs.foldlM step r = .ok r₁)
    (h : r₁.finish = r'.finish) (hplace : r.place = .sheet) : r.Passes qs [] r' where
  closed hne := by
    cases hblocks : r.blocks with
    | nil => exact absurd hblocks hne
    | cons b bs =>
      rw [place, hblocks] at hplace
      cases hplace
  ended hblocks := ((passes_of_read hread []).ended hblocks).trans h

/-- An item is read, and then the ones behind it. -/
theorem accepts_of_receives (hpasses : r.Passes qs ps r') (hr : r.Receives i r')
    (hidle : r.phase = .idle)
    (hrest : ∀ r' : Reader, r'.phase = .idle → r'.place = r.place → r'.Accepts ps is) :
    r.Accepts (qs ++ ps) (i :: is) := by
  have h := hrest r' hr.idle hr.place_eq
  cases hr with
  | sheet hblocks =>
    cases h with
    | sheet _ hread hrules =>
      exact .sheet hblocks ((hpasses.ended hblocks).trans hread) (by simpa using hrules)
    | block hne => cases hne
  | block hblocks =>
    cases h with
    | sheet hnil => cases hnil
    | @block b bs o hb hread =>
      obtain ⟨rfl, rfl⟩ := List.cons.inj hb
      refine .block (o := o) hblocks ((hpasses.closed (by simp [hblocks])).trans (hread.trans ?_))
      rw [closeWith_items]
      exact congrArg Except.ok (closeWith_congr hidle.symm rfl)

/-- What is passed over leaves the reader between the same items. -/
theorem Accepts.skip {o : Nat} (h : { r with offset := o }.Accepts ps is)
    (hread : qs.foldlM step r = .ok { r with offset := o }) : r.Accepts (qs ++ ps) is := by
  have hpasses := passes_of_read hread ps
  cases h with
  | sheet hblocks hread hrules => exact .sheet hblocks ((hpasses.ended hblocks).trans hread) hrules
  | @block b bs o' hblocks hread =>
    have hne : r.blocks ≠ [] := fun hnil => List.cons_ne_nil b bs (hblocks.symm.trans hnil)
    exact .block hblocks ((hpasses.closed hne).trans (hread.trans
      (congrArg Except.ok (closeWith_congr rfl rfl))))

/-- The text may end outside every block, and a block where it is closed. -/
theorem accepts_nil (hidle : r.phase = .idle) : r.Accepts [] [] := by
  obtain ⟨offset, phase, blocks, nodes⟩ := r
  obtain rfl : phase = .idle := hidle
  cases blocks with
  | nil => exact .sheet (s := ⟨nodes.reverse⟩) rfl rfl (List.append_nil _).symm
  | cons b bs =>
    refine .block (o := offset + byteLength ['}']) rfl ?_
    rw [closeWith, List.append_nil]
    rfl

/-- A declaration is ended by what follows it. -/
theorem endsAs_item {b : Block} {bs : List Block} (hblocks : r.blocks = b :: bs) (start : Nat)
    {text : List Char} {property value : String}
    (hd : declaration? text.reverse = some (.declaration property value)) :
    EndsAs 0 { r with phase := .item start 0 text }
      ⟨r.offset, .idle, { b with items := .declaration property value :: b.items } :: bs,
        r.nodes⟩ := by
  obtain ⟨offset, phase, blocks, nodes⟩ := r
  obtain rfl : blocks = b :: bs := hblocks
  have hend : endItem ⟨offset, .item start 0 text, b :: bs, nodes⟩ start text
      = .ok ⟨offset, .idle, { b with items := .declaration property value :: b.items } :: bs,
        nodes⟩ := by
    simp only [endItem, hd]
  constructor
  · exact congrArg (Except.bind · settle) hend
  · rintro - c (rfl | rfl)
    · exact congrArg (Except.bind · fun r' =>
        .ok { r' with offset := offset + byteLength [';'] }) hend
    · exact congrArg (fun x => Except.bind (Except.bind x close) fun r' =>
        .ok { r' with offset := offset + byteLength ['}'] }) hend

/-- A block is read to its end, and then the items behind it. -/
theorem accepts_of_openBlock {head : Head} {o opened : Nat} {inner : List Piece} {body : List Item}
    (hopen : qs.foldlM step r = .ok ⟨o, .idle, ⟨head, opened, []⟩ :: r.blocks, r.nodes⟩)
    (hbody : Accepts ⟨o, .idle, ⟨head, opened, []⟩ :: r.blocks, r.nodes⟩ inner body)
    (hidle : r.phase = .idle)
    (hrest : ∀ r' : Reader, r'.phase = .idle → r'.place = r.place → r'.Accepts ps is) :
    r.Accepts (qs ++ (inner ++ .char '}' :: ps)) (.nested (head.toNode body) :: is) := by
  cases hbody with
  | sheet hnil => cases hnil
  | @block b bs o' hblocks hread =>
    obtain ⟨rfl, rfl⟩ := List.cons.inj hblocks
    have haccepts := accepts_of_receives (passes_of_read (read_behind hopen hread) ps)
      (receives_closeWith r head opened o o' body) hidle hrest
    simpa using haccepts

theorem step_item_brace (r : Reader) (start : Nat) (text : List Char) :
    { r with phase := .item start 0 text.reverse }.step (.char '{')
      = .ok ⟨r.offset + byteLength ['{'], .idle, ⟨.rule (splitSelectors text), r.offset, []⟩ ::
          r.blocks, r.nodes⟩ := by
  have hread : { r with phase := .item start 0 text.reverse }.readPiece (.char '{')
      = .ok ({ r with phase := .item start 0 text.reverse }.openBlock
          (.rule (splitSelectors text.reverse.reverse))) := rfl
  rw [List.reverse_reverse] at hread
  exact step_of_ok hread

theorem step_prelude_brace (r : Reader) (name : String) (text : List Char) :
    { r with phase := .prelude name 0 text.reverse }.step (.char '{')
      = .ok (if isGroupName name = true then
          ⟨r.offset + byteLength ['{'], .idle,
            ⟨.group name (String.ofList (trim text)), r.offset, []⟩ :: r.blocks, r.nodes⟩
        else { r with
          offset := r.offset + byteLength ['{']
          phase := .raw name (String.ofList (trim text)) r.offset 0 [] }) := by
  have hread : { r with phase := .prelude name 0 text.reverse }.readPiece (.char '{')
      = if isGroupName name = true then
          .ok ({ r with phase := .prelude name 0 text.reverse }.openBlock
            (.group name (String.ofList (trim text.reverse.reverse))))
        else .ok { r with
          phase := .raw name (String.ofList (trim text.reverse.reverse)) r.offset 0 [] } := rfl
  rw [List.reverse_reverse] at hread
  split
  · next hgroup => exact step_of_ok (hread.trans (if_pos hgroup))
  · next hgroup => exact step_of_ok (hread.trans (if_neg hgroup))

end Reader

/-! ### What is spelled out is accepted -/

section Accepts

variable {selects : List Piece → List String → Prop}
  {declares : List Piece → String → String → Prop} {place : Place} {ps : List Piece}
  {is : List Item}

/-- A reader accepts the items that are spelled out. -/
theorem accepts_of_spells (h : Spells selects declares place ps is)
    (hselects : ∀ qs ss, selects qs ss → splitSelectors (qs.flatMap Piece.source) = ss)
    (hdeclares : ∀ qs property value, declares qs property value →
      declaration? (qs.flatMap Piece.source) = some (.declaration property value))
    (hopen : ∀ p ∈ ps, p.isOpen = false) {r : Reader} (hidle : r.phase = .idle)
    (hplace : r.place = place) : r.Accepts ps is := by
  induction h generalizing r with
  | nil => exact Reader.accepts_nil hidle
  | @skip place c ps is hc h ih =>
    have hread : r.readPiece (.char c) = .ok r := by
      simp only [Reader.readPiece, Reader.readChar, hidle, hc, if_true]
    exact (ih (r := { r with offset := r.offset + byteLength (Piece.char c).source })
      (List.forall_mem_cons.1 hopen).2 hidle hplace).skip
        (Reader.foldlM_cons_of_ok (.char c) hread [])
  | @comment place inside ps is h ih =>
    have hread : r.readPiece (.comment inside) = .ok (r.addComment inside) := by
      simp only [Reader.readPiece, Reader.readComment, hidle]
    have hreceives := Reader.receives_addComment hidle inside
      (r.offset + byteLength (Piece.comment inside).source)
    have hpasses := Reader.passes_of_read (Reader.foldlM_cons_of_ok (.comment inside) hread []) ps
    exact Reader.accepts_of_receives hpasses hreceives hidle fun r' hr' hp =>
      ih (List.forall_mem_cons.1 hopen).2 hr' (hp.trans hplace)
  | @rule place head inner ps ss body is hhead hss hbody h ihbody ih =>
    simp only [List.forall_mem_append, List.forall_mem_cons] at hopen
    obtain ⟨hopen, -, hinner, -, hps⟩ := hopen
    obtain ⟨o, ho⟩ := Reader.foldlM_head hidle hhead (c := '{') hopen fun _ => rfl
    obtain rfl := hselects head ss hss
    rw [List.append_cons]
    exact Reader.accepts_of_openBlock
      (ho.trans (Reader.step_item_brace { r with offset := o } _ _)) (ihbody hinner rfl rfl) hidle
      fun r' hr' hp => ih hps hr' (hp.trans hplace)
  | @declaration head ps property value is hhead hne hd hend h ih =>
    obtain ⟨hopen, hps⟩ := List.forall_mem_append.1 hopen
    obtain ⟨p, qs, rfl⟩ := List.exists_cons_of_ne_nil hne
    obtain ⟨o, ho⟩ := Reader.foldlM_item hidle (hhead.opens p rfl) hhead.balanced hopen
    cases hblocks : r.blocks with
    | nil =>
      rw [Reader.place, hblocks] at hplace
      cases hplace
    | cons b bs =>
      have hends := Reader.endsAs_item (r := { r with offset := o }) hblocks r.offset
        (by rw [List.reverse_reverse]; exact hdeclares _ _ _ hd)
      exact Reader.accepts_of_receives (Reader.passes_of_endsAs ho hend hends)
        (.block (o := o) hblocks) hidle fun r' hr' hp => ih hps hr' (hp.trans hplace)
  | @group place name condition qs inner ps body is hname hgroup hqs hcondition hbody h ihbody ih =>
    simp only [List.forall_mem_append, List.forall_mem_cons] at hopen
    obtain ⟨-, hopen, -, hinner, -, hps⟩ := hopen
    obtain ⟨o, ho⟩ := Reader.foldlM_prelude hidle hname hqs hopen (c := '{') rfl
    rw [Reader.step_prelude_brace { r with offset := o }, if_pos hgroup, hcondition,
      String.ofList_toList] at ho
    rw [← List.append_assoc, List.append_cons]
    exact Reader.accepts_of_openBlock ho (ihbody hinner rfl rfl) hidle
      fun r' hr' hp => ih hps hr' (hp.trans hplace)
  | @raw place name condition block qs rs ps is hname hgroup hqs hcondition hrs hblock h ih =>
    simp only [List.forall_mem_append, List.forall_mem_cons] at hopen
    obtain ⟨-, hopen, -, -, -, hps⟩ := hopen
    obtain ⟨o, ho⟩ := Reader.foldlM_prelude hidle hname hqs hopen (c := '{') rfl
    rw [Reader.step_prelude_brace { r with offset := o }, if_neg (by simp [hgroup]), hcondition,
      String.ofList_toList] at ho
    obtain ⟨o', ho'⟩ := Reader.foldlM_raw { r with offset := o + byteLength ['{'] } hrs name
      condition o
    rw [hblock, String.ofList_toList] at ho'
    have hreceives := (Reader.receives_addNode (r := r)
      { r with offset := o + byteLength ['{'], phase := .idle }
      (.atRule name condition (some block)) rfl rfl rfl rfl).offset o'
    have haccepts := Reader.accepts_of_receives
      (Reader.passes_of_read (read_behind ho ho') ps) hreceives hidle
      fun r' hr' hp => ih hps hr' (hp.trans hplace)
    simpa using haccepts
  | @statement place name condition depth qs ps is hname hqs hcondition hend h ih =>
    simp only [List.forall_mem_append] at hopen
    obtain ⟨-, hopen, hps⟩ := hopen
    obtain ⟨r₁, o, hread, hends⟩ := Reader.foldlM_atRule hidle hname hqs hopen
    have hrule : condition = String.ofList (trim (qs.flatMap Piece.source)) := by
      rw [hcondition, String.ofList_toList]
    have hreceives : r.Receives (.nested (.atRule name condition none))
        ({ r with offset := o }.endAtRule name (qs.flatMap Piece.source).reverse) := by
      rw [hrule, Reader.endAtRule, List.reverse_reverse]
      exact Reader.receives_addNode _ _ rfl rfl rfl rfl
    rw [← List.append_assoc]
    refine Reader.accepts_of_receives ?_ hreceives hidle
      fun r' hr' hp => ih hps hr' (hp.trans hplace)
    rcases hend with ⟨rfl, hend⟩ | ⟨rfl, rfl⟩
    · exact Reader.passes_of_endsAs hread hend hends
    · -- only the end of the text may follow, also where a bracket is open
      exact Reader.passes_of_finish hread hends.finish hplace

/-- A text that spells out items is accepted and read as these items. -/
theorem exists_parse_of_spells {css : String}
    (h : Spells selects declares .sheet (pieces css.toList) is)
    (hselects : ∀ qs ss, selects qs ss → splitSelectors (qs.flatMap Piece.source) = ss)
    (hdeclares : ∀ qs property value, declares qs property value →
      declaration? (qs.flatMap Piece.source) = some (.declaration property value))
    (hopen : ∀ p ∈ pieces css.toList, p.isOpen = false) :
    ∃ s, parse css = .ok s ∧ s.rules.map Node.toItem = is := by
  cases accepts_of_spells h hselects hdeclares hopen (r := {}) rfl rfl with
  | @sheet s _ hread hrules => exact ⟨s, hread, hrules⟩
  | block hne => cases hne

/-- A text spells out one stylesheet at most. -/
theorem spells_unique {css : String} {s : Stylesheet} (h : parse css = .ok s)
    (hselects : ∀ qs ss, selects qs ss → splitSelectors (qs.flatMap Piece.source) = ss)
    (hdeclares : ∀ qs property value, declares qs property value →
      declaration? (qs.flatMap Piece.source) = some (.declaration property value))
    (hspells : Spells selects declares .sheet (pieces css.toList) is) :
    is = s.rules.map Node.toItem := by
  obtain ⟨r, hread, -⟩ := Reader.bind_eq_ok.1 h
  obtain ⟨t, hparse, hrules⟩ :=
    exists_parse_of_spells hspells hselects hdeclares (isOpen_of_foldlM hread)
  obtain rfl := Except.ok.inj (h.symm.trans hparse)
  exact hrules.symm

end Accepts

theorem Node.toItem_injective : Function.Injective Node.toItem := by
  intro n m h
  cases n <;> cases m <;> simp_all [Node.toItem]

/-- **A text is accepted exactly if it spells out a stylesheet**, and nothing in it is left open. -/
theorem parse_eq_ok_iff {css : String} {s : Stylesheet} :
    parse css = .ok s ↔ (∀ p ∈ pieces css.toList, p.isOpen = false) ∧
      Spells (SelectsIn (pieces css.toList)) (DeclaresIn (pieces css.toList)) .sheet
        (pieces css.toList) (s.rules.map Node.toItem) := by
  constructor
  · intro h
    obtain ⟨r, hread, -⟩ := Reader.bind_eq_ok.1 h
    exact ⟨isOpen_of_foldlM hread, spells_of_parse h⟩
  · rintro ⟨hopen, h⟩
    obtain ⟨t, hparse, hrules⟩ :=
      exists_parse_of_spells h (fun _ _ => And.right) (fun _ _ _ => And.right) hopen
    have hrules' : t.rules = s.rules := Node.toItem_injective.list_map hrules
    rw [hparse, show t = s from congrArg Stylesheet.mk hrules']

end ComponentCompiler.Style
