import ComponentCompiler.Proofs.Style.Reading

/-!
# How stylesheets are spelled

A grammar of stylesheets over the pieces of a text.  It accounts for every piece: what is passed
over between items, the heads of rules and declarations up to the character that ends them, blocks
between their braces, and what stands behind a name with an at-sign.  What the heads are read as is
left open, so that the grammar can be told apart from the reading of selectors and declarations.

The reader keeps open blocks on a stack.  `Completes` says what the rest of an accepted text must be
for a reader that stands between items: it spells out items up to the end, or up to the brace that
closes the innermost block.

## Main definitions

* `ItemHead`, `Prelude` — the pieces of the head of an item, and those behind a name with an
  at-sign.
* `Spells` — pieces that spell out items.
* `IsHead` — pieces of a text that are the head of a rule or a declaration in it.

## Main results

* `completes` — what stands behind a reader between items.
* `spells_of_parse` — **every accepted text spells out its stylesheet**.
-/

namespace ComponentCompiler.Style

open Text (trim isPlainBlank byteLength)

/-! ### The grammar -/

/-- A node outside every block as an item. -/
def Node.toItem : Node → Item
  | .comment text => .comment text
  | n => .nested n

/-- The pieces of one head: the first starts an item, none ends one, and no bracket is left open. -/
structure ItemHead (qs : List Piece) : Prop where
  /-- The first piece starts an item. -/
  opens : ∀ p ∈ qs.head?, p.opensItem = true
  /-- No item ends among them, and no bracket is open behind them. -/
  balanced : depthAfter isItemEnd 0 qs = some 0

instance (qs : List Piece) : Decidable (ItemHead qs) :=
  decidable_of_iff
    ((∀ p ∈ qs.head?, p.opensItem = true) ∧ depthAfter isItemEnd 0 qs = some 0)
    ⟨fun h => ⟨h.1, h.2⟩, fun h => ⟨h.1, h.2⟩⟩

/-- The pieces between a name with an at-sign and what ends its rule or opens its block, with
`depth` brackets open behind them. -/
structure Prelude (depth : Nat) (qs : List Piece) : Prop where
  /-- The name ends in front of them. -/
  separate : ∀ c, qs.head? = some (.char c) → isNameChar c = false
  /-- No item ends among them. -/
  balanced : depthAfter isItemEnd 0 qs = some depth

/-- A text that is what pieces stand for, without the blanks around it. -/
def TrimmedFrom (qs : List Piece) (text : String) : Prop :=
  trim (qs.flatMap Piece.source) = text.toList

/-- The pieces of a name with an at-sign. -/
def atWord (name : String) : List Piece := .char '@' :: name.toList.map .char

/-- What follows an item without a block: a semicolon, or nothing more in the same block. -/
def EndsItem (ps : List Piece) : Prop := ∀ p ∈ ps.head?, p = .char ';'

/-- Where items stand. -/
inductive Place where
  /-- Outside every block. -/
  | sheet
  /-- In a block. -/
  | block

/-- Pieces spell out items.  Every piece is part of an item, or passed over between two items.
`selects` says what the head of a rule is read as, and `declares` what a declaration is read as. -/
inductive Spells (selects : List Piece → List String → Prop)
    (declares : List Piece → String → String → Prop) : Place → List Piece → List Item → Prop
  /-- Nothing is left. -/
  | nil {place : Place} : Spells selects declares place [] []
  /-- Blanks and semicolons between items are passed over. -/
  | skip {place : Place} {c : Char} {ps : List Piece} {is : List Item}
      (hc : (isPlainBlank c || c == ';') = true) (h : Spells selects declares place ps is) :
      Spells selects declares place (.char c :: ps) is
  /-- A comment between items is an item. -/
  | comment {place : Place} {inside : List Char} {ps : List Piece} {is : List Item}
      (h : Spells selects declares place ps is) :
      Spells selects declares place (.comment inside :: ps)
        (.comment (String.ofList inside) :: is)
  /-- A rule: its head, and its items between braces. -/
  | rule {place : Place} {head inner ps : List Piece} {ss : List String} {body is : List Item}
      (hhead : ItemHead head) (hss : selects head ss)
      (hbody : Spells selects declares .block inner body)
      (h : Spells selects declares place ps is) :
      Spells selects declares place (head ++ .char '{' :: (inner ++ .char '}' :: ps))
        (.nested (.rule ss body) :: is)
  /-- A declaration, which stands in a block. -/
  | declaration {head ps : List Piece} {property value : String} {is : List Item}
      (hhead : ItemHead head) (hne : head ≠ []) (hdeclares : declares head property value)
      (hend : EndsItem ps) (h : Spells selects declares .block ps is) :
      Spells selects declares .block (head ++ ps) (.declaration property value :: is)
  /-- A group: its name, its condition, and its items between braces. -/
  | group {place : Place} {name condition : String} {qs inner ps : List Piece}
      {body is : List Item} (hname : NameText name) (hgroup : isGroupName name = true)
      (hqs : Prelude 0 qs) (hcondition : TrimmedFrom qs condition)
      (hbody : Spells selects declares .block inner body)
      (h : Spells selects declares place ps is) :
      Spells selects declares place
        (atWord name ++ (qs ++ .char '{' :: (inner ++ .char '}' :: ps)))
        (.nested (.group name condition body) :: is)
  /-- A rule with an at-sign whose block is kept as it is written. -/
  | raw {place : Place} {name condition block : String} {qs rs ps : List Piece} {is : List Item}
      (hname : NameText name) (hgroup : isGroupName name = false) (hqs : Prelude 0 qs)
      (hcondition : TrimmedFrom qs condition) (hrs : rawEnd 0 (rs ++ [.char '}']) = some [])
      (hblock : TrimmedFrom rs block) (h : Spells selects declares place ps is) :
      Spells selects declares place
        (atWord name ++ (qs ++ .char '{' :: (rs ++ .char '}' :: ps)))
        (.nested (.atRule name condition (some block)) :: is)
  /-- A rule with an at-sign that has no block.  The end of the whole text ends it also where
  brackets are open. -/
  | statement {place : Place} {name condition : String} {depth : Nat} {qs ps : List Piece}
      {is : List Item} (hname : NameText name) (hqs : Prelude depth qs)
      (hcondition : TrimmedFrom qs condition)
      (hend : depth = 0 ∧ EndsItem ps ∨ place = .sheet ∧ ps = [])
      (h : Spells selects declares place ps is) :
      Spells selects declares place (atWord name ++ (qs ++ ps))
        (.nested (.atRule name condition none) :: is)

/-- What the heads are read as may be said in another way. -/
theorem Spells.imp {selects selects' : List Piece → List String → Prop}
    {declares declares' : List Piece → String → String → Prop} {place : Place} {ps : List Piece}
    {is : List Item} (h : Spells selects declares place ps is)
    (hselects : ∀ qs ss, selects qs ss → selects' qs ss)
    (hdeclares : ∀ qs property value, declares qs property value → declares' qs property value) :
    Spells selects' declares' place ps is := by
  induction h with
  | nil => exact .nil
  | skip hc _ ih => exact .skip hc ih
  | comment _ ih => exact .comment ih
  | rule hhead hss _ _ ihbody ih => exact .rule hhead (hselects _ _ hss) ihbody ih
  | declaration hhead hne hd hend _ ih =>
    exact .declaration hhead hne (hdeclares _ _ _ hd) hend ih
  | group hname hgroup hqs hcondition _ _ ihbody ih =>
    exact .group hname hgroup hqs hcondition ihbody ih
  | raw hname hgroup hqs hcondition hrs hblock _ ih =>
    exact .raw hname hgroup hqs hcondition hrs hblock ih
  | statement hname hqs hcondition hend _ ih =>
    exact .statement hname hqs hcondition hend ih

/-- Whether nothing is under way. -/
def Phase.isIdle : Phase → Bool
  | .idle => true
  | _ => false

theorem Phase.isIdle_iff {phase : Phase} : phase.isIdle = true ↔ phase = .idle := by
  cases phase <;> simp [isIdle]

/-- Behind pieces the reader stands between items. -/
def BetweenItems (ps : List Piece) : Prop :=
  ∃ r, ps.foldlM Reader.step {} = .ok r ∧ r.phase = .idle

instance (ps : List Piece) : Decidable (BetweenItems ps) :=
  match h : ps.foldlM Reader.step {} with
  | .error _ => .isFalse fun ⟨_, hr, _⟩ => nomatch h.symm.trans hr
  | .ok r =>
      decidable_of_iff (r.phase.isIdle = true)
        ⟨fun hidle => ⟨r, h, Phase.isIdle_iff.1 hidle⟩, fun ⟨_, hr, hidle⟩ =>
          Phase.isIdle_iff.2 (Except.ok.inj (h.symm.trans hr) ▸ hidle)⟩

/-- Whether a piece ends an item where no bracket is open. -/
def Piece.endsItem : Piece → Bool
  | .char c => isItemEnd c
  | _ => false

/-- Pieces of a text are the head of a rule or a declaration: they start where the reader stands
between items, and a character that ends an item follows them. -/
def IsHead (all qs : List Piece) : Prop :=
  ∃ before p after, all = before ++ (qs ++ p :: after) ∧ BetweenItems before ∧ ItemHead qs ∧
    p.endsItem = true

theorem IsHead.within {all qs : List Piece} (h : IsHead all qs) : qs <:+: all := by
  obtain ⟨before, p, after, rfl, -⟩ := h
  exact ⟨before, p :: after, List.append_assoc ..⟩

theorem IsHead.itemHead {all qs : List Piece} (h : IsHead all qs) : ItemHead qs := by
  obtain ⟨-, -, -, -, -, hqs, -⟩ := h
  exact hqs

/-- Heads are whole and fit together, since a piece follows them. -/
theorem IsHead.fitting {cs : List Char} {qs : List Piece} (h : IsHead (pieces cs) qs) :
    Fitting qs := by
  obtain ⟨before, p, after, hall, -⟩ := h
  exact fitting_of_follows hall

/-! ### What the reader does -/

/-- A piece with an open end is never passed. -/
theorem isOpen_of_foldlM {ps : List Piece} {r r' : Reader}
    (h : ps.foldlM Reader.step r = .ok r') : ∀ p ∈ ps, p.isOpen = false := by
  induction ps generalizing r with
  | nil => simp
  | cons p ps ih =>
    rw [List.foldlM_cons] at h
    obtain ⟨r₁, hstep, h⟩ := Reader.bind_eq_ok.1 h
    refine List.forall_mem_cons.2 ⟨?_, ih h⟩
    obtain ⟨r₂, hread, -⟩ := Reader.step_eq_ok hstep
    cases p with
    | openString _ _ => cases hread
    | openComment _ => cases hread
    | _ => rfl

namespace Reader

variable {r r' : Reader} {qs : List Piece}

theorem phase_addNode (r : Reader) (n : Node) : (r.addNode n).phase = r.phase := by
  unfold addNode
  split <;> rfl

theorem phase_addComment (r : Reader) (text : List Char) : (r.addComment text).phase = r.phase := by
  unfold addComment
  split <;> rfl

theorem declaration?_cases {cs : List Char} {i : Item} (h : declaration? cs = some i) :
    ∃ p v, i = .declaration p v := by
  simp only [declaration?] at h
  split at h
  · cases h
  · exact ⟨_, _, (Option.some.inj h).symm⟩

/-- An item without a block is a declaration in the innermost block. -/
theorem endItem_eq_ok {start : Nat} {text : List Char} (h : r.endItem start text = .ok r') :
    ∃ b bs property value, r.blocks = b :: bs ∧
      declaration? text.reverse = some (.declaration property value) ∧
      r' = { r with
        phase := .idle
        blocks := { b with items := .declaration property value :: b.items } :: bs } := by
  obtain ⟨offset, phase, blocks, nodes⟩ := r
  cases blocks with
  | nil => cases h
  | cons b bs =>
    simp only [endItem] at h
    split at h
    · cases h
    · next d hd =>
      obtain ⟨property, value, rfl⟩ := declaration?_cases hd
      exact ⟨b, bs, property, value, rfl, hd, (Except.ok.inj h).symm⟩

/-- The innermost block is closed with the items in it. -/
theorem close_eq_ok (h : r.close = .ok r') :
    ∃ b bs, r.blocks = b :: bs ∧ r' = { r with phase := .idle }.closeWith b bs [] := by
  obtain ⟨offset, phase, blocks, nodes⟩ := r
  cases blocks with
  | nil => cases h
  | cons b bs =>
    refine ⟨b, bs, rfl, (Except.ok.inj h).symm.trans ?_⟩
    rw [closeWith, List.append_nil]

/-- Outside every block, and only there, the text may end. -/
theorem settle_eq_ok {s : Stylesheet} (h : r.settle = .ok s) :
    r.blocks = [] ∧ s.rules = r.nodes.reverse := by
  obtain ⟨offset, phase, blocks, nodes⟩ := r
  cases blocks with
  | nil =>
    obtain rfl := Except.ok.inj h
    exact ⟨rfl, rfl⟩
  | cons b bs => cases h

/-- An item is never ended by the end of the text. -/
theorem finish_item_ne_ok {start depth : Nat} {text : List Char} {s : Stylesheet} :
    { r with phase := .item start depth text }.finish ≠ .ok s := by
  intro h
  obtain ⟨r₁, hend, hsettle⟩ := bind_eq_ok.1 h
  obtain ⟨b, bs, property, value, -, -, rfl⟩ := endItem_eq_ok hend
  cases (settle_eq_ok hsettle).1

theorem foldlM_concat (h : qs.foldlM step r = .ok r') (p : Piece) :
    (qs ++ [p]).foldlM step r = r'.step p := by
  rw [List.foldlM_append, h]
  show (r'.step p).bind pure = r'.step p
  cases r'.step p <;> rfl

/-- The head of an item is gathered up to the character that ends the item. -/
theorem foldlM_head (hr : r.phase = .idle) (hqs : ItemHead qs) {c : Char}
    (hopen : ∀ p ∈ qs, p.isOpen = false) (hc : qs = [] → c = '{') :
    ∃ o, (qs ++ [Piece.char c]).foldlM step r
      = { r with phase := .item r.offset 0 (qs.flatMap Piece.source).reverse,
                 offset := o }.step (.char c) := by
  obtain ⟨p, ps, hps, hs⟩ : ∃ p ps, qs ++ [Piece.char c] = p :: ps ∧ p.opensItem = true := by
    cases qs with
    | nil => exact ⟨.char c, [], rfl, by rw [hc rfl]; rfl⟩
    | cons p qs => exact ⟨p, qs ++ [.char c], rfl, hqs.opens p rfl⟩
  obtain ⟨o, ho⟩ := (gathers_item r.offset).foldlM hopen hqs.balanced r []
  refine ⟨o, ?_⟩
  rw [List.append_nil] at ho
  rw [hps, foldlM_idle hr hs, ← hps, foldlM_concat ho]

/-- Where no item ends, the pieces of one are gathered. -/
theorem foldlM_item (hr : r.phase = .idle) {p : Piece} (hs : p.opensItem = true) {depth : Nat}
    (hqs : depthAfter isItemEnd 0 (p :: qs) = some depth)
    (hopen : ∀ q ∈ p :: qs, q.isOpen = false) :
    ∃ o, (p :: qs).foldlM step r
      = .ok { r with phase := .item r.offset depth ((p :: qs).flatMap Piece.source).reverse,
                     offset := o } := by
  obtain ⟨o, ho⟩ := (gathers_item r.offset).foldlM hopen hqs r []
  rw [List.append_nil] at ho
  exact ⟨o, (foldlM_idle hr hs qs).trans ho⟩

/-- A text that stops in the middle of an item is not accepted. -/
theorem finish_of_head (hr : r.phase = .idle) {p : Piece} (hs : p.opensItem = true) {depth : Nat}
    (hqs : depthAfter isItemEnd 0 (p :: qs) = some depth) {s : Stylesheet} :
    ((p :: qs).foldlM step r).bind finish ≠ .ok s := by
  intro h
  obtain ⟨r', hread, hfinish⟩ := bind_eq_ok.1 h
  obtain ⟨o, ho⟩ := foldlM_item hr hs hqs (isOpen_of_foldlM hread)
  obtain rfl := Except.ok.inj (ho.symm.trans hread)
  exact finish_item_ne_ok (r := { r with offset := o }) hfinish

/-- The characters of a name are gathered behind those that were gathered before. -/
theorem foldlM_nameChars {cs : List Char} (h : ∀ c ∈ cs, isNameChar c = true) (r : Reader)
    (text : List Char) :
    ∃ o, (cs.map Piece.char).foldlM step { r with phase := .atName text }
      = .ok { r with phase := .atName (cs.reverse ++ text), offset := o } := by
  induction cs generalizing r text with
  | nil => exact ⟨r.offset, rfl⟩
  | cons c cs ih =>
    obtain ⟨hc, hcs⟩ := List.forall_mem_cons.1 h
    have hread : { r with phase := .atName text }.readPiece (.char c)
        = .ok { r with phase := .atName (c :: text) } := by
      simp [readPiece, readChar, hc]
    obtain ⟨o, ho⟩ := ih hcs { r with offset := r.offset + byteLength [c] } (c :: text)
    refine ⟨o, ?_⟩
    rw [List.map_cons, foldlM_cons_of_ok _ hread, List.reverse_cons, List.append_assoc]
    exact ho

/-- A name with an at-sign is gathered. -/
theorem foldlM_atWord (hr : r.phase = .idle) {name : String} (hname : NameText name) :
    ∃ o, (atWord name).foldlM step r
      = .ok { r with phase := .atName name.toList.reverse, offset := o } := by
  have hat : r.readPiece (.char '@') = .ok { r with phase := .atName [] } := by
    simp [readPiece, readChar, hr, isPlainBlank]
  obtain ⟨o, ho⟩ := foldlM_nameChars hname
    { r with offset := r.offset + byteLength (Piece.char '@').source } []
  refine ⟨o, ?_⟩
  rw [atWord, foldlM_cons_of_ok _ hat, ho, List.append_nil]

/-- The pieces behind a name with an at-sign are gathered up to the character that ends the rule or
opens its block. -/
theorem foldlM_prelude (hr : r.phase = .idle) {name : String} (hname : NameText name)
    {depth : Nat} (hqs : Prelude depth qs) (hopen : ∀ p ∈ qs, p.isOpen = false) {c : Char}
    (hc : isItemEnd c = true) :
    ∃ o, ((atWord name ++ qs) ++ [Piece.char c]).foldlM step r
      = { r with phase := .prelude name depth (qs.flatMap Piece.source).reverse,
                 offset := o }.step (.char c) := by
  obtain ⟨p, ps, hps, hp⟩ : ∃ p ps, qs ++ [Piece.char c] = p :: ps ∧
      ∀ d, p = .char d → isNameChar d = false := by
    cases qs with
    | nil =>
      refine ⟨.char c, [], rfl, ?_⟩
      rintro d ⟨⟩
      simp only [isItemEnd, Bool.or_eq_true, beq_iff_eq] at hc
      rcases hc with (rfl | rfl) | rfl <;> decide
    | cons p qs =>
      refine ⟨p, qs ++ [.char c], rfl, ?_⟩
      rintro d rfl
      exact hqs.separate d rfl
  obtain ⟨o, ho⟩ := foldlM_atWord hr hname
  obtain ⟨o', ho'⟩ := (gathers_prelude name).foldlM hopen hqs.balanced { r with offset := o } []
  refine ⟨o', ?_⟩
  rw [List.append_assoc, List.foldlM_append, ho]
  show (qs ++ [Piece.char c]).foldlM step { r with phase := .atName _, offset := o } = _
  rw [List.append_nil] at ho'
  rw [hps, foldlM_atName hp { r with offset := o }, ← hps, List.reverse_reverse,
    String.ofList_toList, foldlM_concat ho']

/-- One reader ends an item as another one goes on that has the item: at the end of the text, and at
a semicolon or a brace where no bracket is open. -/
structure EndsAs (depth : Nat) (r r' : Reader) : Prop where
  finish : r.finish = r'.finish
  step : depth = 0 → ∀ c, c = ';' ∨ c = '}' → r.step (.char c) = r'.step (.char c)

theorem endsAs_prelude (r : Reader) (name : String) (depth : Nat) (text : List Char) :
    EndsAs depth { r with phase := .prelude name depth text } (r.endAtRule name text) := by
  obtain ⟨offset, phase, blocks, nodes⟩ := r
  constructor
  · cases blocks <;> rfl
  · rintro rfl c (rfl | rfl)
    · cases blocks <;> rfl
    · cases blocks <;> rfl

theorem endsAs_atName (r : Reader) (name : String) :
    EndsAs 0 { r with phase := .atName name.toList.reverse } (r.endAtRule name []) := by
  have hname : String.ofList name.toList.reverse.reverse = name := by
    rw [List.reverse_reverse, String.ofList_toList]
  obtain ⟨offset, phase, blocks, nodes⟩ := r
  constructor
  · conv_rhs => rw [← hname]
    cases blocks <;> rfl
  · rintro - c (rfl | rfl)
    · conv_rhs => rw [← hname]
      cases blocks <;> rfl
    · conv_rhs => rw [← hname]
      cases blocks <;> rfl

/-- A name with an at-sign and the pieces behind it leave a rule to be ended. -/
theorem foldlM_atRule (hr : r.phase = .idle) {name : String} (hname : NameText name)
    {depth : Nat} (hqs : Prelude depth qs) (hopen : ∀ p ∈ qs, p.isOpen = false) :
    ∃ r' o, (atWord name ++ qs).foldlM step r = .ok r' ∧ EndsAs depth r'
      ({ r with offset := o }.endAtRule name (qs.flatMap Piece.source).reverse) := by
  obtain ⟨o, ho⟩ := foldlM_atWord hr hname
  rw [List.foldlM_append, ho]
  show ∃ r' o', qs.foldlM step { r with phase := .atName _, offset := o } = _ ∧ _
  cases qs with
  | nil =>
    obtain rfl : 0 = depth := Option.some.inj hqs.balanced
    exact ⟨_, o, rfl, endsAs_atName { r with offset := o } name⟩
  | cons p ps =>
    obtain ⟨o', ho'⟩ :=
      (gathers_prelude name).foldlM hopen hqs.balanced { r with offset := o } []
    rw [List.append_nil] at ho'
    rw [foldlM_atName (fun d hd => hqs.separate d (by rw [hd]; rfl)) { r with offset := o },
      List.reverse_reverse, String.ofList_toList]
    exact ⟨_, o', ho', endsAs_prelude { r with offset := o' } name depth _⟩

/-- A rule with an at-sign that the end of the text ends. -/
theorem finish_of_prelude (hr : r.phase = .idle) {name : String} (hname : NameText name)
    {depth : Nat} (hqs : Prelude depth qs) {s : Stylesheet}
    (h : ((atWord name ++ qs).foldlM step r).bind finish = .ok s) :
    r.blocks = [] ∧ s.rules = (Node.atRule name (String.ofList (trim (qs.flatMap Piece.source)))
      none :: r.nodes).reverse := by
  obtain ⟨r₁, hread, hfinish⟩ := bind_eq_ok.1 h
  obtain ⟨r₂, o, hread', hends⟩ := foldlM_atRule hr hname hqs
    (List.forall_mem_append.1 (isOpen_of_foldlM hread)).2
  obtain rfl := Except.ok.inj (hread'.symm.trans hread)
  rw [hends.finish] at hfinish
  obtain ⟨offset, phase, blocks, nodes⟩ := r
  cases blocks with
  | nil =>
    obtain rfl := Except.ok.inj hfinish
    exact ⟨rfl, by simp [endAtRule, addNode]⟩
  | cons b bs => cases hfinish

/-- A block that is kept as it is written and never closed is not accepted. -/
theorem finish_of_rawEnd {depth : Nat} {todo : List Piece} (h : rawEnd depth todo = none)
    {name condition : String} {opened : Nat} {text : List Char} {s : Stylesheet} :
    (todo.foldlM step { r with phase := .raw name condition opened depth text }).bind finish
      ≠ .ok s := by
  fun_induction rawEnd depth todo generalizing r text with
  | case1 =>
    intro hs
    cases hs
  | case2 => cases h
  | case3 c ps hc depth ih =>
    obtain rfl : c = '}' := by simpa using hc
    rw [foldlM_cons_of_ok (.char '}') rfl]
    exact ih h (r := { r with offset := _ })
  | case4 depth c ps hc ih =>
    rw [foldlM_cons_of_ok _ (readPiece_raw_char (by simpa using hc) ..)]
    exact ih h (r := { r with offset := _ })
  | case5 =>
    intro hs
    cases hs
  | case6 =>
    intro hs
    cases hs
  | case7 depth p ps h₁ h₂ h₃ ih =>
    rw [foldlM_cons_of_ok _ (readPiece_raw_text h₁ (Piece.isOpen_eq_false h₂ h₃) ..)]
    exact ih h (r := { r with offset := _ })

/-- What stands behind a block is behind a closing brace, and the block does not depend on it. -/
theorem exists_append_of_rawEnd {depth : Nat} {todo rest : List Piece}
    (h : rawEnd depth todo = some rest) :
    ∃ rs, todo = rs ++ .char '}' :: rest ∧ rawEnd depth (rs ++ [.char '}']) = some [] := by
  fun_induction rawEnd depth todo with
  | case1 => cases h
  | case2 c ps hc =>
    obtain rfl : c = '}' := by simpa using hc
    obtain rfl := Option.some.inj h
    exact ⟨[], rfl, rfl⟩
  | case3 c ps hc depth ih =>
    obtain ⟨rs, rfl, hrs⟩ := ih h
    exact ⟨.char c :: rs, rfl, by simpa [rawEnd, hc] using hrs⟩
  | case4 depth c ps hc ih =>
    obtain ⟨rs, rfl, hrs⟩ := ih h
    exact ⟨.char c :: rs, rfl, by simpa [rawEnd, hc] using hrs⟩
  | case5 => cases h
  | case6 => cases h
  | case7 depth p ps h₁ h₂ h₃ ih =>
    obtain ⟨rs, rfl, hrs⟩ := ih h
    refine ⟨p :: rs, rfl, ?_⟩
    rw [List.cons_append, rawEnd, hrs]
    · exact h₁
    · exact h₂
    · exact h₃

/-- A block that is kept as it is written is gathered up to its closing brace. -/
theorem foldlM_raw (r : Reader) {rs : List Piece} (hrs : rawEnd 0 (rs ++ [.char '}']) = some [])
    (name condition : String) (opened : Nat) :
    ∃ o, (rs ++ [Piece.char '}']).foldlM step { r with phase := .raw name condition opened 0 [] }
      = .ok { { r with phase := .idle }.addNode (.atRule name condition
          (some (String.ofList (trim (rs.flatMap Piece.source))))) with offset := o } := by
  obtain ⟨qs, hqs, hread⟩ := gathersRaw_of_rawEnd hrs name condition opened
  obtain rfl := List.append_cancel_right hqs
  obtain ⟨o, ho⟩ := hread r []
  refine ⟨o + byteLength (Piece.char '}').source, ?_⟩
  rw [List.append_nil] at ho
  rw [foldlM_concat ho, step_of_ok rfl]
  obtain ⟨offset, phase, blocks, nodes⟩ := r
  cases blocks <;> simp [rawChar, addNode]

/-- In an accepted text such a block is closed. -/
theorem exists_raw {name condition : String} {opened : Nat} {todo : List Piece} {s : Stylesheet}
    (h : (todo.foldlM step { r with phase := .raw name condition opened 0 [] }).bind finish
      = .ok s) :
    ∃ rs rest, todo = rs ++ .char '}' :: rest ∧ rawEnd 0 (rs ++ [.char '}']) = some [] := by
  cases hend : rawEnd 0 todo with
  | none => exact absurd h (finish_of_rawEnd hend)
  | some rest =>
    obtain ⟨rs, htodo, hrs⟩ := exists_append_of_rawEnd hend
    exact ⟨rs, rest, htodo, hrs⟩

/-- Where the items stand that a reader meets. -/
def place (r : Reader) : Place :=
  match r.blocks with
  | [] => .sheet
  | _ :: _ => .block

/-- A reader between items has one item more than another one. -/
inductive Receives (r : Reader) : Item → Reader → Prop
  /-- A node outside every block. -/
  | sheet {n : Node} {o : Nat} (blocks : r.blocks = []) :
      Receives r n.toItem ⟨o, .idle, [], n :: r.nodes⟩
  /-- An item in the innermost block. -/
  | block {i : Item} {b : Block} {bs : List Block} {o : Nat} (blocks : r.blocks = b :: bs) :
      Receives r i ⟨o, .idle, { b with items := i :: b.items } :: bs, r.nodes⟩

theorem Receives.idle {i : Item} (h : Receives r i r') : r'.phase = .idle := by
  cases h <;> rfl

theorem Receives.offset {i : Item} (h : Receives r i r') (o : Nat) :
    Receives r i { r' with offset := o } := by
  cases h with
  | sheet hblocks => exact .sheet hblocks
  | block hblocks => exact .block hblocks

theorem Receives.place_eq {i : Item} (h : Receives r i r') : r'.place = r.place := by
  cases h with
  | sheet hblocks => rw [place, place, hblocks]
  | block hblocks => rw [place, place, hblocks]

/-- The number of bytes read does not matter where a block is closed. -/
theorem closeWith_congr {b : Block} {bs : List Block} {is : List Item} {o : Nat}
    (hphase : r'.phase = r.phase) (hnodes : r'.nodes = r.nodes) :
    { r'.closeWith b bs is with offset := o } = { r.closeWith b bs is with offset := o } := by
  unfold closeWith addNode
  cases bs <;> simp [hphase, hnodes]

/-- A node is received by every reader with the same blocks and nodes. -/
theorem receives_addNode (r' : Reader) (n : Node) (hn : n.toItem = .nested n)
    (hphase : r'.phase = .idle) (hblocks : r'.blocks = r.blocks) (hnodes : r'.nodes = r.nodes) :
    Receives r (.nested n) (r'.addNode n) := by
  obtain ⟨offset, phase, blocks, nodes⟩ := r
  obtain ⟨offset', phase', blocks', nodes'⟩ := r'
  obtain rfl : phase' = .idle := hphase
  obtain rfl : blocks' = blocks := hblocks
  obtain rfl : nodes' = nodes := hnodes
  cases blocks' with
  | nil =>
    rw [← hn]
    exact .sheet rfl
  | cons b bs => exact .block rfl

/-- When a block is closed its node is received. -/
theorem receives_closeWith (r : Reader) (head : Head) (opened o o' : Nat) (body : List Item) :
    let r' : Reader := ⟨o, .idle, ⟨head, opened, []⟩ :: r.blocks, r.nodes⟩
    Receives r (.nested (head.toNode body))
      { r'.closeWith ⟨head, opened, []⟩ r.blocks body with offset := o' } := by
  have hnode : (head.toNode body).toItem = .nested (head.toNode body) := by cases head <;> rfl
  have h : r.Receives _ _ := receives_addNode ⟨o, .idle, r.blocks, r.nodes⟩ _ hnode rfl rfl rfl
  exact h.offset o'

theorem receives_addComment (hr : r.phase = .idle) (text : List Char) (o : Nat) :
    Receives r (.comment (String.ofList text)) { r.addComment text with offset := o } := by
  obtain ⟨offset, phase, blocks, nodes⟩ := r
  obtain rfl : phase = .idle := hr
  cases blocks with
  | nil => exact .sheet (n := .comment (String.ofList text)) rfl
  | cons b bs => exact .block rfl

end Reader

/-! ### Every accepted text spells out its stylesheet -/

/-- A name is split off the pieces behind an at-sign. -/
theorem exists_name (ps : List Piece) :
    ∃ name ts, NameText name ∧ ps = name.toList.map .char ++ ts ∧
      ∀ c, ts.head? = some (.char c) → isNameChar c = false := by
  induction ps with
  | nil => exact ⟨"", [], by simp [NameText], rfl, by simp⟩
  | cons p ps ih =>
    by_cases hp : ∃ c, p = .char c ∧ isNameChar c = true
    · obtain ⟨c, rfl, hc⟩ := hp
      obtain ⟨name, ts, hname, rfl, hts⟩ := ih
      refine ⟨String.ofList (c :: name.toList), ts, ?_, by simp, hts⟩
      simpa [NameText, hc] using hname
    · refine ⟨"", p :: ps, by simp [NameText], rfl, fun c hc => ?_⟩
      obtain rfl := Option.some.inj hc
      simpa using fun h => hp ⟨c, rfl, h⟩

section Completes

variable (selects : List Piece → List String → Prop)
  (declares : List Piece → String → String → Prop)

/-- What the rest of an accepted text is for a reader `r` between items that has read `done`. -/
inductive Completes (s : Stylesheet) (done : List Piece) (r : Reader) (todo : List Piece) : Prop
  /-- Outside every block it spells out the nodes that are still missing. -/
  | sheet {is : List Item} (blocks : r.blocks = [])
      (spells : Spells selects declares .sheet todo is)
      (rules : s.rules.map Node.toItem = r.nodes.reverse.map Node.toItem ++ is)
  /-- In a block it spells out the items up to the closing brace, behind which the reader is between
  items again. -/
  | block {b : Block} {bs : List Block} {ps rest : List Piece} {is : List Item} {o : Nat}
      (blocks : r.blocks = b :: bs) (todo_eq : todo = ps ++ .char '}' :: rest)
      (spells : Spells selects declares .block ps is)
      (read : (done ++ (ps ++ [Piece.char '}'])).foldlM Reader.step {}
        = .ok { r.closeWith b bs is with offset := o })

variable {selects declares} {s : Stylesheet} {all done todo qs rest : List Piece} {r r' : Reader}
  {i : Item}

/-- The items of the rest follow one that the reader received before. -/
theorem Completes.receive (h : Completes selects declares s (done ++ qs) r' rest)
    (hr : r.Receives i r') (hidle : r.phase = .idle)
    (hspells : ∀ ps is, Spells selects declares r.place ps is →
      Spells selects declares r.place (qs ++ ps) (i :: is)) :
    Completes selects declares s done r (qs ++ rest) := by
  cases hr with
  | @sheet n o hblocks =>
    rw [Reader.place, hblocks] at hspells
    cases h with
    | sheet _ hrest hrules => exact .sheet hblocks (hspells _ _ hrest) (by simpa using hrules)
    | block hne => cases hne
  | @block i b bs o hblocks =>
    rw [Reader.place, hblocks] at hspells
    cases h with
    | sheet hnil => cases hnil
    | @block b' bs' ps rest is o' hb htodo hrest hread =>
      obtain ⟨rfl, rfl⟩ := List.cons.inj hb
      refine .block (o := o') hblocks (by rw [htodo, List.append_assoc]) (hspells _ _ hrest) ?_
      rw [List.append_assoc, closeWith_items] at hread
      rw [List.append_assoc]
      exact hread.trans (congrArg Except.ok (Reader.closeWith_congr hidle.symm rfl))

/-- What is passed over leaves the reader between the same items. -/
theorem Completes.skip {p : Piece} {o : Nat}
    (h : Completes selects declares s (done ++ [p]) { r with offset := o } rest)
    (hspells : ∀ place ps is, Spells selects declares place ps is →
      Spells selects declares place (p :: ps) is) :
    Completes selects declares s done r (p :: rest) := by
  cases h with
  | sheet hblocks hrest hrules => exact .sheet hblocks (hspells _ _ _ hrest) hrules
  | @block b bs ps rest is o' hblocks htodo hrest hread =>
    refine .block (o := o') hblocks (by rw [htodo]; rfl) (hspells _ _ _ hrest) ?_
    rw [List.append_assoc] at hread
    exact hread.trans (congrArg Except.ok (Reader.closeWith_congr rfl rfl))

/-- The induction hypothesis for rests shorter than `n`. -/
def CompletesBelow (selects : List Piece → List String → Prop)
    (declares : List Piece → String → String → Prop) (s : Stylesheet) (all : List Piece)
    (n : Nat) : Prop :=
  ∀ done todo r, todo.length < n → all = done ++ todo → done.foldlM Reader.step {} = .ok r →
    r.phase = .idle → Completes selects declares s done r todo

/-- What is accepted is read piece by piece. -/
theorem exists_read (h : ((qs ++ rest).foldlM Reader.step r).bind Reader.finish = .ok s) :
    ∃ r', qs.foldlM Reader.step r = .ok r' ∧
      (rest.foldlM Reader.step r').bind Reader.finish = .ok s := by
  obtain ⟨r₁, hread, hfinish⟩ := Reader.bind_eq_ok.1 h
  rw [List.foldlM_append] at hread
  obtain ⟨r₂, hqs, hrest⟩ := Reader.bind_eq_ok.1 hread
  exact ⟨r₂, hqs, Reader.bind_eq_ok.2 ⟨r₁, hrest, hfinish⟩⟩

theorem read_behind {r₀ : Reader} (hdone : done.foldlM Reader.step r₀ = .ok r)
    (hqs : qs.foldlM Reader.step r = .ok r') : (done ++ qs).foldlM Reader.step r₀ = .ok r' := by
  rw [List.foldlM_append, hdone]
  exact hqs

/-- A whole block: its items are completed first, and then the rest behind it. -/
theorem Completes.openBlock {n : Nat} (ih : CompletesBelow selects declares s all n)
    (hlength : rest.length < n) (hall : all = done ++ (qs ++ rest)) (hidle : r.phase = .idle)
    {head : Head} {o opened : Nat}
    (hopen : (done ++ qs).foldlM Reader.step {}
      = .ok ⟨o, .idle, ⟨head, opened, []⟩ :: r.blocks, r.nodes⟩)
    (hspells : ∀ inner body ps is, Spells selects declares .block inner body →
      Spells selects declares r.place ps is → Spells selects declares r.place
        (qs ++ (inner ++ .char '}' :: ps)) (.nested (head.toNode body) :: is)) :
    Completes selects declares s done r (qs ++ rest) := by
  rw [← List.append_assoc] at hall
  cases ih _ _ _ hlength hall hopen rfl with
  | sheet hnil => cases hnil
  | @block b bs inner rest' body o' hblocks htodo hbody hread =>
    obtain ⟨rfl, rfl⟩ := List.cons.inj hblocks
    subst htodo
    have hreceives := Reader.receives_closeWith r head opened o o' body
    have hrest : qs ++ (inner ++ .char '}' :: rest')
        = (qs ++ (inner ++ [.char '}'])) ++ rest' := by simp
    rw [hrest]
    refine Completes.receive ?_ hreceives hidle fun ps is h => ?_
    · refine ih _ _ _ (by simp at hlength; omega) ?_ ?_ hreceives.idle
      · rw [hall]
        simp
      · rw [← List.append_assoc]
        exact hread
    · simpa using hspells inner body ps is hbody h

/-- A whole block that is kept as it is written, and then the rest behind it. -/
theorem Completes.rawBlock {n : Nat} (ih : CompletesBelow selects declares s all n)
    (hlength : rest.length < n) (hall : all = done ++ (qs ++ rest)) (hidle : r.phase = .idle)
    {name condition : String} {o opened : Nat}
    (hopen : (done ++ qs).foldlM Reader.step {}
      = .ok { r with offset := o, phase := .raw name condition opened 0 [] })
    (hrest : (rest.foldlM Reader.step
      { r with offset := o, phase := .raw name condition opened 0 [] }).bind Reader.finish = .ok s)
    (hspells : ∀ rs block ps is, rawEnd 0 (rs ++ [.char '}']) = some [] → TrimmedFrom rs block →
      Spells selects declares r.place ps is → Spells selects declares r.place
        (qs ++ (rs ++ .char '}' :: ps)) (.nested (.atRule name condition (some block)) :: is)) :
    Completes selects declares s done r (qs ++ rest) := by
  obtain ⟨rs, rest, rfl, hrs⟩ := Reader.exists_raw (r := { r with offset := o }) hrest
  obtain ⟨o', hraw⟩ := Reader.foldlM_raw { r with offset := o } hrs name condition opened
  have hreceives := (Reader.receives_addNode (r := r) { r with offset := o, phase := .idle }
    (.atRule name condition (some (String.ofList (trim (rs.flatMap Piece.source)))))
    rfl rfl rfl rfl).offset o'
  have hcut : qs ++ (rs ++ .char '}' :: rest) = (qs ++ (rs ++ [.char '}'])) ++ rest := by simp
  rw [hcut] at hall ⊢
  rw [← List.append_assoc] at hall
  have hread := read_behind hopen hraw
  rw [List.append_assoc] at hread
  refine (ih _ _ _ (by simp at hlength; omega) hall hread hreceives.idle).receive hreceives hidle
    fun ps is h => ?_
  simpa using hspells rs _ ps is hrs String.toList_ofList.symm h

/-- An item without a block that a semicolon ends. -/
theorem Completes.semicolon {n : Nat} (ih : CompletesBelow selects declares s all n)
    (hlength : rest.length < n) (hall : all = done ++ (qs ++ .char ';' :: rest))
    (hidle : r.phase = .idle) (hr : r.Receives i r') {o : Nat}
    (hread : (done ++ (qs ++ [Piece.char ';'])).foldlM Reader.step {}
      = .ok { r' with offset := o })
    (hspells : ∀ ps is, EndsItem ps → Spells selects declares r.place ps is →
      Spells selects declares r.place (qs ++ ps) (i :: is)) :
    Completes selects declares s done r (qs ++ .char ';' :: rest) := by
  have hreceives := hr.offset o
  rw [List.append_cons] at hall ⊢
  rw [← List.append_assoc] at hall
  refine (ih _ _ _ hlength hall hread hreceives.idle).receive hreceives hidle fun ps is h => ?_
  rw [← List.append_cons]
  exact hspells _ _ (by simp [EndsItem]) (.skip rfl h)

/-- An item without a block that ends its block. -/
theorem Completes.brace (hidle : r.phase = .idle) (hr : r.Receives i r') {r'' : Reader}
    (hclose : r'.close = .ok r'') {o : Nat}
    (hread : (done ++ (qs ++ [Piece.char '}'])).foldlM Reader.step {}
      = .ok { r'' with offset := o })
    (hspells : ∀ ps is, EndsItem ps → Spells selects declares r.place ps is →
      Spells selects declares r.place (qs ++ ps) (i :: is)) :
    Completes selects declares s done r (qs ++ .char '}' :: rest) := by
  obtain ⟨b, bs, hblocks, rfl⟩ := Reader.close_eq_ok hclose
  have hlast := hspells [] [] (by simp [EndsItem]) .nil
  rw [List.append_nil] at hlast
  cases hr with
  | sheet => cases hblocks
  | block hr =>
    obtain ⟨rfl, rfl⟩ := List.cons.inj hblocks
    rw [Reader.place, hr] at hlast
    refine .block (o := o) hr rfl hlast (hread.trans ?_)
    rw [closeWith_items]
    exact congrArg Except.ok (Reader.closeWith_congr hidle.symm rfl)

/-- The selectors of a rule are those in its head. -/
def SelectsIn (all qs : List Piece) (ss : List String) : Prop :=
  IsHead all qs ∧ splitSelectors (qs.flatMap Piece.source) = ss

/-- A declaration is what its head is read as. -/
def DeclaresIn (all qs : List Piece) (property value : String) : Prop :=
  IsHead all qs ∧ declaration? (qs.flatMap Piece.source) = some (.declaration property value)

theorem isItemEnd_cases {c : Char} (h : isItemEnd c = true) : c = '{' ∨ c = ';' ∨ c = '}' := by
  simpa [isItemEnd, or_assoc] using h

/-- An item that is ended has a head, which is empty only in front of a block. -/
theorem exists_itemHead {p : Piece} {ps : List Piece} (hs : p.opensItem = true)
    (h : depthAfter isItemEnd 0 (p :: ps) = none) :
    ∃ qs c rest, p :: ps = qs ++ .char c :: rest ∧ isItemEnd c = true ∧ ItemHead qs ∧
      (qs = [] → c = '{') := by
  obtain ⟨qs, c, rest, hqs, hc, hbal⟩ := exists_stop h
  refine ⟨qs, c, rest, hqs, hc, ⟨fun q hq => ?_, hbal⟩, ?_⟩
  · obtain ⟨qs', rfl⟩ := List.head?_eq_some_iff.1 hq
    obtain ⟨rfl, -⟩ := List.cons.inj hqs
    exact hs
  · rintro rfl
    obtain ⟨rfl, -⟩ := List.cons.inj hqs
    rcases isItemEnd_cases hc with rfl | rfl | rfl
    · rfl
    · cases hs
    · cases hs

/-- Where an item starts, it is a rule or a declaration. -/
theorem completes_item {n : Nat} (ih : CompletesBelow (SelectsIn all) (DeclaresIn all) s all n)
    {p : Piece} {ps : List Piece} (hlength : ps.length < n) (hs : p.opensItem = true)
    (hall : all = done ++ p :: ps) (hdone : done.foldlM Reader.step {} = .ok r)
    (hidle : r.phase = .idle)
    (hrest : ((p :: ps).foldlM Reader.step r).bind Reader.finish = .ok s) :
    Completes (SelectsIn all) (DeclaresIn all) s done r (p :: ps) := by
  cases hdepth : depthAfter isItemEnd 0 (p :: ps) with
  | some depth => exact absurd hrest (Reader.finish_of_head hidle hs hdepth)
  | none =>
    obtain ⟨qs, c, rest, hqs, hc, hhead, hempty⟩ := exists_itemHead hs hdepth
    have hshort : rest.length < n := by
      have := congrArg List.length hqs
      simp at this
      omega
    rw [hqs] at hall hrest ⊢
    have hin : IsHead all qs := ⟨done, .char c, rest, hall, ⟨r, hdone, hidle⟩, hhead, hc⟩
    -- a declaration looks the same in front of a semicolon and in front of a brace
    have hdeclaration : ∀ {b bs property value}, r.blocks = b :: bs → c ≠ '{' →
        declaration? (qs.flatMap Piece.source).reverse.reverse
          = some (.declaration property value) →
        ∀ ps is, EndsItem ps → Spells (SelectsIn all) (DeclaresIn all) r.place ps is →
          Spells (SelectsIn all) (DeclaresIn all) r.place (qs ++ ps)
            (.declaration property value :: is) := by
      intro b bs property value hblocks hc hdecl
      rw [Reader.place, hblocks]
      rw [List.reverse_reverse] at hdecl
      exact fun ps is => .declaration hhead (fun hnil => hc (hempty hnil)) ⟨hin, hdecl⟩
    rw [List.append_cons] at hrest
    obtain ⟨r₁, hread, -⟩ := exists_read hrest
    obtain ⟨o, ho⟩ := Reader.foldlM_head hidle hhead
      (List.forall_mem_append.1 (isOpen_of_foldlM hread)).1 hempty
    have hdone' := read_behind hdone hread
    obtain ⟨r₂, hpiece, rfl⟩ := Reader.step_eq_ok (ho.symm.trans hread)
    rcases isItemEnd_cases hc with rfl | rfl | rfl
    · obtain rfl := Except.ok.inj hpiece
      rw [List.append_cons] at hall ⊢
      refine Completes.openBlock ih hshort hall hidle hdone' fun inner body ps is hbody h => ?_
      rw [← List.append_cons]
      exact .rule hhead ⟨hin, by rw [List.reverse_reverse]⟩ hbody h
    · obtain ⟨b, bs, property, value, hblocks, hdecl, rfl⟩ := Reader.endItem_eq_ok hpiece
      exact Completes.semicolon ih hshort hall hidle (.block (o := o) hblocks) hdone'
        (hdeclaration hblocks (by decide) hdecl)
    · obtain ⟨r₃, hend, hclose⟩ := Reader.bind_eq_ok.1 hpiece
      obtain ⟨b, bs, property, value, hblocks, hdecl, rfl⟩ := Reader.endItem_eq_ok hend
      exact Completes.brace hidle (.block (o := o) hblocks) hclose hdone'
        (hdeclaration hblocks (by decide) hdecl)

/-- A rule with an at-sign that a character ends is a group, one that is kept as it is written, or
one without a block. -/
theorem completes_prelude {n : Nat} (ih : CompletesBelow (SelectsIn all) (DeclaresIn all) s all n)
    {name : String} (hname : NameText name) (hqs : Prelude 0 qs) {c : Char}
    (hc : isItemEnd c = true) (hlength : rest.length < n)
    (hall : all = done ++ ((atWord name ++ qs) ++ .char c :: rest))
    (hdone : done.foldlM Reader.step {} = .ok r) (hidle : r.phase = .idle)
    (hrest : (((atWord name ++ qs) ++ .char c :: rest).foldlM Reader.step r).bind Reader.finish
      = .ok s) :
    Completes (SelectsIn all) (DeclaresIn all) s done r
      ((atWord name ++ qs) ++ .char c :: rest) := by
  rw [List.append_cons] at hrest
  obtain ⟨r₁, hread, hrest⟩ := exists_read hrest
  have hopen := (List.forall_mem_append.1 (isOpen_of_foldlM hread)).1
  obtain ⟨o, ho⟩ :=
    Reader.foldlM_prelude hidle hname hqs (List.forall_mem_append.1 hopen).2 hc
  have hdone' := read_behind hdone hread
  obtain ⟨r₂, hpiece, rfl⟩ := Reader.step_eq_ok (ho.symm.trans hread)
  have hreceives : ∀ n : Node, n.toItem = .nested n → r.Receives (.nested n)
      ({ r with offset := o, phase := .idle }.addNode n) := fun n hn =>
    Reader.receives_addNode _ n hn rfl rfl rfl
  have hcondition : TrimmedFrom qs
      (String.ofList (trim (qs.flatMap Piece.source).reverse.reverse)) := by
    rw [List.reverse_reverse]
    exact String.toList_ofList.symm
  have hstatement : ∀ ps is, EndsItem ps → Spells (SelectsIn all) (DeclaresIn all) r.place ps is →
      Spells (SelectsIn all) (DeclaresIn all) r.place ((atWord name ++ qs) ++ ps)
        (.nested (.atRule name
          (String.ofList (trim (qs.flatMap Piece.source).reverse.reverse)) none) :: is) := by
    intro ps is hend h
    rw [List.append_assoc]
    exact .statement hname hqs hcondition (.inl ⟨rfl, hend⟩) h
  rcases isItemEnd_cases hc with rfl | rfl | rfl
  · rw [List.append_cons] at hall ⊢
    by_cases hgroup : isGroupName name = true
    · obtain rfl := Except.ok.inj ((if_pos hgroup).symm.trans hpiece)
      refine Completes.openBlock ih hlength hall hidle hdone' fun inner body ps is hbody h => ?_
      simp only [List.append_assoc, List.singleton_append]
      exact .group hname hgroup hqs hcondition hbody h
    · obtain rfl := Except.ok.inj ((if_neg hgroup).symm.trans hpiece)
      refine Completes.rawBlock ih hlength hall hidle hdone' hrest
        fun rs block ps is hrs hblock h => ?_
      simp only [List.append_assoc, List.singleton_append]
      exact .raw hname (Bool.eq_false_iff.2 hgroup) hqs hcondition hrs hblock h
  · obtain rfl := Except.ok.inj hpiece
    exact Completes.semicolon ih hlength hall hidle (hreceives _ rfl) hdone' hstatement
  · exact Completes.brace hidle (hreceives _ rfl) hpiece hdone' hstatement

/-- A rule with an at-sign. -/
theorem completes_atRule {n : Nat} (ih : CompletesBelow (SelectsIn all) (DeclaresIn all) s all n)
    {ps : List Piece} (hlength : ps.length < n) (hall : all = done ++ .char '@' :: ps)
    (hdone : done.foldlM Reader.step {} = .ok r) (hidle : r.phase = .idle)
    (hrest : ((.char '@' :: ps).foldlM Reader.step r).bind Reader.finish = .ok s) :
    Completes (SelectsIn all) (DeclaresIn all) s done r (.char '@' :: ps) := by
  obtain ⟨name, ts, hname, rfl, hts⟩ := exists_name ps
  have hword : Piece.char '@' :: (name.toList.map .char ++ ts) = atWord name ++ ts := rfl
  rw [hword] at hall hrest ⊢
  cases hdepth : depthAfter isItemEnd 0 ts with
  | some depth =>
    have hqs : Prelude depth ts := ⟨hts, hdepth⟩
    obtain ⟨hblocks, hrules⟩ := Reader.finish_of_prelude hidle hname hqs hrest
    have hspells : Spells (SelectsIn all) (DeclaresIn all) .sheet (atWord name ++ (ts ++ [])) _ :=
      .statement hname hqs (String.toList_ofList).symm (.inr ⟨rfl, rfl⟩) .nil
    rw [List.append_nil] at hspells
    exact .sheet hblocks hspells (by rw [hrules]; simp [Node.toItem])
  | none =>
    obtain ⟨qs, c, rest, rfl, hc, hbal⟩ := exists_stop hdepth
    have hqs : Prelude 0 qs := by
      refine ⟨fun d hd => hts d ?_, hbal⟩
      obtain ⟨qs', rfl⟩ := List.head?_eq_some_iff.1 hd
      rfl
    rw [← List.append_assoc (atWord name)] at hall hrest ⊢
    exact completes_prelude ih hname hqs hc (by simp at hlength; omega) hall hdone hidle hrest

/-- A piece that starts no rule and no declaration is passed over, is a comment, closes the
innermost block or starts a rule with an at-sign. -/
theorem completes_between {n : Nat} (ih : CompletesBelow (SelectsIn all) (DeclaresIn all) s all n)
    {p : Piece} {ps : List Piece} (hlength : ps.length < n) (hs : ¬ p.opensItem = true)
    (hall : all = done ++ p :: ps) (hdone : done.foldlM Reader.step {} = .ok r)
    (hidle : r.phase = .idle)
    (hrest : ((p :: ps).foldlM Reader.step r).bind Reader.finish = .ok s) :
    Completes (SelectsIn all) (DeclaresIn all) s done r (p :: ps) := by
  obtain ⟨r₁, hread, -⟩ := exists_read (List.singleton_append ▸ hrest)
  have hdone₁ := read_behind hdone hread
  have hall₁ : all = (done ++ [p]) ++ ps := by rw [hall, List.append_cons]
  have hnil : ([] : List Piece).foldlM Reader.step r = .ok r := rfl
  have hstep : r.step p = .ok r₁ := (Reader.foldlM_concat hnil p).symm.trans hread
  obtain ⟨r₂, hpiece, rfl⟩ := Reader.step_eq_ok hstep
  cases p with
  | char c =>
    by_cases hskip : (isPlainBlank c || c == ';') = true
    · have hr₂ : r.readPiece (.char c) = .ok r := by
        simp only [Reader.readPiece, Reader.readChar, hidle, hskip, if_true]
      obtain rfl := Except.ok.inj (hr₂.symm.trans hpiece)
      exact (ih _ _ _ hlength hall₁ hdone₁ hidle).skip fun _ _ _ => .skip hskip
    · by_cases hclose : c = '}'
      · subst hclose
        have hr₂ : r.readPiece (.char '}') = r.close := by
          simp [Reader.readPiece, Reader.readChar, hidle, isPlainBlank]
        obtain ⟨b, bs, hblocks, rfl⟩ := Reader.close_eq_ok (hr₂.symm.trans hpiece)
        exact .block hblocks (List.nil_append _).symm .nil
          (hdone₁.trans (congrArg Except.ok (Reader.closeWith_congr hidle.symm rfl)))
      · obtain rfl : c = '@' := by simpa [Piece.opensItem, hskip, hclose] using hs
        exact completes_atRule ih hlength hall hdone hidle hrest
  | comment inside =>
    have hr₂ : r.readPiece (.comment inside) = .ok (r.addComment inside) := by
      simp only [Reader.readPiece, Reader.readComment, hidle]
    obtain rfl := Except.ok.inj (hr₂.symm.trans hpiece)
    have hreceives := Reader.receives_addComment hidle inside
      (r.offset + byteLength (Piece.comment inside).source)
    exact (ih _ _ _ hlength hall₁ hdone₁ hreceives.idle).receive hreceives hidle
      fun _ _ => .comment
  | escape c => exact absurd rfl hs
  | string quote inside => exact absurd rfl hs
  | openString quote inside => cases hpiece
  | openComment inside => cases hpiece

/-- A reader between items is completed by the rest of an accepted text. -/
theorem completes {n : Nat} (haccepted : (all.foldlM Reader.step {}).bind Reader.finish = .ok s) :
    CompletesBelow (SelectsIn all) (DeclaresIn all) s all n := by
  induction n with
  | zero => exact fun _ _ _ hlength => absurd hlength (Nat.not_lt_zero _)
  | succ n ih =>
    intro done todo r hlength hall hdone hidle
    have hrest : (todo.foldlM Reader.step r).bind Reader.finish = .ok s := by
      rw [hall] at haccepted
      obtain ⟨r', hdone', hrest⟩ := exists_read haccepted
      obtain rfl := Except.ok.inj (hdone.symm.trans hdone')
      exact hrest
    cases todo with
    | nil =>
      have hsettle : r.settle = .ok s := by
        rw [← hrest]
        show r.settle = r.finish
        rw [Reader.finish, hidle]
      obtain ⟨hblocks, hrules⟩ := Reader.settle_eq_ok hsettle
      exact .sheet hblocks .nil (by rw [hrules, List.append_nil])
    | cons p ps =>
      have hshort : ps.length < n := Nat.lt_of_succ_lt_succ hlength
      by_cases hs : p.opensItem = true
      · exact completes_item ih hshort hs hall hdone hidle hrest
      · exact completes_between ih hshort hs hall hdone hidle hrest

/-- **Every accepted text spells out its stylesheet.** -/
theorem spells_of_parse {css : String} (h : parse css = .ok s) :
    Spells (SelectsIn (pieces css.toList)) (DeclaresIn (pieces css.toList)) .sheet
      (pieces css.toList) (s.rules.map Node.toItem) := by
  cases completes h [] (pieces css.toList) {} (Nat.lt_succ_self _) rfl rfl rfl with
  | sheet _ hspells hrules =>
    rw [hrules]
    exact hspells
  | block hblocks => cases hblocks

end Completes

end ComponentCompiler.Style
