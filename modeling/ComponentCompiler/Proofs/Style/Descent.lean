import ComponentCompiler.Proofs.Style.ByteParse

/-!
# Stylesheets by descent

`parse` keeps the open blocks on a stack, and `parseBytes` descends into them.  A whole block in the
text does to the stack what the descent into it does: in the end there is one node more.  So the two
are compared entry by entry, over what is left of the text: where the descent stands at an index,
the reader has read the text in front of it and makes the same of the text behind it.

## Main definitions

* `Ends` — where an item without a block ends.
* `EntryReads`, `BodyReads` — what a reader makes of a text, by what the descent finds in it.

## Main results

* `atRuleAt_reads`, `itemAt_reads`, `bodyFrom_reads` — one entry, and the whole of a block.
* `parseBytes_eq` — the stylesheets are the same, and no check fails.
* `faults_reported_at_cause` — **what is wrong with a text stands where it is reported**.
-/

namespace ComponentCompiler.Style

open Text

namespace Reader

/-- The reader with a further item in the innermost block. -/
def addItem (r : Reader) (x : Item) : Reader :=
  match r.blocks with
  | [] => r
  | b :: bs => { r with blocks := { b with items := x :: b.items } :: bs }

variable {r r' : Reader} {c : Char} {cs rest : List Char}

/-- An item starts at a character that is nothing else. -/
theorem outcome_item (hr : r.phase = .idle) (hc : (Piece.char c).opensItem = true)
    (hmark : (c == '/' && cs.head? == some '*') = false) :
    r.outcome (c :: cs) = { r with phase := .item r.offset 0 [] }.outcome (c :: cs) := by
  obtain ⟨p, rest, hheads, hpieces⟩ := exists_heads (List.cons_ne_nil c cs)
  by_cases hopens : p.opensItem = true
  · rw [outcome, outcome, read_idle hr (by rw [hpieces]; rfl) hopens]
  · -- a comment does not start here, and a string that is never closed is always at fault
    cases hheads with
    | char => exact absurd hc hopens
    | escape => exact absurd rfl hopens
    | string => exact absurd rfl hopens
    | comment => cases hmark
    | openString => rw [outcome_of_error hpieces rfl, outcome_of_error hpieces rfl]
    | openComment => cases hmark

/-- The characters of a name are gathered. -/
theorem outcome_name {name : List Char} (h : ∀ c ∈ name, isNameChar c = true) (r : Reader)
    (text rest : List Char) :
    { r with phase := .atName text }.outcome (name ++ rest)
      = { r with phase := .atName (name.reverse ++ text),
                 offset := r.offset + byteLength name }.outcome rest := by
  induction name generalizing r text with
  | nil => rfl
  | cons c name ih =>
    rw [List.forall_mem_cons] at h
    have hq : isQuote c = false := isQuote_eq_false_of_class h.1 (by decide) (by decide)
    have hread : { r with phase := .atName text }.readChar c
        = .ok { r with phase := .atName (c :: text) } := by
      simp [readChar, h.1]
    rw [List.cons_append, outcome_char hq (ne_of_class h.1 (by decide))
      (ne_of_class h.1 (by decide)) hread]
    have hrest := ih h.2 { r with offset := r.offset + byteLength [c] } (c :: text)
    simpa [Nat.add_assoc] using hrest

/-- Behind a name the prelude starts. -/
theorem outcome_atName (hcs : ∀ c, cs.head? = some c → isNameChar c = false) (r : Reader)
    (text : List Char) :
    { r with phase := .atName text }.outcome cs
      = { r with phase := .prelude (String.ofList text.reverse) 0 [] }.outcome cs := by
  refine outcome_congr rfl (fun p hp => readPiece_atName ?_ r text) (fun _ => rfl)
  rintro c rfl
  exact hcs c (head?_of_head?_pieces hp)

/-- Blanks between items are passed over. -/
theorem outcome_blanks (hr : r.phase = .idle) (cs : List Char) :
    r.outcome cs
      = { r with offset := r.offset + byteLength (cs.takeWhile isPlainBlank) }.outcome
          (cs.dropWhile isPlainBlank) := by
  induction cs generalizing r with
  | nil => rfl
  | cons c cs ih =>
    by_cases hc : isPlainBlank c = true
    · have hread : r.readChar c = .ok r := by simp [readChar, hr, hc]
      have hq : isQuote c = false := isQuote_eq_false_of_class hc (by decide) (by decide)
      rw [outcome_char hq (ne_of_class hc (by decide)) (ne_of_class hc (by decide)) hread,
        List.takeWhile_cons_of_pos hc, List.dropWhile_cons_of_pos hc]
      have hrest := ih (r := { r with offset := r.offset + byteLength [c] }) hr
      simpa [Nat.add_assoc] using hrest
    · rw [List.takeWhile_cons_of_neg hc, List.dropWhile_cons_of_neg hc]
      rfl

end Reader

namespace ByteParse

/-- What a reader between items makes of a text, by the entry that is found at its start: `whole` is
the outcome, `r` the reader, and `add` puts a part into it. -/
inductive EntryReads {α : Type} (s : Stored) (add : Reader → α → Reader) (r : Reader)
    (whole : Except CssError Stylesheet) : Except (Halt CssError) (Entry α) → Prop
  /-- The part is put into the reader. -/
  | part {x : α} {k : Nat} {rest : List Char} (behind : s.At k rest) (moves : r.offset < k)
      (reads : whole = { add r x with offset := k }.outcome rest) :
      EntryReads s add r whole (.ok (.part x k))
  /-- A block is open in the reader. -/
  | block {head : Head} {brace : Nat} {rest : List Char} (behind : s.At (brace + 1) rest)
      (moves : r.offset ≤ brace)
      (reads : whole = { r with offset := brace + 1,
                                blocks := ⟨head, brace, []⟩ :: r.blocks }.outcome rest) :
      EntryReads s add r whole (.ok (.block head brace))
  /-- The reader reports a fault. -/
  | fault {e : CssError} (reads : whole = .error e) :
      EntryReads s add r whole (.error (.fault e))

section Entries

variable {s : Stored} {i : Nat} {c : Char} {cs : List Char} {blocks bs : List Block} {b : Block}
  {nodes : List Node}

theorem itemMove_eq_none {depth : Nat} (h : itemMove depth c = none) :
    depth = 0 ∧ (c = '{' ∨ c = ';' ∨ c = '}') := by
  unfold itemMove at h
  split at h
  · next hc => simpa [isItemEnd, or_assoc] using hc
  · cases h

theorem rawMove_eq_none {depth : Nat} (h : rawMove depth c = none) : depth = 0 ∧ c = '}' := by
  unfold rawMove at h
  split at h
  · cases h
  split at h
  · next hc =>
    split at h
    · next hdepth => exact ⟨hdepth, eq_of_beq hc⟩
    · cases h
  · cases h

/-- Where an item without a block ends that is scanned up to the index `o`, in front of `rest` and
with `depth` brackets open: a semicolon is part of it.  What is `left` of the text is read from the
index `stop` on. -/
inductive Ends : (depth o : Nat) → (rest : List Char) → (stop : Nat) → (left : List Char) → Prop
  | semicolon (o : Nat) (left : List Char) : Ends 0 o (';' :: left) (o + 1) left
  | brace (o : Nat) (left : List Char) : Ends 0 o ('}' :: left) o ('}' :: left)
  | fin (depth o : Nat) : Ends depth o [] o []

/-- What a reader in the middle of an item makes of a text, by what a scan for the end of the item
gives. -/
inductive ItemReads (phase : Nat → List Char → Phase) (r : Reader) (cs : List Char)
    (whole : Except CssError Stylesheet) : Except (Halt CssError) Nat → Prop
  /-- A block opens behind the item. -/
  | brace {front rest : List Char} (split : cs = front ++ '{' :: rest)
      (reads : whole = { r with phase := phase 0 front.reverse,
                                offset := r.offset + byteLength front }.outcome ('{' :: rest)) :
      ItemReads phase r cs whole (.ok (r.offset + byteLength front))
  /-- The item has no block. -/
  | ends {front rest left : List Char} {depth stop : Nat} (split : cs = front ++ rest)
      (ends : Ends depth (r.offset + byteLength front) rest stop left)
      (reads : whole = { r with phase := phase depth front.reverse,
                                offset := r.offset + byteLength front }.outcome rest) :
      ItemReads phase r cs whole (.ok (r.offset + byteLength front))
  /-- A string or a comment is never closed. -/
  | fault {e : CssError} (reads : whole = .error e) :
      ItemReads phase r cs whole (.error (.fault e))

theorem ScanReads.item {phase : Nat → List Char → Phase} {r : Reader}
    {whole : Except CssError Stylesheet} {x : Except (Halt CssError) Nat}
    (h : ScanReads itemMove phase r [] cs whole x) : ItemReads phase r cs whole x := by
  cases h with
  | @stop front rest c depth split stops reads =>
    rw [List.append_nil] at reads
    obtain ⟨rfl, rfl | rfl | rfl⟩ := itemMove_eq_none stops
    · exact .brace split reads
    · exact .ends split (.semicolon _ _) reads
    · exact .ends split (.brace _ _) reads
  | fin reads =>
    rw [List.append_nil] at reads
    exact .ends (List.append_nil cs).symm (.fin _ _) reads
  | fault reads => exact .fault reads

theorem stopsAt_eq {d : Char} (h : s.At i cs) (hd : d.toNat < 0x80) :
    stopsAt s d i = .ok (cs.head? == some d) := by
  cases cs with
  | nil =>
    rw [stopsAt, if_neg h.not_lt]
    rfl
  | cons c cs =>
    rw [stopsAt, if_pos h.lt, h.byteAt]
    exact congrArg Except.ok (leadChar_beq hd)

theorem Ends.head? {depth o stop : Nat} {rest left : List Char} (h : Ends depth o rest stop left) :
    (rest.head? == some '{') = false := by
  cases h <;> rfl

theorem Ends.stop_eq {depth o stop : Nat} {rest left : List Char}
    (h : Ends depth o rest stop left) : (if rest.head? == some ';' then o + 1 else o) = stop := by
  cases h <;> rfl

theorem Ends.le {depth o stop : Nat} {rest left : List Char} (h : Ends depth o rest stop left) :
    o ≤ stop := by
  cases h <;> omega

theorem Ends.at {depth o stop : Nat} {rest left : List Char} (h : Ends depth o rest stop left)
    (hat : s.At o rest) : s.At stop left := by
  cases h with
  | semicolon => exact hat.ascii (by decide)
  | brace => exact hat
  | fin => exact hat

/-! #### Rules and declarations -/

/-- An item is not empty. -/
theorem Ends.lt_of_opensItem {front rest left : List Char} {depth stop : Nat}
    (h : Ends depth (i + byteLength front) rest stop left) (hsplit : c :: cs = front ++ rest)
    (hc : (Piece.char c).opensItem = true) : i < stop := by
  have hle := h.le
  cases front with
  | nil =>
    rw [List.nil_append] at hsplit
    subst hsplit
    cases h <;> cases hc
  | cons d ds =>
    have hpos := d.utf8Size_pos
    rw [byteLength_cons] at hle
    omega

/-- The scan of an item that starts between two items. -/
theorem itemEnd_reads (h : s.At i (c :: cs)) (hc : (Piece.char c).opensItem = true)
    (hmark : (c == '/' && cs.head? == some '*') = false) (blocks : List Block)
    (nodes : List Node) :
    ItemReads (.item i) ⟨i, .idle, blocks, nodes⟩ (c :: cs)
      (Reader.outcome ⟨i, .idle, blocks, nodes⟩ (c :: cs)) (itemEnd s i) := by
  rw [Reader.outcome_item rfl hc hmark]
  exact (scanFrom_reads tracks_bracketMove (gathers_item i).collects ⟨i, .idle, blocks, nodes⟩
    0 [] h).item

theorem ruleAt_of_brace {α : Type} {front rest : List Char} (h : s.At i (front ++ '{' :: rest))
    (hend : itemEnd s i = .ok (i + byteLength front)) :
    (ruleAt s i : Except (Halt CssError) (Entry α))
      = .ok (.block (.rule (splitSelectors front)) (i + byteLength front)) := by
  rw [ruleAt, hend]
  simp only [bind, Except.bind, stopsAt_eq h.behind (by decide : '{'.toNat < 0x80), h.slice,
    selectorsOf_eq]
  rfl

/-- At the brace behind an item a block is opened. -/
theorem outcome_brace (front rest : List Char) (o : Nat) :
    Reader.outcome ⟨o, .item i 0 front.reverse, blocks, nodes⟩ ('{' :: rest)
      = Reader.outcome ⟨o + 1, .idle, ⟨.rule (splitSelectors front), o, []⟩ :: blocks, nodes⟩
          rest := by
  have hread : Reader.readPiece ⟨o, .item i 0 front.reverse, blocks, nodes⟩ (.char '{')
      = .ok ⟨o, .idle, ⟨.rule (splitSelectors front), o, []⟩ :: blocks, nodes⟩ := by
    show Except.ok (Reader.openBlock _ (.rule (splitSelectors front.reverse.reverse))) = _
    rw [List.reverse_reverse]
    rfl
  exact Reader.outcome_of_ok rfl hread

/-- An item without a block has no place outside every block. -/
theorem Ends.outcome_missingBlock {depth o stop : Nat} {rest left : List Char}
    (h : Ends depth o rest stop left) (text : List Char) :
    Reader.outcome ⟨o, .item i depth text, [], nodes⟩ rest = .error (.fault .missingBlock i) := by
  cases h with
  | semicolon => exact Reader.outcome_of_error rfl rfl
  | brace => exact Reader.outcome_of_error rfl rfl
  | fin => rfl

/-- Outside every block, what is read at an item is a rule. -/
theorem ruleAt_reads (h : s.At i (c :: cs)) (hc : (Piece.char c).opensItem = true)
    (hmark : (c == '/' && cs.head? == some '*') = false) :
    EntryReads s Reader.addNode ⟨i, .idle, [], nodes⟩
      (Reader.outcome ⟨i, .idle, [], nodes⟩ (c :: cs)) (ruleAt s i) := by
  have hscan := itemEnd_reads h hc hmark [] nodes
  generalize hend : itemEnd s i = x at hscan
  cases hscan with
  | @brace front rest hsplit hreads =>
    rw [hsplit] at h
    rw [ruleAt_of_brace h hend, hreads]
    exact .block (h.behind.ascii (by decide)) (Nat.le_add_right _ _) (outcome_brace front rest _)
  | @ends front rest left depth stop hsplit hends hreads =>
    -- the scan over bytes stops at no brace, and the reader has no block to put the item into
    rw [hsplit] at h
    have hrule : (ruleAt s i : Except (Halt CssError) (Entry Node))
        = .error (.fault (.fault .missingBlock i)) := by
      rw [ruleAt, hend]
      simp only [bind, Except.bind, stopsAt_eq h.behind (by decide : '{'.toNat < 0x80), hends.head?]
      rfl
    rw [hrule, hreads]
    exact .fault (hends.outcome_missingBlock _)
  | @fault e hreads =>
    have hrule : (ruleAt s i : Except (Halt CssError) (Entry Node)) = .error (.fault e) := by
      rw [ruleAt, hend]
      rfl
    rw [hrule]
    exact .fault hreads

/-- In a block, an item without a block is a declaration. -/
theorem Ends.outcome_declaration {depth o stop : Nat} {rest left : List Char}
    (h : Ends depth o rest stop left) (front : List Char) :
    Reader.outcome ⟨o, .item i depth front.reverse, b :: bs, nodes⟩ rest
      = (declaration? front).elim (.error (.fault .missingColon i)) fun d =>
          Reader.outcome ⟨stop, .idle, { b with items := d :: b.items } :: bs, nodes⟩ left := by
  have hend : ∀ phase : Phase, Reader.endItem ⟨o, phase, b :: bs, nodes⟩ i front.reverse
      = (declaration? front).elim (.error (.fault .missingColon i)) fun d =>
          .ok ⟨o, .idle, { b with items := d :: b.items } :: bs, nodes⟩ := by
    intro phase
    simp only [Reader.endItem, List.reverse_reverse]
    cases declaration? front <;> rfl
  cases hd : declaration? front with
  | none =>
    rw [hd] at hend
    cases h with
    | semicolon => exact Reader.outcome_of_error rfl (hend _)
    | brace =>
      refine Reader.outcome_of_error rfl ?_
      show (Reader.endItem _ i front.reverse).bind Reader.close = _
      rw [hend]
      rfl
    | fin =>
      show (Reader.endItem _ i front.reverse).bind Reader.settle = _
      rw [hend]
      rfl
  | some d =>
    rw [hd] at hend
    cases h with
    | semicolon =>
      have hread : Reader.readPiece ⟨o, .item i 0 front.reverse, b :: bs, nodes⟩ (.char ';') = _ :=
        hend _
      exact Reader.outcome_of_ok rfl hread
    | brace =>
      -- the brace ends the declaration and the block at once
      refine Reader.outcome_congr rfl (fun p hp => ?_) (fun h => by cases h)
      obtain rfl := Option.some.inj hp
      show (Reader.endItem _ i front.reverse).bind Reader.close = _
      rw [hend]
      rfl
    | fin =>
      show (Reader.endItem _ i front.reverse).bind Reader.settle = _
      rw [hend]
      rfl

/-- In a block, what is read at an item is a rule or a declaration. -/
theorem itemAt_reads (h : s.At i (c :: cs)) (hc : (Piece.char c).opensItem = true)
    (hmark : (c == '/' && cs.head? == some '*') = false) :
    EntryReads s Reader.addItem ⟨i, .idle, b :: bs, nodes⟩
      (Reader.outcome ⟨i, .idle, b :: bs, nodes⟩ (c :: cs)) (itemAt s i) := by
  have hscan := itemEnd_reads h hc hmark (b :: bs) nodes
  generalize hend : itemEnd s i = x at hscan
  cases hscan with
  | @brace front rest hsplit hreads =>
    rw [hsplit] at h
    have hitem : itemAt s i
        = .ok (.block (.rule (splitSelectors front)) (i + byteLength front)) := by
      -- a rule in a block is scanned a second time, with the same end
      rw [itemAt, hend]
      simp only [bind, Except.bind, stopsAt_eq h.behind (by decide : '{'.toNat < 0x80),
        ruleAt_of_brace h hend]
      rfl
    rw [hitem, hreads]
    exact .block (h.behind.ascii (by decide)) (Nat.le_add_right _ _) (outcome_brace front rest _)
  | @ends front rest left depth stop hsplit hends hreads =>
    rw [hsplit] at h
    have hitem : itemAt s i = (declaration? front).elim
        (.error (.fault (.fault .missingColon i))) fun d => .ok (.part d stop) := by
      rw [itemAt, hend]
      simp only [bind, Except.bind, stopsAt_eq h.behind (by decide : '{'.toNat < 0x80), hends.head?,
        h.slice, declarationOf_eq, stopsAt_eq h.behind (by decide : ';'.toNat < 0x80)]
      cases declaration? front with
      | none => rfl
      | some d =>
        rw [← hends.stop_eq]
        rfl
    rw [hitem, hreads, hends.outcome_declaration front]
    cases declaration? front with
    | none => exact .fault rfl
    | some d => exact .part (hends.at h.behind) (hends.lt_of_opensItem hsplit hc) rfl
  | @fault e hreads =>
    have hitem : itemAt s i = .error (.fault e) := by
      rw [itemAt, hend]
      rfl
    rw [hitem]
    exact .fault hreads

/-! #### Rules with an at-sign -/

theorem uniform_isNameChar : Stored.Uniform isNameChar := by
  left
  intro c hc
  simp [isNameChar, hc]

/-- A name is read up to what stands behind it. -/
theorem outcome_atSign (cs : List Char) :
    Reader.outcome ⟨i, .idle, blocks, nodes⟩ ('@' :: cs)
      = Reader.outcome ⟨i + 1 + byteLength (cs.takeWhile isNameChar),
          .prelude (String.ofList (cs.takeWhile isNameChar)) 0 [], blocks, nodes⟩
          (cs.dropWhile isNameChar) := by
  have hread : Reader.readPiece ⟨i, .idle, blocks, nodes⟩ (.char '@')
      = .ok ⟨i, .atName [], blocks, nodes⟩ := rfl
  have hat : Reader.outcome ⟨i, .idle, blocks, nodes⟩ ('@' :: cs)
      = Reader.outcome ⟨i + 1, .atName [], blocks, nodes⟩ cs := Reader.outcome_of_ok rfl hread
  have hchars : ∀ c ∈ cs.takeWhile isNameChar, isNameChar c = true :=
    List.all_eq_true.1 List.all_takeWhile
  have hbehind : ∀ c, (cs.dropWhile isNameChar).head? = some c → isNameChar c = false := by
    intro c hc
    have hnot := List.head?_dropWhile_not isNameChar cs
    rw [hc] at hnot
    exact hnot
  have hname := Reader.outcome_name hchars ⟨i + 1, .idle, blocks, nodes⟩ []
    (cs.dropWhile isNameChar)
  rw [List.takeWhile_append_dropWhile, List.append_nil] at hname
  have hprelude := Reader.outcome_atName hbehind
    ⟨i + 1 + byteLength (cs.takeWhile isNameChar), .idle, blocks, nodes⟩
    (cs.takeWhile isNameChar).reverse
  rw [List.reverse_reverse] at hprelude
  exact hat.trans (hname.trans hprelude)

/-- A rule with an at-sign and without a block is read up to its end. -/
theorem Ends.outcome_atRule {depth o stop : Nat} {rest left : List Char}
    (h : Ends depth o rest stop left) (name : String) (front : List Char) :
    Reader.outcome ⟨o, .prelude name depth front.reverse, blocks, nodes⟩ rest
      = { Reader.addNode ⟨o, .idle, blocks, nodes⟩
            (.atRule name (String.ofList (trim front)) none) with
          offset := stop }.outcome left := by
  have hend : ∀ phase : Phase, Reader.endAtRule ⟨o, phase, blocks, nodes⟩ name front.reverse
      = Reader.addNode ⟨o, .idle, blocks, nodes⟩
          (.atRule name (String.ofList (trim front)) none) := by
    intro phase
    rw [Reader.endAtRule, List.reverse_reverse]
  cases h with
  | semicolon =>
    have hread : Reader.readPiece ⟨o, .prelude name 0 front.reverse, blocks, nodes⟩ (.char ';')
        = _ := congrArg Except.ok (hend _)
    exact Reader.outcome_of_ok rfl hread
  | brace =>
    refine Reader.outcome_congr ?_ (fun p hp => ?_) (fun h => by cases h)
    · rfl
    · obtain rfl := Option.some.inj hp
      show (Reader.endAtRule _ name front.reverse).close = _
      rw [hend]
      cases blocks <;> rfl
  | fin =>
    show (Reader.endAtRule _ name front.reverse).settle = _
    rw [hend]
    cases blocks <;> rfl

/-- A block that is kept as it is written is read up to its closing brace. -/
theorem blockEnd_reads {rest : List Char} {o : Nat} (h : s.At (o + 1) rest)
    (name condition : String) :
    (∃ inside left, rest = inside ++ '}' :: left ∧
      blockEnd s o = .ok (o + 1 + byteLength inside) ∧
      Reader.outcome ⟨o + 1, .raw name condition o 0 [], blocks, nodes⟩ rest
        = { Reader.addNode ⟨o, .idle, blocks, nodes⟩
              (.atRule name condition (some (String.ofList (trim inside)))) with
            offset := o + 1 + byteLength inside + 1 }.outcome left) ∨
    ∃ e, blockEnd s o = .error (.fault e) ∧
      Reader.outcome ⟨o + 1, .raw name condition o 0 [], blocks, nodes⟩ rest = .error e := by
  -- the scan counts the brace of the block itself, and the reader only those inside
  have hscan : ScanReads rawMove (.raw name condition o) ⟨o + 1, .idle, blocks, nodes⟩ [] rest _
      (scanFrom s braceMove 1 (o + 1)) :=
    scanFrom_reads tracks_braceMove (collects_raw name condition o) ⟨o + 1, .idle, blocks, nodes⟩
      0 [] h
  generalize hend : scanFrom s braceMove 1 (o + 1) = x at hscan
  cases hscan with
  | @stop inside left c depth hsplit hstops hreads =>
    obtain ⟨rfl, rfl⟩ := rawMove_eq_none hstops
    rw [hsplit] at h
    refine .inl ⟨inside, left, hsplit, ?_, ?_⟩
    · rw [blockEnd, hend]
      exact if_pos h.behind.lt
    · have hread : Reader.readPiece
          ⟨o + 1 + byteLength inside, .raw name condition o 0 (inside.reverse ++ []), blocks, nodes⟩
          (.char '}')
          = .ok (Reader.addNode ⟨o + 1 + byteLength inside, .idle, blocks, nodes⟩
              (.atRule name condition (some (String.ofList (trim inside))))) := by
        have htext : (inside.reverse ++ []).reverse = inside := by simp
        show Except.ok (Reader.addNode _ (.atRule name condition
          (some (String.ofList (trim (inside.reverse ++ []).reverse))))) = _
        rw [htext]
      rw [hreads, Reader.outcome_of_ok rfl hread]
      cases blocks <;> rfl
  | fin hreads =>
    refine .inr ⟨.fault .unclosedBlock o, ?_, hreads⟩
    rw [blockEnd, hend]
    exact if_neg (by rw [h.add_byteLength]; exact Nat.lt_irrefl _)
  | @fault e hreads =>
    refine .inr ⟨e, ?_, hreads⟩
    rw [blockEnd, hend]
    rfl

theorem Ends.atRuleFrom_eq {depth o stop : Nat} {rest left : List Char}
    (h : Ends depth o rest stop left) (hat : s.At o rest) (name condition : String) :
    atRuleFrom s name condition o = .ok (.part (.atRule name condition none) stop) := by
  unfold atRuleFrom
  cases h with
  | semicolon =>
    rw [if_pos hat.lt, hat.byteAt_ascii (by decide)]
    rfl
  | brace =>
    rw [if_pos hat.lt, hat.byteAt_ascii (by decide)]
    rfl
  | fin =>
    rw [if_neg hat.not_lt]
    rfl

/-- At a brace, a group has items, and any other block is kept as it is written. -/
theorem atRuleFrom_brace {front rest : List Char} {o : Nat} (h : s.At o ('{' :: rest))
    (hlt : i < o) (name : String) :
    EntryReads s Reader.addNode ⟨i, .idle, blocks, nodes⟩
      (Reader.outcome ⟨o, .prelude name 0 front.reverse, blocks, nodes⟩ ('{' :: rest))
      (atRuleFrom s name (String.ofList (trim front)) o) := by
  have hrest := h.ascii (by decide)
  unfold atRuleFrom
  rw [if_pos h.lt, h.byteAt_ascii (by decide)]
  simp only [bind, Except.bind]
  rw [if_pos (by rfl)]
  cases hgroup : isGroupName name with
  | true =>
    have hread : Reader.readPiece ⟨o, .prelude name 0 front.reverse, blocks, nodes⟩ (.char '{')
        = .ok ⟨o, .idle, ⟨.group name (String.ofList (trim front)), o, []⟩ :: blocks, nodes⟩ := by
      simp [Reader.readPiece, Reader.readChar, Reader.preludeChar, hgroup, Reader.openBlock]
    rw [if_pos rfl]
    exact .block hrest (Nat.le_of_lt hlt) (Reader.outcome_of_ok rfl hread)
  | false =>
    have hread : Reader.readPiece ⟨o, .prelude name 0 front.reverse, blocks, nodes⟩ (.char '{')
        = .ok ⟨o, .raw name (String.ofList (trim front)) o 0 [], blocks, nodes⟩ := by
      simp [Reader.readPiece, Reader.readChar, Reader.preludeChar, hgroup]
    have hopen : Reader.outcome ⟨o, .prelude name 0 front.reverse, blocks, nodes⟩ ('{' :: rest)
        = Reader.outcome ⟨o + 1, .raw name (String.ofList (trim front)) o 0 [], blocks, nodes⟩
            rest := Reader.outcome_of_ok rfl hread
    rw [if_neg Bool.false_ne_true, hopen]
    -- the block is over when its rule is read, so there is nothing to descend into
    rcases blockEnd_reads hrest name (String.ofList (trim front)) with
      ⟨inside, left, hsplit, hend, hreads⟩ | ⟨e, hend, hreads⟩
    · rw [hreads]
      rw [hsplit] at hrest
      simp only [hend, hrest.slice]
      refine .part (hrest.behind.ascii (by decide)) (show i < _ by omega) ?_
      cases blocks <;> rfl
    · rw [hend]
      exact .fault hreads

/-- What is read at an at-sign is a rule with its name. -/
theorem atRuleAt_reads (h : s.At i ('@' :: cs)) :
    EntryReads s Reader.addNode ⟨i, .idle, blocks, nodes⟩
      (Reader.outcome ⟨i, .idle, blocks, nodes⟩ ('@' :: cs)) (atRuleAt s i) := by
  have hcs := h.ascii (by decide)
  have hbehind := hcs.dropWhile isNameChar
  rw [outcome_atSign]
  -- from here on only the name and what is behind it matter
  generalize hj : i + 1 + byteLength (cs.takeWhile isNameChar) = j at hbehind ⊢
  generalize hname : String.ofList (cs.takeWhile isNameChar) = name
  generalize cs.dropWhile isNameChar = ds at hbehind ⊢
  have hlt : i < j := by omega
  have hrule : ∀ {front rest : List Char}, ds = front ++ rest →
      itemEnd s j = .ok (j + byteLength front) →
      atRuleAt s i = atRuleFrom s name (String.ofList (trim front)) (j + byteLength front) := by
    intro front rest hsplit hend
    rw [hsplit] at hbehind
    rw [atRuleAt, hcs.skip uniform_isNameChar]
    simp only [bind, Except.bind, hcs.slice_takeWhile]
    rw [hj, hname, hend]
    simp only [hbehind.slice]
  have hscan : ItemReads (.prelude name) ⟨j, .idle, blocks, nodes⟩ ds _ (itemEnd s j) :=
    (scanFrom_reads tracks_bracketMove (gathers_prelude name).collects ⟨j, .idle, blocks, nodes⟩
      0 [] hbehind).item
  generalize hend : itemEnd s j = x at hscan
  cases hscan with
  | @brace front rest hsplit hreads =>
    rw [hrule hsplit hend, hreads]
    rw [hsplit] at hbehind
    exact atRuleFrom_brace hbehind.behind (by omega) name
  | @ends front rest left depth stop hsplit hends hreads =>
    rw [hsplit] at hbehind
    have hle : j + byteLength front ≤ stop := hends.le
    rw [hrule hsplit hend, hreads, hends.atRuleFrom_eq hbehind.behind]
    refine .part (hends.at hbehind.behind) (show i < stop by omega) ?_
    rw [hends.outcome_atRule name front]
    cases blocks <;> rfl
  | @fault e hreads =>
    have hfault : atRuleAt s i = .error (.fault e) := by
      rw [atRuleAt, hcs.skip uniform_isNameChar]
      simp only [bind, Except.bind, hcs.slice_takeWhile]
      rw [hj, hend]
    rw [hfault]
    exact .fault hreads

/-! #### Everything between items -/

/-- A comment between items is read by itself. -/
theorem commentAt_reads (h : s.At i ('/' :: '*' :: cs)) (blocks : List Block) (nodes : List Node) :
    (∃ body rest k, s.At k rest ∧ i < k ∧ commentAt s i = .ok (String.ofList body, k) ∧
      Reader.outcome ⟨i, .idle, blocks, nodes⟩ ('/' :: '*' :: cs)
        = { Reader.addComment ⟨i, .idle, blocks, nodes⟩ body with offset := k }.outcome rest) ∨
    ∃ e, commentAt s i = .error (.fault e) ∧
      Reader.outcome ⟨i, .idle, blocks, nodes⟩ ('/' :: '*' :: cs) = .error e := by
  have hcs : s.At (i + 2) cs := (h.ascii (by decide)).ascii (by decide)
  have hpieces : pieces ('/' :: '*' :: cs) = _ := piecesFrom_comment [] cs
  have hend := commentEnd_eq h
  cases hcut : cut? ['*', '/'] cs with
  | none =>
    rw [hcut] at hpieces hend
    refine .inr ⟨.fault .unterminatedComment i, ?_, Reader.outcome_of_error hpieces rfl⟩
    rw [commentAt, hend]
    rfl
  | some cut =>
    obtain ⟨body, rest⟩ := cut
    rw [hcut] at hpieces hend
    obtain rfl := cut?_eq_some hcut
    have hrest : s.At (i + 2 + byteLength body + 2) rest :=
      (hcs.behind.ascii (by decide)).ascii (by decide)
    refine .inl ⟨body, rest, i + 2 + byteLength body + 2, hrest, by omega, ?_, ?_⟩
    · rw [commentAt, hend]
      simp only [bind, Except.bind, Option.elim_some, Nat.add_sub_cancel, hcs.slice]
      rw [if_neg (by omega)]
      rfl
    · rw [Reader.outcome_of_ok hpieces rfl, List.reverse_nil, List.nil_append, byteLength_comment,
        ← Nat.add_assoc, ← Nat.add_assoc]
      rfl

theorem EntryReads.map {α β : Type} {add : Reader → α → Reader} {add' : Reader → β → Reader}
    {r : Reader} {whole : Except CssError Stylesheet} {x : Except (Halt CssError) (Entry α)}
    {f : α → β} (h : EntryReads s add r whole x) (hf : ∀ y, add' r (f y) = add r y) :
    EntryReads s add' r whole (x.map (Entry.map f)) := by
  cases h with
  | part behind moves reads =>
    rw [← hf] at reads
    exact .part behind moves reads
  | block behind moves reads => exact .block behind moves reads
  | fault reads => exact .fault reads

/-- What is read between items, where no block ends. -/
theorem entryAt_reads {α : Type} {add : Reader → α → Reader} {comment : String → α}
    {nest : Node → α} {item : Except (Halt CssError) (Entry α)}
    (hcomment : ∀ text, add ⟨i, .idle, blocks, nodes⟩ (comment (String.ofList text))
      = Reader.addComment ⟨i, .idle, blocks, nodes⟩ text)
    (hnest : ∀ n, add ⟨i, .idle, blocks, nodes⟩ (nest n)
      = Reader.addNode ⟨i, .idle, blocks, nodes⟩ n)
    (h : s.At i (c :: cs)) (hblank : isPlainBlank c = false) (hsemicolon : c ≠ ';')
    (hbrace : c ≠ '}')
    (hitem : (Piece.char c).opensItem = true → (c == '/' && cs.head? == some '*') = false →
      EntryReads s add ⟨i, .idle, blocks, nodes⟩
        (Reader.outcome ⟨i, .idle, blocks, nodes⟩ (c :: cs)) item) :
    EntryReads s add ⟨i, .idle, blocks, nodes⟩
      (Reader.outcome ⟨i, .idle, blocks, nodes⟩ (c :: cs))
      (entryAt s comment nest item (leadChar c) i) := by
  unfold entryAt
  rw [isCommentAt_eq h, leadChar_beq (by decide)]
  rcases mark_cases c cs with ⟨ds, rfl, rfl⟩ | hmark
  · rw [if_pos (by rfl)]
    rcases commentAt_reads h blocks nodes with
      ⟨body, rest, k, hrest, hlt, hat, hreads⟩ | ⟨e, hat, hreads⟩
    · rw [← hcomment] at hreads
      rw [hat]
      exact .part hrest hlt hreads
    · rw [hat]
      exact .fault hreads
  · rw [hmark, if_neg Bool.false_ne_true]
    by_cases hat : c = '@'
    · subst hat
      exact (atRuleAt_reads h).map hnest
    · rw [if_neg (by simpa using hat)]
      exact hitem (by simp [Piece.opensItem, hblank, hsemicolon, hbrace, hat]) hmark

end Entries

/-! ### Blocks and stylesheets -/

/-- What a reader in a block makes of a text, by what is read of the block from the index `i` on:
`whole` is the outcome, `head` is in front of the block, and `bs` and `nodes` are around it. -/
inductive BodyReads (s : Stored) (i : Nat) (head : Head) (bs : List Block) (nodes : List Node)
    (whole : Except CssError Stylesheet) : Except (Halt CssError) (List Item × Nat) → Prop
  /-- The block is closed. -/
  | closed {items : List Item} {k : Nat} {rest : List Char} (behind : s.At k rest) (moves : i < k)
      (reads : whole = { Reader.addNode ⟨i, .idle, bs, nodes⟩ (head.toNode items) with
                         offset := k }.outcome rest) :
      BodyReads s i head bs nodes whole (.ok (items, k))
  /-- The reader reports a fault. -/
  | fault {e : CssError} (reads : whole = .error e) :
      BodyReads s i head bs nodes whole (.error (.fault e))

section Bodies

variable {s : Stored} {cs : List Char}

/-- A semicolon between items is passed over. -/
theorem outcome_semicolon (i : Nat) (blocks : List Block) (nodes : List Node) (cs : List Char) :
    Reader.outcome ⟨i, .idle, blocks, nodes⟩ (';' :: cs)
      = Reader.outcome ⟨i + 1, .idle, blocks, nodes⟩ cs := by
  have hread : Reader.readPiece ⟨i, .idle, blocks, nodes⟩ (.char ';')
      = .ok ⟨i, .idle, blocks, nodes⟩ := rfl
  exact Reader.outcome_of_ok rfl hread

/-- It does not matter where a block was entered. -/
theorem BodyReads.mono {i j : Nat} {head : Head} {bs : List Block} {nodes : List Node}
    {whole : Except CssError Stylesheet} {x : Except (Halt CssError) (List Item × Nat)}
    (h : BodyReads s j head bs nodes whole x) (hle : i ≤ j) :
    BodyReads s i head bs nodes whole x := by
  cases h with
  | closed behind moves reads =>
    refine .closed behind (by omega) ?_
    rw [reads]
    cases bs <;> rfl
  | fault reads => exact .fault reads

/-- **A block is read as its pieces are.** -/
theorem bodyFrom_reads {i : Nat} (h : s.At i cs) (head : Head) (opened : Nat) (items : List Item)
    (bs : List Block) (nodes : List Node) :
    BodyReads s i head bs nodes
      (Reader.outcome ⟨i, .idle, ⟨head, opened, items⟩ :: bs, nodes⟩ cs)
      (bodyFrom s opened items i) := by
  induction hn : s.size - i using Nat.strongRecOn generalizing i cs head opened items bs nodes with
  | ind n ih =>
  have hblank := List.head?_dropWhile_not isPlainBlank cs
  have hj := h.dropWhile isPlainBlank
  rw [bodyFrom, h.skip Stored.uniform_isPlainBlank, Reader.outcome_blanks rfl]
  simp only [bind, Except.bind]
  -- from here on only what is behind the blanks matters
  have hle : i ≤ i + byteLength (cs.takeWhile isPlainBlank) := Nat.le_add_right _ _
  generalize i + byteLength (cs.takeWhile isPlainBlank) = j at hj hle ⊢
  generalize cs.dropWhile isPlainBlank = ds at hj hblank ⊢
  cases ds with
  | nil =>
    rw [if_neg hj.not_lt]
    exact .fault rfl
  | cons c ds =>
    have hlt := hj.lt
    have hgo : ∀ {k : Nat} {rest : List Char} (items' : List Item), s.At k rest → j < k →
        BodyReads s i head bs nodes
          (Reader.outcome ⟨k, .idle, ⟨head, opened, items'⟩ :: bs, nodes⟩ rest)
          (bodyFrom s opened items' k) := by
      intro k rest items' hk hjk
      exact (ih (s.size - k) (by omega) hk head opened items' bs nodes rfl).mono (by omega)
    rw [if_pos hlt, hj.byteAt]
    simp only [leadChar_beq (by decide : '}'.toNat < 0x80),
      leadChar_beq (by decide : ';'.toNat < 0x80)]
    by_cases hbrace : c = '}'
    · subst hbrace
      have hread : Reader.readPiece ⟨j, .idle, ⟨head, opened, items⟩ :: bs, nodes⟩ (.char '}')
          = .ok (Reader.addNode ⟨j, .idle, bs, nodes⟩ (head.toNode items.reverse)) := rfl
      rw [if_pos (by rfl), Reader.outcome_of_ok rfl hread]
      refine .closed (hj.ascii (by decide)) (by omega) ?_
      cases bs <;> rfl
    by_cases hsemicolon : c = ';'
    · subst hsemicolon
      rw [if_neg (by decide), if_pos (by rfl), if_pos (by omega), outcome_semicolon]
      exact hgo items (hj.ascii (by decide)) (Nat.lt_succ_self j)
    · rw [if_neg (by simpa using hbrace), if_neg (by simpa using hsemicolon)]
      have hentry : EntryReads s Reader.addItem ⟨j, .idle, ⟨head, opened, items⟩ :: bs, nodes⟩ _
          (entryAt s .comment .nested (itemAt s j) (leadChar c) j) :=
        entryAt_reads (fun _ => rfl) (fun _ => rfl) hj hblank hsemicolon hbrace (itemAt_reads hj)
      generalize entryAt s .comment .nested (itemAt s j) (leadChar c) j = x at hentry
      cases hentry with
      | @part item k rest behind moves reads =>
        have hjk : j < k := moves
        simp only
        rw [if_pos (by omega), reads]
        exact hgo (item :: items) behind hjk
      | @block head' brace rest behind moves reads =>
        have hjb : j ≤ brace := moves
        simp only
        rw [if_pos (by omega), reads]
        -- the inner block first, and then what is behind it in the outer one
        have hinner := ih (s.size - (brace + 1)) (by omega) behind head' brace []
          (⟨head, opened, items⟩ :: bs) nodes rfl
        generalize bodyFrom s brace [] (brace + 1) = y at hinner
        cases hinner with
        | @closed inner k left behind moves reads =>
          simp only
          rw [if_pos (by omega), reads]
          exact hgo (.nested (head'.toNode inner) :: items) behind (by omega)
        | fault reads => exact .fault reads
      | fault reads => exact .fault reads

/-- The nodes outside every block are read as their pieces are. -/
theorem rulesFrom_eq {i : Nat} (h : s.At i cs) (nodes : List Node) :
    rulesFrom s nodes i
      = ((Reader.outcome ⟨i, .idle, [], nodes⟩ cs).map Stylesheet.rules).mapError .fault := by
  induction hn : s.size - i using Nat.strongRecOn generalizing i cs nodes with
  | ind n ih =>
  have hblank := List.head?_dropWhile_not isPlainBlank cs
  have hj := h.dropWhile isPlainBlank
  rw [rulesFrom, h.skip Stored.uniform_isPlainBlank, Reader.outcome_blanks rfl]
  simp only [bind, Except.bind]
  have hle : i ≤ i + byteLength (cs.takeWhile isPlainBlank) := Nat.le_add_right _ _
  generalize i + byteLength (cs.takeWhile isPlainBlank) = j at hj hle ⊢
  generalize cs.dropWhile isPlainBlank = ds at hj hblank ⊢
  cases ds with
  | nil =>
    rw [if_neg hj.not_lt]
    rfl
  | cons c ds =>
    -- a closing brace is a fault here, a semicolon is passed over, and all else is an entry
    have hlt := hj.lt
    rw [if_pos hlt, hj.byteAt]
    simp only [leadChar_beq (by decide : '}'.toNat < 0x80),
      leadChar_beq (by decide : ';'.toNat < 0x80)]
    by_cases hbrace : c = '}'
    · subst hbrace
      have hread : Reader.readPiece ⟨j, .idle, [], nodes⟩ (.char '}')
          = .error (.fault .unexpectedClose j) := rfl
      rw [if_pos (by rfl), Reader.outcome_of_error rfl hread]
      rfl
    by_cases hsemicolon : c = ';'
    · subst hsemicolon
      rw [if_neg (by decide), if_pos (by rfl), if_pos (by omega), outcome_semicolon]
      exact ih (s.size - (j + 1)) (by omega) (hj.ascii (by decide)) nodes rfl
    · rw [if_neg (by simpa using hbrace), if_neg (by simpa using hsemicolon)]
      have hentry : EntryReads s Reader.addNode ⟨j, .idle, [], nodes⟩ _
          (entryAt s .comment id (ruleAt s j) (leadChar c) j) :=
        entryAt_reads (fun _ => rfl) (fun _ => rfl) hj hblank hsemicolon hbrace (ruleAt_reads hj)
      generalize entryAt s .comment id (ruleAt s j) (leadChar c) j = x at hentry
      cases hentry with
      | @part node k rest behind moves reads =>
        have hjk : j < k := moves
        simp only
        rw [if_pos (by omega), reads]
        exact ih (s.size - k) (by omega) behind (node :: nodes) rfl
      | @block head brace rest behind moves reads =>
        have hjb : j ≤ brace := moves
        -- behind the block the reader is outside every block again
        have hbody := bodyFrom_reads behind head brace [] [] nodes
        rw [reads]
        simp only
        generalize bodyFrom s brace [] (brace + 1) = y at hbody
        cases hbody with
        | @closed inner k left behind moves reads =>
          simp only
          rw [if_pos (by omega), reads]
          exact ih (s.size - k) (by omega) behind (head.toNode inner :: nodes) rfl
        | fault reads =>
          rw [reads]
          rfl
      | fault reads =>
        rw [reads]
        rfl

end Bodies

end ByteParse

/-- **The bytes of a text are read as its pieces are.** -/
theorem parseBytes_eq (css : String) : parseBytes css = (parse css).mapError .fault := by
  have hparse : Reader.outcome ⟨0, .idle, [], []⟩ (Stored.ofString css).text = parse css := rfl
  rw [parseBytes, ByteParse.rulesFrom_eq (Stored.ofString css).at_start, hparse]
  cases parse css <;> rfl

/-- What is wrong with a text stands where it is reported: at a byte of the text, where a character
starts.  The bytes are read as the pieces are: no byte outside the text is read, no slice starts or
ends inside a character, and every loop moves on. -/
theorem faults_reported_at_cause (css : String) :
    (∀ e, parse css = .error e → ∃ f before after, e = .fault f (byteLength before) ∧
      byteLength before < css.utf8ByteSize ∧ css.toList = before ++ after ∧
      Cause before after f) ∧
    parseBytes css = (parse css).mapError .fault ∧
    ∀ b, parseBytes css ≠ .error (.breach b) := by
  refine ⟨fun e he => ?_, parseBytes_eq css, fun b => ?_⟩
  · obtain ⟨f, before, after, hfault, hsplit, hcause⟩ := cause_of_parse he
    have hinside : 0 < byteLength after := by
      obtain ⟨c, cs, rfl⟩ := List.exists_cons_of_ne_nil hcause.ne_nil
      rw [byteLength_cons]
      have := c.utf8Size_pos
      omega
    refine ⟨f, before, after, hfault, ?_, hsplit, hcause⟩
    rw [← byteLength_toList, hsplit, byteLength_append]
    omega
  · rw [parseBytes_eq]
    cases parse css <;> simp [Except.mapError]

/-- A block with an item whose only colon is in a comment, behind characters of two bytes, and with
a quote and a brace that are escaped. -/
def colonlessCss : String := "é\x7ba:b;ü/*:*/'\\'x' \\\x7d;c:d\x7d"

theorem faults_reported_at_cause_colonlessCss :
    parse colonlessCss = .error (.fault .missingColon 7) ∧
      ∃ before after, byteLength before = 7 ∧ colonlessCss.toList = before ++ after ∧
        Cause before after .missingColon := by
  have hfault : parse colonlessCss = .error (.fault .missingColon 7) := by decide +kernel
  obtain ⟨f, before, after, heq, -, hsplit, hcause⟩ :=
    (faults_reported_at_cause colonlessCss).1 _ hfault
  obtain ⟨rfl, hoffset⟩ := CssError.fault.inj heq
  exact ⟨hfault, before, after, hoffset.symm, hsplit, hcause⟩

end ComponentCompiler.Style
