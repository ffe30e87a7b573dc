import ComponentCompiler.Proofs.Style.ByteText
import ComponentCompiler.Proofs.Style.FaultPlace

/-!
# Reading stylesheets, byte by byte

`parse` reads a stylesheet piece by piece, with a stack of open blocks.  Here the same is done as it
is done in memory: by descent into the blocks, with an index into the bytes of the text.  The text
of an item is scanned to its end first, and then cut out of the whole.

Every step that could go wrong is checked (`Stored`).  What the scans find is compared here with
what the reader does: it collects, piece by piece, the text that a scan moves over.

## Main definitions

* `scanFrom` — the end of an item or of a block.
* `Entry` — what stands between two items.
* `bodyFrom`, `rulesFrom`, `parseBytes` — blocks and stylesheets, read from their bytes.
* `Heads` — the first piece of a text.
* `Reader.outcome` — what a reader makes of the rest of a text.

## Main results

* `scanFrom_reads` — a scan ends where a reader that collects text does.
-/

namespace ComponentCompiler.Style

open Text
open ByteParse (mark_cases)

namespace ByteParse

/-! ### The parser -/

section Parser

variable (s : Stored)

/-- What a scan for the end of an item does at a byte: it stops, or goes on with so many brackets
open. -/
def bracketMove (depth : Nat) (c : Char) : Except (Halt CssError) (Option Nat) :=
  if depth == 0 && isItemEnd c then return none else return some (Reader.bracketDepth depth c)

/-- The same of a scan for the end of a block, which counts braces. -/
def braceMove (depth : Nat) (c : Char) : Except (Halt CssError) (Option Nat) :=
  if c == '{' then return some (depth + 1)
  else if c == '}' then
    if depth = 0 then .error (.breach .underflow)
    else if depth - 1 = 0 then return none
    else return some (depth - 1)
  else return some depth

/-- The index where a scan stops, or that of the end.  Strings, comments and what is behind a
backslash are passed over. -/
def scanFrom (move : Nat → Char → Except (Halt CssError) (Option Nat)) (depth i : Nat) :
    Except (Halt CssError) Nat := do
  if i < s.size then
    let c ← s.byteAt i
    if isQuote c then
      let j ← stringEnd s i
      if s.size - j < s.size - i then scanFrom move depth j else .error (.breach .stuck)
    else if isCommentAt s c i then
      let j ← commentEnd s i
      if s.size - j < s.size - i then scanFrom move depth j else .error (.breach .stuck)
    else if c == '\\' then scanFrom move depth (i + 2)
    else
      match ← move depth c with
      | none => return i
      | some d => scanFrom move d (i + 1)
  else return s.size
termination_by s.size - i

/-- The end of the item that starts at an index. -/
def itemEnd (i : Nat) : Except (Halt CssError) Nat := scanFrom s bracketMove 0 i

/-- The closing brace of the block whose opening brace is at an index. -/
def blockEnd (i : Nat) : Except (Halt CssError) Nat := do
  let j ← scanFrom s braceMove 1 (i + 1)
  if j < s.size then return j else .error (.fault (.fault .unclosedBlock i))

/-- Whether a scan that stopped at an index did so at a byte. -/
def stopsAt (c : Char) (i : Nat) : Except (Halt CssError) Bool := do
  if i < s.size then return (← s.byteAt i) == c else return false

/-- What stands at an index between two items. -/
inductive Entry (α : Type) where
  /-- A part without a block that is read on its own, and the index behind it. -/
  | part (x : α) (stop : Nat)
  /-- What is in front of a block, and the index of its brace. -/
  | block (head : Head) (brace : Nat)

/-- The same with another part. -/
def Entry.map {α β : Type} (f : α → β) : Entry α → Entry β
  | part x stop => part (f x) stop
  | block head brace => block head brace

/-- The comment at an index, and the index behind it. -/
def commentAt (i : Nat) : Except (Halt CssError) (String × Nat) := do
  let k ← commentEnd s i
  if k < 2 then .error (.breach .underflow)
  else return (String.ofList (← s.slice (i + 2) (k - 2)), k)

/-- The rule at an index. -/
def ruleAt {α : Type} (i : Nat) : Except (Halt CssError) (Entry α) := do
  let stop ← itemEnd s i
  if ← stopsAt s '{' stop then
    return .block (.rule (← selectorsOf (← s.slice i stop))) stop
  else .error (.fault (.fault .missingBlock i))

/-- The rule with an at-sign whose prelude is scanned up to the index `stop`. -/
def atRuleFrom (name condition : String) (stop : Nat) : Except (Halt CssError) (Entry Node) := do
  if stop < s.size then
    let c ← s.byteAt stop
    if c == '{' then
      if isGroupName name then return .block (.group name condition) stop
      else
        let k ← blockEnd s stop
        let block := String.ofList (trim (← s.slice (stop + 1) k))
        return .part (.atRule name condition (some block)) (k + 1)
    else return .part (.atRule name condition none) (if c == ';' then stop + 1 else stop)
  else return .part (.atRule name condition none) stop

/-- The rule with an at-sign at an index. -/
def atRuleAt (i : Nat) : Except (Halt CssError) (Entry Node) := do
  let j ← s.skip isNameChar (i + 1)
  let name := String.ofList (← s.slice (i + 1) j)
  let stop ← itemEnd s j
  atRuleFrom s name (String.ofList (trim (← s.slice j stop))) stop

/-- The rule or the declaration at an index in a block. -/
def itemAt (i : Nat) : Except (Halt CssError) (Entry Item) := do
  let stop ← itemEnd s i
  if ← stopsAt s '{' stop then ruleAt s i
  else
    let d ← declarationOf (← s.slice i stop) i
    return .part d (if ← stopsAt s ';' stop then stop + 1 else stop)

/-- What stands at an index, where the byte is `c`: a comment or a rule with an at-sign, put as
`comment` and `nest` say, or else `item`. -/
def entryAt {α : Type} (comment : String → α) (nest : Node → α)
    (item : Except (Halt CssError) (Entry α)) (c : Char) (i : Nat) :
    Except (Halt CssError) (Entry α) := do
  if isCommentAt s c i then
    let (text, k) ← commentAt s i
    return .part (comment text) k
  else if c == '@' then return (← atRuleAt s i).map nest
  else item

/-- The items of a block from an index on, and the index behind the block.  Its brace is at
`opened`, and the items so far are `items`, latest first. -/
def bodyFrom (opened : Nat) (items : List Item) (i : Nat) :
    Except (Halt CssError) (List Item × Nat) := do
  let j ← s.skip isPlainBlank i
  if j < s.size then
    let c ← s.byteAt j
    if c == '}' then return (items.reverse, j + 1)
    else if c == ';' then
      if s.size - (j + 1) < s.size - i then bodyFrom opened items (j + 1)
      else .error (.breach .stuck)
    else
      match ← entryAt s .comment .nested (itemAt s j) c j with
      | .part x k =>
          if s.size - k < s.size - i then bodyFrom opened (x :: items) k
          else .error (.breach .stuck)
      | .block head brace =>
          if s.size - (brace + 1) < s.size - i then
            let (inner, k) ← bodyFrom brace [] (brace + 1)
            if s.size - k < s.size - i then
              bodyFrom opened (.nested (head.toNode inner) :: items) k
            else .error (.breach .stuck)
          else .error (.breach .stuck)
  else .error (.fault (.fault .unclosedBlock opened))
termination_by s.size - i

/-- The nodes outside every block from an index on; those so far are `nodes`, latest first. -/
def rulesFrom (nodes : List Node) (i : Nat) : Except (Halt CssError) (List Node) := do
  let j ← s.skip isPlainBlank i
  if j < s.size then
    let c ← s.byteAt j
    if c == '}' then .error (.fault (.fault .unexpectedClose j))
    else if c == ';' then
      if s.size - (j + 1) < s.size - i then rulesFrom nodes (j + 1) else .error (.breach .stuck)
    else
      match ← entryAt s .comment id (ruleAt s j) c j with
      | .part n k =>
          if s.size - k < s.size - i then rulesFrom (n :: nodes) k else .error (.breach .stuck)
      | .block head brace =>
          let (inner, k) ← bodyFrom s brace [] (brace + 1)
          if s.size - k < s.size - i then rulesFrom (head.toNode inner :: nodes) k
          else .error (.breach .stuck)
  else return nodes.reverse
termination_by s.size - i

end Parser

end ByteParse

/-- The stylesheet that a text denotes, read from its bytes. -/
def parseBytes (css : String) : Except (Halt CssError) Stylesheet := do
  return ⟨← ByteParse.rulesFrom (.ofString css) [] 0⟩

/-! ### The first piece of a text -/

/-- The first piece of a text, and what stands behind it. -/
inductive Heads : List Char → Piece → List Char → Prop
  | char {c : Char} {rest : List Char} (quote : isQuote c = false)
      (lone : c = '\\' → rest = []) (mark : (c == '/' && rest.head? == some '*') = false) :
      Heads (c :: rest) (.char c) rest
  | escape {c : Char} {rest : List Char} : Heads ('\\' :: c :: rest) (.escape c) rest
  | string {q : Char} {body rest : List Char} (quote : isQuote q = true)
      (takes : takeString q (body ++ q :: rest) = .ok ⟨body ++ [q], rest⟩) :
      Heads (q :: (body ++ q :: rest)) (.string q body) rest
  | comment {body rest : List Char}
      (cut : cut? ['*', '/'] (body ++ '*' :: '/' :: rest) = some (body, rest)) :
      Heads ('/' :: '*' :: (body ++ '*' :: '/' :: rest)) (.comment body) rest
  | openString {q : Char} {body : List Char} (quote : isQuote q = true)
      (takes : takeString q body = .error .unterminatedString) :
      Heads (q :: body) (.openString q body) []
  | openComment {body : List Char} (cut : cut? ['*', '/'] body = none) :
      Heads ('/' :: '*' :: body) (.openComment body) []

theorem Heads.eq_append {cs rest : List Char} {p : Piece} (h : Heads cs p rest) :
    cs = p.source ++ rest := by
  cases h <;> simp [Piece.source]

/-- A string that is taken is a piece. -/
theorem piecesFrom_of_takeString {q : Char} {cs : List Char} {t : Taken}
    (h : takeString q cs = .ok t) (r : List Char) :
    ∃ body, t.text = body ++ [q] ∧
      piecesFrom (.string q r) cs = .string q (r.reverse ++ body) :: pieces t.rest := by
  -- the reader puts a text together behind its recursion, and cutting, in `r`, in front of it
  fun_induction takeString q cs generalizing r t with
  | case1 c cs ih =>
    obtain ⟨u, htake, rfl⟩ := map_after_eq_ok h
    obtain ⟨body, htext, hpieces⟩ := ih htake (c :: '\\' :: r)
    refine ⟨'\\' :: c :: body, by simp [Taken.after, htext], ?_⟩
    rw [piecesFrom, hpieces]
    simp [Taken.after]
  | case2 c cs hescape hc =>
    obtain rfl := Except.ok.inj h
    obtain rfl := eq_of_beq hc
    refine ⟨[], rfl, ?_⟩
    rw [piecesFrom, if_pos hc, List.append_nil]
    · rfl
    · exact hescape
  | case3 c cs hescape hc ih =>
    obtain ⟨u, htake, rfl⟩ := map_after_eq_ok h
    obtain ⟨body, htext, hpieces⟩ := ih htake (c :: r)
    refine ⟨c :: body, by simp [Taken.after, htext], ?_⟩
    rw [piecesFrom, if_neg hc, hpieces]
    · simp [Taken.after]
    · exact hescape
  | case4 => cases h

/-- A string that cannot be taken is never closed. -/
theorem piecesFrom_of_takeString_error {q : Char} {cs : List Char} {e : ComponentFault}
    (h : takeString q cs = .error e) (r : List Char) :
    e = .unterminatedString ∧ piecesFrom (.string q r) cs = [.openString q (r.reverse ++ cs)] := by
  fun_induction takeString q cs generalizing r with
  | case1 c cs ih =>
    obtain ⟨rfl, hpieces⟩ := ih (map_after_eq_error h) (c :: '\\' :: r)
    refine ⟨rfl, ?_⟩
    rw [piecesFrom, hpieces]
    simp
  | case2 c cs hescape hc => cases h
  | case3 c cs hescape hc ih =>
    obtain ⟨rfl, hpieces⟩ := ih (map_after_eq_error h) (c :: r)
    refine ⟨rfl, ?_⟩
    rw [piecesFrom, if_neg hc, hpieces]
    · simp
    · exact hescape
  | case4 =>
    obtain rfl := Except.error.inj h
    exact ⟨rfl, by simp [piecesFrom]⟩

/-- A comment is a piece up to its mark, or up to the end. -/
theorem piecesFrom_comment (r cs : List Char) :
    piecesFrom (.comment r) cs
      = (cut? ['*', '/'] cs).elim [.openComment (r.reverse ++ cs)]
          fun (body, rest) => .comment (r.reverse ++ body) :: pieces rest := by
  fun_induction cut? ['*', '/'] cs generalizing r with
  | case1 => simp [piecesFrom]
  | case2 c cs hmark =>
    obtain ⟨ds, hds⟩ := List.isPrefixOf_iff_prefix.1 hmark
    rw [← hds]
    simp [piecesFrom, pieces]
  | case3 c cs hmark ih =>
    have hstep : piecesFrom (.comment r) (c :: cs) = piecesFrom (.comment (c :: r)) cs := by
      rw [piecesFrom]
      rintro ds rfl rfl
      exact hmark rfl
    rw [hstep, ih (c :: r)]
    cases cut? ['*', '/'] cs <;> simp

/-- A text that is not empty has a first piece. -/
theorem exists_heads {cs : List Char} (h : cs ≠ []) :
    ∃ p rest, Heads cs p rest ∧ pieces cs = p :: pieces rest := by
  obtain ⟨c, cs, rfl⟩ := List.exists_cons_of_ne_nil h
  by_cases hq : isQuote c = true
  · have hstring : pieces (c :: cs) = piecesFrom (.string c []) cs := piecesFrom_quote hq cs
    cases htake : takeString c cs with
    | ok t =>
      obtain ⟨text, rest⟩ := t
      have hall : text ++ rest = cs := all_of_takeString htake
      obtain ⟨body, rfl, hpieces⟩ := piecesFrom_of_takeString htake []
      rw [List.append_assoc, List.singleton_append] at hall
      subst hall
      exact ⟨_, _, .string hq htake, hstring.trans hpieces⟩
    | error e =>
      obtain ⟨rfl, hpieces⟩ := piecesFrom_of_takeString_error htake []
      exact ⟨_, _, .openString hq htake, hstring.trans hpieces⟩
  · rcases mark_cases c cs with ⟨ds, rfl, rfl⟩ | hmark
    · have hcomment : pieces ('/' :: '*' :: ds) = piecesFrom (.comment []) ds := rfl
      rw [piecesFrom_comment] at hcomment
      cases hcut : cut? ['*', '/'] ds with
      | none =>
        rw [hcut] at hcomment
        exact ⟨_, _, .openComment hcut, hcomment⟩
      | some cut =>
        obtain ⟨body, rest⟩ := cut
        rw [hcut] at hcomment
        obtain rfl := cut?_eq_some hcut
        exact ⟨_, _, .comment hcut, hcomment⟩
    · -- a backslash is a piece with the character behind it, if there is one
      by_cases hb : c = '\\' ∧ cs ≠ []
      · obtain ⟨rfl, hcs⟩ := hb
        obtain ⟨d, ds, rfl⟩ := List.exists_cons_of_ne_nil hcs
        exact ⟨_, _, .escape, rfl⟩
      · have hlone : c = '\\' → cs = [] := by simpa using hb
        refine ⟨_, _, .char (by simpa using hq) hlone hmark, ?_⟩
        rw [pieces, piecesFrom, if_neg hq]
        · rfl
        · rintro ds rfl rfl
          cases hmark
        · rintro d ds rfl rfl
          cases hlone rfl

/-! ### Reading to the end -/

namespace Reader

/-- What a reader makes of the rest of a text. -/
def outcome (r : Reader) (cs : List Char) : Except CssError Stylesheet := (r.read cs).bind finish

variable {r r' : Reader} {cs rest : List Char} {p : Piece}

theorem outcome_of_ok (hpieces : pieces cs = p :: pieces rest) (h : r.readPiece p = .ok r') :
    r.outcome cs = { r' with offset := r.offset + byteLength p.source }.outcome rest := by
  rw [outcome, read, hpieces, foldlM_cons_of_ok p h]
  rfl

theorem outcome_of_error {ps : List Piece} {e : CssError} (hpieces : pieces cs = p :: ps)
    (h : r.readPiece p = .error e) : r.outcome cs = .error e := by
  rw [outcome, read, hpieces, List.foldlM_cons, step, h]
  rfl

/-- Two readers that read the next piece alike make the same of the rest of a text. -/
theorem outcome_congr (hoffset : r.offset = r'.offset)
    (hpiece : ∀ p, (pieces cs).head? = some p → r.readPiece p = r'.readPiece p)
    (hfinish : cs = [] → r.finish = r'.finish) : r.outcome cs = r'.outcome cs := by
  cases hpieces : pieces cs with
  | nil =>
    have hcs := source_pieces cs
    rw [hpieces] at hcs
    subst hcs
    exact hfinish rfl
  | cons p ps =>
    rw [outcome, outcome, read, read, hpieces, List.foldlM_cons, List.foldlM_cons, step, step,
      hpiece p (by rw [hpieces]; rfl), hoffset]

/-- A character that may be structure is read by itself. -/
theorem outcome_char {c : Char} (hq : isQuote c = false) (hb : c ≠ '\\') (hs : c ≠ '/')
    (h : r.readChar c = .ok r') :
    r.outcome (c :: cs) = { r' with offset := r.offset + byteLength [c] }.outcome cs := by
  rw [outcome, read_cons_of_ok hq hb hs h]
  rfl

end Reader

/-! ### Collecting the text of an item -/

/-- The end of an item, where no bracket is open, or the number of brackets behind a character. -/
def itemMove (depth : Nat) (c : Char) : Option Nat :=
  if depth == 0 && isItemEnd c then none else some (Reader.bracketDepth depth c)

/-- The end of a block, or the number of braces that are open in it behind a character. -/
def rawMove (depth : Nat) (c : Char) : Option Nat :=
  if c == '{' then some (depth + 1)
  else if c == '}' then if depth = 0 then none else some (depth - 1)
  else some depth

/-- A phase of reading in which text is collected as a scan moves over it. -/
structure Collects (move : Nat → Char → Option Nat) (phase : Nat → List Char → Phase) : Prop where
  /-- A character where the scan goes on is collected. -/
  char : ∀ (r : Reader) {depth depth' : Nat} (text : List Char) {c : Char},
    move depth c = some depth' →
      { r with phase := phase depth text }.readChar c
        = .ok { r with phase := phase depth' (c :: text) }
  /-- A piece that holds no structure is collected. -/
  text : ∀ (r : Reader) (depth : Nat) (text source : List Char),
    { r with phase := phase depth text }.readText source
      = { r with phase := phase depth (source.reverse ++ text) }
  /-- A comment is collected. -/
  comment : ∀ (r : Reader) (depth : Nat) (text inside : List Char),
    { r with phase := phase depth text }.readComment inside
      = { r with phase := phase depth ((Piece.comment inside).source.reverse ++ text) }

theorem Gathers.collects {phase : Nat → List Char → Phase} (h : Gathers phase) :
    Collects itemMove phase where
  char r depth depth' text c hmove := by
    unfold itemMove at hmove
    split at hmove
    · cases hmove
    · next hc =>
      obtain rfl := Option.some.inj hmove
      exact h.char r depth text c (by simpa using hc)
  text := h.text
  comment := h.comment

theorem collects_raw (name condition : String) (opened : Nat) :
    Collects rawMove (.raw name condition opened) where
  char r depth depth' text c hmove := by
    show Except.ok (Reader.rawChar _ name condition opened depth text c) = _
    unfold rawMove at hmove
    split at hmove
    · next hc =>
      obtain rfl := eq_of_beq hc
      obtain rfl := Option.some.inj hmove
      rfl
    · next hopen =>
      split at hmove
      · next hc =>
        obtain rfl := eq_of_beq hc
        cases depth with
        | zero => cases hmove
        | succ depth =>
          obtain rfl := Option.some.inj hmove
          rfl
      · next hclose =>
        obtain rfl := Option.some.inj hmove
        simp only [beq_iff_eq] at hopen hclose
        simp [Reader.rawChar, hclose]
  text _ _ _ _ := rfl
  comment _ _ _ _ := rfl

/-- A piece that is no character is collected. -/
theorem Collects.readPiece {move : Nat → Char → Option Nat} {phase : Nat → List Char → Phase}
    (h : Collects move phase) {p : Piece} (hp : p.isOpen = false) (hchar : ∀ c, p ≠ .char c)
    (r : Reader) (depth : Nat) (text : List Char) :
    { r with phase := phase depth text }.readPiece p
      = .ok { r with phase := phase depth (p.source.reverse ++ text) } := by
  cases p with
  | char c => exact absurd rfl (hchar c)
  | comment inside => exact congrArg Except.ok (h.comment r depth text inside)
  | openString _ _ => cases hp
  | openComment _ => cases hp
  | _ => exact congrArg Except.ok (h.text r depth text _)

namespace ByteParse

/-- A scan over bytes that moves as one over characters does; depths are counted with `f`. -/
structure Tracks (step : Nat → Char → Except (Halt CssError) (Option Nat)) (f : Nat → Nat)
    (move : Nat → Char → Option Nat) : Prop where
  step_eq : ∀ depth c, step (f depth) c = .ok ((move depth c).map f)
  high : ∀ depth (c : Char), 0x80 ≤ c.toNat → move depth c = some depth
  backslash : ∀ depth, move depth '\\' = some depth

theorem tracks_bracketMove : Tracks bracketMove id itemMove where
  step_eq depth c := by
    simp only [bracketMove, itemMove, id, Option.map_id]
    split <;> rfl
  high depth c hc := by
    simp [itemMove, isItemEnd, Reader.bracketDepth, beq_of_high hc]
  backslash depth := by
    simp [itemMove, isItemEnd, Reader.bracketDepth]

theorem tracks_braceMove : Tracks braceMove (· + 1) rawMove where
  step_eq depth c := by
    simp only [braceMove, rawMove]
    split
    · rfl
    split
    · rw [if_neg (Nat.succ_ne_zero depth), Nat.add_sub_cancel]
      split
      · rfl
      · next hpos =>
        rw [Option.map_some, Nat.sub_add_cancel (Nat.pos_of_ne_zero hpos)]
        rfl
    · rfl
  high depth c hc := by simp [rawMove, beq_of_high hc]
  backslash depth := by simp [rawMove]

/-- What a reader that collects text makes of a text, by what a scan over the text gives: `whole` is
the outcome, and `r` a reader at the start. -/
inductive ScanReads (move : Nat → Char → Option Nat) (phase : Nat → List Char → Phase) (r : Reader)
    (text cs : List Char) (whole : Except CssError Stylesheet) :
    Except (Halt CssError) Nat → Prop
  /-- The scan stops at a character, and what is in front of it is collected. -/
  | stop {front rest : List Char} {c : Char} {depth : Nat} (split : cs = front ++ c :: rest)
      (stops : move depth c = none)
      (reads : whole = { r with phase := phase depth (front.reverse ++ text),
                                offset := r.offset + byteLength front }.outcome (c :: rest)) :
      ScanReads move phase r text cs whole (.ok (r.offset + byteLength front))
  /-- The scan gets to the end, and all of the text is collected. -/
  | fin {depth : Nat}
      (reads : whole = { r with phase := phase depth (cs.reverse ++ text),
                                offset := r.offset + byteLength cs }.finish) :
      ScanReads move phase r text cs whole (.ok (r.offset + byteLength cs))
  /-- A string or a comment is never closed. -/
  | fault {e : CssError} (reads : whole = .error e) :
      ScanReads move phase r text cs whole (.error (.fault e))

section Scan

variable {s : Stored} {i depth : Nat} {c : Char} {cs rest text : List Char} {f : Nat → Nat}
  {step : Nat → Char → Except (Halt CssError) (Option Nat)} {move : Nat → Char → Option Nat}
  {phase : Nat → List Char → Phase} {r : Reader} {whole : Except CssError Stylesheet}
  {x : Except (Halt CssError) Nat}

/-- A piece that is collected is in front of what the scan finds behind it. -/
theorem ScanReads.cons (source : List Char)
    (h : ScanReads move phase { r with offset := r.offset + byteLength source }
      (source.reverse ++ text) rest whole x) :
    ScanReads move phase r text (source ++ rest) whole x := by
  cases h with
  | stop split stops reads =>
    rw [← List.append_assoc, ← List.reverse_append, Nat.add_assoc, ← byteLength_append] at reads
    rw [Nat.add_assoc, ← byteLength_append]
    exact .stop (by rw [split, List.append_assoc]) stops reads
  | fin reads =>
    rw [← List.append_assoc, ← List.reverse_append, Nat.add_assoc, ← byteLength_append] at reads
    rw [Nat.add_assoc, ← byteLength_append]
    exact .fin reads
  | fault reads => exact .fault reads

theorem Tracks.leadChar (ht : Tracks step f move) (depth : Nat) (c : Char) :
    move depth (leadChar c) = move depth c := by
  rcases Nat.lt_or_ge c.toNat 0x80 with h | h
  · rw [leadChar_of_ascii h]
  · rw [ht.high depth _ (le_toNat_leadChar h), ht.high depth c h]

theorem passesHigh_scanFrom (ht : Tracks step f move) (depth : Nat) :
    s.PassesHigh (scanFrom s step (f depth)) := by
  intro i c hc hhigh
  conv_lhs => rw [scanFrom]
  rw [if_pos (Stored.lt_of_peek hc), Stored.byteAt_of_peek hc]
  simp only [bind, Except.bind, Scan.isQuote_of_high hhigh, isCommentAt_of_high hhigh,
    beq_of_high hhigh (by decide : '\\'.toNat < 0x80), ht.step_eq, ht.high depth c hhigh]
  rfl

theorem scanFrom_end (hi : ¬ i < s.size) : scanFrom s step depth i = .ok s.size := by
  rw [scanFrom, if_neg hi]
  rfl

theorem scanFrom_char (ht : Tracks step f move) (h : s.At i (c :: cs))
    (hquote : isQuote c = false) (hb : c ≠ '\\')
    (hmark : (c == '/' && cs.head? == some '*') = false) :
    scanFrom s step (f depth) i
      = (move depth c).elim (.ok i) fun d => scanFrom s step (f d) (i + 1) := by
  conv_lhs => rw [scanFrom]
  rw [if_pos h.lt, h.byteAt]
  simp only [bind, Except.bind, Scan.isQuote_leadChar, hquote, isCommentAt_eq h, hmark,
    leadChar_beq (by decide : '\\'.toNat < 0x80), beq_false_of_ne hb, ht.step_eq, ht.leadChar]
  cases move depth c <;> rfl

theorem scanFrom_backslash (h : s.At i ('\\' :: cs)) :
    scanFrom s step depth i = scanFrom s step depth (i + 2) := by
  conv_lhs => rw [scanFrom]
  rw [if_pos h.lt, h.byteAt_ascii (by decide)]
  rfl

/-- A string is passed over, or never closed. -/
theorem scanFrom_string {q : Char} (hq : isQuote q = true) (h : s.At i (q :: cs)) :
    (∀ t, takeString q cs = .ok t →
      scanFrom s step depth i = scanFrom s step depth (i + 1 + byteLength t.text)) ∧
    ∀ e, takeString q cs = .error e →
      scanFrom s step depth i = .error (.fault (.fault .unterminatedString i)) := by
  have hlt := h.lt
  have hbyte : (s.byteAt i : Except (Halt CssError) Char) = .ok q :=
    h.byteAt_ascii (Scan.toNat_lt_of_isQuote hq)
  refine ⟨fun t ht => ?_, fun e he => ?_⟩
  · have hend : stringEnd s i = .ok (i + 1 + byteLength t.text) := by
      rw [stringEnd, Scan.stringEnd_eq hq h, ht]
      rfl
    conv_lhs => rw [scanFrom]
    simp only [if_pos hlt, hbyte, bind, Except.bind, hq, hend, if_true]
    exact if_pos (by omega)
  · have hend : stringEnd s i = .error (.fault (.fault .unterminatedString i)) := by
      rw [stringEnd, Scan.stringEnd_eq hq h, he]
      rfl
    rw [scanFrom]
    simp only [if_pos hlt, hbyte, bind, Except.bind, hq, hend]
    rfl

theorem commentEnd_eq (h : s.At i ('/' :: '*' :: cs)) :
    commentEnd s i
      = (cut? ['*', '/'] cs).elim (.error (.fault (.fault .unterminatedComment i)))
          fun (body, _) => .ok (i + 2 + byteLength body + 2) := by
  have hcs : s.At (i + 2) cs := (h.ascii (by decide)).ascii (by decide)
  rw [commentEnd, hcs.find isMark_close]
  cases cut? ['*', '/'] cs <;> rfl

/-- A comment is passed over, or never closed. -/
theorem scanFrom_comment (h : s.At i ('/' :: '*' :: cs)) :
    scanFrom s step depth i
      = (cut? ['*', '/'] cs).elim (.error (.fault (.fault .unterminatedComment i)))
          fun (body, _) => scanFrom s step depth (i + 2 + byteLength body + 2) := by
  have hlt := h.lt
  conv_lhs => rw [scanFrom]
  rw [if_pos hlt, h.byteAt]
  simp only [bind, Except.bind, Scan.isQuote_leadChar, isCommentAt_eq h, commentEnd_eq h]
  rw [if_neg (by decide), if_pos (by rfl)]
  cases cut? ['*', '/'] cs with
  | none => rfl
  | some cut => exact if_pos (by omega)

theorem byteLength_comment (body : List Char) :
    byteLength (Piece.comment body).source = 2 + byteLength body + 2 := by
  have hmarks : (Piece.comment body).source = ['/', '*'] ++ body ++ ['*', '/'] := rfl
  have hopen : byteLength ['/', '*'] = 2 := by decide
  have hclose : byteLength ['*', '/'] = 2 := by decide
  rw [hmarks, byteLength_append, byteLength_append, hopen, hclose]

/-- **A scan ends where a reader that collects text does.** -/
theorem scanFrom_reads (ht : Tracks step f move) (hcollects : Collects move phase) (r : Reader)
    (depth : Nat) (text : List Char) (h : s.At r.offset cs) :
    ScanReads move phase r text cs ({ r with phase := phase depth text }.outcome cs)
      (scanFrom s step (f depth) r.offset) := by
  induction hlength : cs.length using Nat.strongRecOn generalizing r depth text cs with
  | ind n ih =>
  by_cases hcs : cs = []
  · subst hcs
    rw [scanFrom_end h.not_lt, ← h.add_byteLength]
    exact .fin rfl
  obtain ⟨p, rest, hheads, hpieces⟩ := exists_heads hcs
  have hsplit := hheads.eq_append
  -- the reader collects the piece and goes on behind it
  have hpass : ∀ {depth' : Nat},
      { r with phase := phase depth text }.readPiece p
        = .ok { r with phase := phase depth' (p.source.reverse ++ text) } → p.source ≠ [] →
      ScanReads move phase r text cs ({ r with phase := phase depth text }.outcome cs)
        (scanFrom s step (f depth') (r.offset + byteLength p.source)) := by
    intro depth' hread hsource
    have hpos := List.length_pos_iff.2 hsource
    rw [Reader.outcome_of_ok hpieces hread]
    rw [hsplit] at h hlength ⊢
    rw [List.length_append] at hlength
    exact .cons p.source (ih rest.length (by omega)
      { r with offset := r.offset + byteLength p.source } depth' _ h.behind rfl)
  cases hheads with
  | @char c rest hquote hlone hmark =>
    by_cases hb : c = '\\'
    · -- the backslash takes the index behind the end of the text
      obtain rfl := hlone hb
      subst hb
      have hend := (h.ascii (by decide)).not_lt
      rw [scanFrom_backslash h, scanFrom_end (by omega), ← h.add_byteLength]
      exact .fin (Reader.outcome_of_ok hpieces (hcollects.char r text (ht.backslash depth)))
    · rw [scanFrom_char ht h hquote hb hmark]
      cases hmove : move depth c with
      | none => exact @ScanReads.stop _ _ _ _ _ _ [] rest c depth rfl hmove rfl
      | some depth' =>
        have hread := hcollects.char r text hmove
        have hpassed := hpass hread (by simp [Piece.source])
        rw [Option.elim_some, (passesHigh_scanFrom ht depth').next h]
        simpa [Piece.source] using hpassed
  | @escape c rest =>
    rw [scanFrom_backslash h, (passesHigh_scanFrom ht depth).escape h]
    exact hpass (hcollects.readPiece rfl (by simp) r depth text) (by simp [Piece.source])
  | @string q body rest hq htakes =>
    have hpassed := hpass (hcollects.readPiece rfl (by simp) r depth text) (by simp [Piece.source])
    have hstop : r.offset + byteLength (Piece.string q body).source
        = r.offset + 1 + byteLength (body ++ [q]) := by
      rw [Piece.source, List.cons_append, byteLength_cons,
        utf8Size_of_ascii (Scan.toNat_lt_of_isQuote hq)]
      omega
    rwa [(scanFrom_string hq h).1 _ htakes, ← hstop]
  | @comment body rest hcut =>
    have hpassed := hpass (hcollects.readPiece rfl (by simp) r depth text) (by simp [Piece.source])
    rw [byteLength_comment, ← Nat.add_assoc, ← Nat.add_assoc] at hpassed
    rwa [scanFrom_comment h, hcut]
  | @openString q body hq htakes =>
    rw [(scanFrom_string hq h).2 _ htakes]
    exact .fault (Reader.outcome_of_error hpieces rfl)
  | @openComment body hcut =>
    rw [scanFrom_comment h, hcut]
    exact .fault (Reader.outcome_of_error hpieces rfl)

end Scan

end ByteParse

end ComponentCompiler.Style
