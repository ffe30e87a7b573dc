import ComponentCompiler.Proofs.Style.Components
import ComponentCompiler.Proofs.Text.ByteRead

/-!
# Selectors, byte by byte

`components` takes a selector apart character by character.  Here the same is done as it is done in
memory: with an index into the bytes of the text, which every loop moves on in its own way, and with
slices of the text between two indices.  Behind a backslash the index moves on by two bytes,
wherever that is; so it may stand inside a character, or behind the end.

Every step that could go wrong is checked (`Stored`), and stops with a `Breach` if it does.  The
main result is that none ever happens: on every text, the scan gives just what `components` gives.

## Main definitions

* `Scan.identEnd`, `Scan.combinatorEnd`, `Scan.stringEnd`, `Scan.groupEnd`, `Scan.componentEnd` —
  where something ends.
* `scan` — the components of a selector, read from its bytes.

## Main results

* `scan_eq`, `scan_ne_breach` — the scan reads what `components` reads, and never goes wrong.
-/

namespace ComponentCompiler.Style

open Text

namespace Scan

/-- Whether the symbol of a combinator starts at an index. -/
def symbolAt (s : Stored) (i : Nat) : Except (Halt ComponentFault) Bool := do
  let c ← s.byteAt i
  return c == '>' || c == '+' || c == '~' || (c == '|' && s.peek (i + 1) == some '|')

/-- The end of blanks, and of one symbol among them if `symbol` holds. -/
def combinatorEnd (s : Stored) (symbol : Bool) (i : Nat) : Except (Halt ComponentFault) Nat :=
  if i < s.size then do
    let c ← s.byteAt i
    if isPlainBlank c then combinatorEnd s symbol (i + 1)
    else do
      let starts ← if symbol then symbolAt s i else pure false
      if starts then combinatorEnd s false (i + if c == '|' then 2 else 1) else return i
  else return i
termination_by s.size - i
decreasing_by all_goals first | omega | (split <;> omega)

/-- The first index from a given one on where no continuation byte stands. -/
def continuationEnd (s : Stored) (i : Nat) : Nat :=
  if h : i < s.bytes.length then
    if isContinuation s.bytes[i] then continuationEnd s (i + 1) else i
  else i
termination_by s.bytes.length - i

theorem le_continuationEnd (s : Stored) (i : Nat) : i ≤ continuationEnd s i := by
  fun_induction continuationEnd s i <;> omega

/-- The end of a name. -/
def identEnd (s : Stored) (i : Nat) : Except (Halt ComponentFault) Nat :=
  if i < s.size then do
    let c ← s.byteAt i
    if c == '\\' then identEnd s (min (continuationEnd s (i + 2)) s.size)
    else if (c == '|' && s.peek (i + 1) != some '|') || isIdentChar c then identEnd s (i + 1)
    else return i
  else return i
termination_by s.size - i
decreasing_by
  all_goals have := le_continuationEnd s (i + 2)
  all_goals omega

/-- The end of the string that a quote closes, from an index inside it. -/
def stringEndFrom (s : Stored) (quote : Char) (i : Nat) : Except (Halt ComponentFault) Nat :=
  if i < s.size then do
    let c ← s.byteAt i
    if c == '\\' then stringEndFrom s quote (i + 2)
    else if c == quote then return i + 1
    else stringEndFrom s quote (i + 1)
  else .error (.fault .unterminatedString)
termination_by s.size - i

/-- The end of the string that starts at an index. -/
def stringEnd (s : Stored) (i : Nat) : Except (Halt ComponentFault) Nat := do
  stringEndFrom s (← s.byteAt i) (i + 1)

/-- The end of a group, with the number of brackets that are open at an index. -/
def groupEnd (s : Stored) (opening closing : Char) (depth i : Nat) :
    Except (Halt ComponentFault) Nat :=
  if i < s.size then do
    let c ← s.byteAt i
    if c == '\\' then groupEnd s opening closing depth (i + 2)
    else if isQuote c then do
      let j ← stringEnd s i
      if i < j then groupEnd s opening closing depth j else .error (.breach .stuck)
    else if c == opening then groupEnd s opening closing (depth + 1) (i + 1)
    else if c == closing then
      if depth = 0 then .error (.breach .underflow)
      else if depth - 1 = 0 then return i + 1
      else groupEnd s opening closing (depth - 1) (i + 1)
    else groupEnd s opening closing depth (i + 1)
  else .error (.fault (.unbalanced opening))
termination_by s.size - i

/-- The end of a name and the arguments behind it. -/
def callEnd (s : Stored) (i : Nat) : Except (Halt ComponentFault) Nat := do
  let j ← identEnd s i
  if s.peek j == some '(' then groupEnd s '(' ')' 0 j else return j

/-- The index behind the character at an index. -/
def nextChar (s : Stored) (i : Nat) : Except (Halt ComponentFault) Nat :=
  match dropBytes s.text i with
  | some (c :: _) => .ok (i + c.utf8Size)
  | some [] => .ok s.size
  | none => .error (.breach .astray)

/-- The end of a name, or of the character at an index if no name starts there. -/
def nameEnd (s : Stored) (i : Nat) : Except (Halt ComponentFault) Nat := do
  let j ← identEnd s i
  if j = i then nextChar s i else return j

/-- The kind of the component at an index, and the loop to its end; `c` is the byte there, and
`symbol` says whether the symbol of a combinator starts with it. -/
def ending (s : Stored) (i : Nat) (c : Char) (symbol : Bool) :
    ComponentKind × Except (Halt ComponentFault) Nat :=
  if symbol || isPlainBlank c then (.combinator, combinatorEnd s true i)
  else if c == '[' then (.simple, groupEnd s '[' ']' 0 i)
  else if c == '(' then (.simple, groupEnd s '(' ')' 0 i)
  else if c == ')' then (.simple, .error (.fault (.unbalanced '(')))
  else if c == ']' then (.simple, .error (.fault (.unbalanced '[')))
  else if isQuote c then (.simple, stringEnd s i)
  else if c == ':' then
    (.pseudo, callEnd s (if s.peek (i + 1) == some ':' then i + 2 else i + 1))
  else if c == '.' || c == '#' then (.simple, identEnd s (i + 1))
  else if c == '*' || c == '&' then (.simple, .ok (i + 1))
  else (.simple, nameEnd s i)

/-- The kind of the component at an index, and its end. -/
def componentEnd (s : Stored) (i : Nat) :
    Except (Halt ComponentFault) (ComponentKind × Nat) := do
  let (kind, loop) := ending s i (← s.byteAt i) (← symbolAt s i)
  return (kind, ← loop)

/-- The components of a selector from an index on. -/
def componentsFrom (s : Stored) (i : Nat) : Except (Halt ComponentFault) (List Component) :=
  if i < s.size then do
    let (kind, j) ← componentEnd s i
    let text ← s.slice i j
    if i < j then do
      return ⟨kind, text⟩ :: (← componentsFrom s j)
    else .error (.breach .stuck)
  else return []
termination_by s.size - i

end Scan

/-- The components of a selector, read from its bytes. -/
def scan (selector : String) : Except (Halt ComponentFault) (List Component) :=
  Scan.componentsFrom (.ofString selector) 0

namespace Scan

/-! ### Bytes above `0x7F` -/

theorem isQuote_of_high {c : Char} (hc : 0x80 ≤ c.toNat) : isQuote c = false := by
  simp [isQuote, beq_of_high hc]

theorem isQuote_leadChar (c : Char) : isQuote (leadChar c) = isQuote c := by
  simp [isQuote, leadChar_beq]

theorem isPlainBlank_leadChar (c : Char) : isPlainBlank (leadChar c) = isPlainBlank c :=
  Stored.uniform_isPlainBlank.leadChar c

theorem isIdentChar_of_high {c : Char} (hc : 0x80 ≤ c.toNat) : isIdentChar c = true := by
  simp [isIdentChar, hc]

theorem isIdentChar_leadChar (c : Char) : isIdentChar (leadChar c) = isIdentChar c :=
  Stored.Uniform.leadChar (.inl fun _ => isIdentChar_of_high) c

theorem toNat_lt_of_isPlainBlank {c : Char} (h : isPlainBlank c = true) : c.toNat < 0x80 := by
  simp only [isPlainBlank, Bool.or_eq_true, beq_iff_eq] at h
  rcases h with (((rfl | rfl) | rfl) | rfl) | rfl <;> decide

theorem toNat_lt_of_isQuote {c : Char} (h : isQuote c = true) : c.toNat < 0x80 := by
  simp only [isQuote, Bool.or_eq_true, beq_iff_eq] at h
  rcases h with rfl | rfl <;> decide

/-! ### What a loop finds

Each loop over the bytes is compared with the reader of characters that takes the same text: from an
index where a character starts, the loop ends behind what the reader takes. -/

/-- The end of what a reader takes at an index, or why it takes nothing. -/
def found (i : Nat) (r : Except ComponentFault Taken) : Except (Halt ComponentFault) Nat :=
  (r.map fun t => i + byteLength t.text).mapError .fault

theorem found_ok (i : Nat) (t : Taken) : found i (.ok t) = .ok (i + byteLength t.text) := rfl

theorem found_after (i : Nat) (cs : List Char) (r : Except ComponentFault Taken) :
    found i (r.map (.after cs)) = found (i + byteLength cs) r := by
  cases r with
  | error e => rfl
  | ok t => simp [found_ok, Except.map, Taken.after, Nat.add_assoc]

theorem found_ok_after (i : Nat) (cs : List Char) (t : Taken) :
    found i (.ok (t.after cs)) = found (i + byteLength cs) (.ok t) :=
  found_after i cs (.ok t)

section Loops

variable {s : Stored} {i : Nat} {c : Char} {cs : List Char}

/-! #### Combinators -/

theorem symbolAt_eq (h : s.At i (c :: cs)) :
    symbolAt s i
      = .ok (c == '>' || c == '+' || c == '~' || (c == '|' && cs.head? == some '|')) := by
  unfold symbolAt
  rw [h.byteAt]
  simp only [bind, Except.bind, pure, Except.pure]
  rw [leadChar_beq (by decide), leadChar_beq (by decide), leadChar_beq (by decide),
    leadChar_beq (by decide)]
  by_cases hc : c = '|'
  · rw [(h.ascii (by rw [hc]; decide)).peek_beq (by decide)]
  · simp [beq_false_of_ne hc]

theorem combinatorEnd_nil (symbol : Bool) (h : s.At i []) :
    combinatorEnd s symbol i = .ok i := by
  rw [combinatorEnd, if_neg h.not_lt]
  rfl

theorem combinatorEnd_cons (symbol : Bool) (h : s.At i (c :: cs)) :
    combinatorEnd s symbol i
      = if isPlainBlank c then combinatorEnd s symbol (i + 1)
        else if symbol && (c == '>' || c == '+' || c == '~' || (c == '|' && cs.head? == some '|'))
        then combinatorEnd s false (i + if c == '|' then 2 else 1)
        else .ok i := by
  rw [combinatorEnd, if_pos h.lt, h.byteAt]
  simp only [bind, Except.bind, isPlainBlank_leadChar]
  split
  · rfl
  cases symbol with
  | false => rfl
  | true =>
    rw [if_pos rfl, symbolAt_eq h, leadChar_beq (by decide), Bool.true_and]
    rfl

/-- Two bars do not stand at the front of a text. -/
theorem bars_of_alone (h : ∀ ds, c = '|' → cs = '|' :: ds → False) :
    (c == '|' && cs.head? == some '|') = false := by
  rw [Bool.and_eq_false_imp]
  intro hc
  cases cs with
  | nil => rfl
  | cons d ds =>
    apply beq_false_of_ne
    rintro hd
    obtain rfl : d = '|' := Option.some.inj hd
    exact h ds (beq_iff_eq.1 hc) rfl

/-- The loop over blanks and a symbol ends where the reader of a combinator does. -/
theorem combinatorEnd_eq (symbol : Bool) (h : s.At i cs) :
    combinatorEnd s symbol i = found i (.ok (takeCombinator symbol cs)) := by
  fun_induction takeCombinator symbol cs generalizing i with
  | case1 symbol => exact combinatorEnd_nil symbol h
  | case2 cs ih =>
    have hbehind : combinatorEnd s false (i + 2) = _ := ih ((h.ascii (by decide)).ascii (by decide))
    rw [found_ok_after, show byteLength ['|', '|'] = 2 by decide, ← hbehind,
      combinatorEnd_cons true h]
    rfl
  | case3 symbol cs hsymbol =>
    rw [combinatorEnd_cons symbol h, eq_false_of_ne_true hsymbol]
    rfl
  | case4 symbol c cs hbar hc ih =>
    have hascii := toNat_lt_of_isPlainBlank hc
    rw [combinatorEnd_cons symbol h, if_pos hc, ih (h.ascii hascii), found_ok_after,
      byteLength_ascii hascii]
  | case5 symbol c cs hbar hc hsymbol ih =>
    obtain ⟨rfl, hmark⟩ := Bool.and_eq_true_iff.1 hsymbol
    have hc' : c.toNat < 0x80 ∧ (c == '|') = false := by
      simp only [Bool.or_eq_true, beq_iff_eq] at hmark
      rcases hmark with (rfl | rfl) | rfl <;> decide
    rw [combinatorEnd_cons true h, if_neg hc, hmark, Bool.true_or, Bool.true_and, if_pos rfl,
      hc'.2, if_neg Bool.false_ne_true, ih (h.ascii hc'.1), found_ok_after, byteLength_ascii hc'.1]
  | case6 symbol c cs hbar hc hsymbol =>
    rw [combinatorEnd_cons symbol h, if_neg hc, bars_of_alone hbar, Bool.or_false, if_neg hsymbol]
    rfl

/-! #### Names -/

theorem continuationEnd_eq {xs : List UInt8} (h : Ahead s.bytes i (xs ++ encode cs))
    (hxs : ∀ b ∈ xs, isContinuation b = true) : continuationEnd s i = i + xs.length := by
  induction xs generalizing i with
  | nil =>
    rw [continuationEnd]
    cases cs with
    | nil => rw [dif_neg h.not_lt]; rfl
    | cons c cs =>
      have hget := h.getElem?
      rw [List.nil_append, encode_cons, utf8EncodeChar_eq_cons, List.cons_append, List.head?_cons]
        at hget
      obtain ⟨hi, hget⟩ := List.getElem?_eq_some_iff.1 hget
      rw [dif_pos hi, hget, isContinuation_leadByte]
      rfl
  | cons b xs ih =>
    rw [List.forall_mem_cons] at hxs
    have hget := h.getElem?
    rw [List.cons_append, List.head?_cons] at hget
    obtain ⟨hi, hget⟩ := List.getElem?_eq_some_iff.1 hget
    rw [continuationEnd, dif_pos hi, hget, if_pos hxs.1, ih h.next hxs.2, List.length_cons]
    omega

/-- Behind the first byte of a character, its other bytes are passed over. -/
theorem continuationEnd_behindLead (h : s.At i (c :: cs)) :
    continuationEnd s (i + 1) = i + c.utf8Size := by
  rw [continuationEnd_eq h.ahead.behindLead isContinuation_trailBytes, ← length_trailBytes]
  omega

theorem identEnd_nil (h : s.At i []) : identEnd s i = .ok i := by
  rw [identEnd, if_neg h.not_lt]
  rfl

theorem identEnd_cons (h : s.At i (c :: cs)) :
    identEnd s i
      = if c == '\\' then identEnd s (min (continuationEnd s (i + 2)) s.size)
        else if (c == '|' && !(cs.head? == some '|')) || isIdentChar c then identEnd s (i + 1)
        else .ok i := by
  rw [identEnd, if_pos h.lt, h.byteAt]
  simp only [bind, Except.bind, isIdentChar_leadChar]
  rw [leadChar_beq (by decide), leadChar_beq (by decide)]
  by_cases hc : c = '|'
  · rw [bne, (h.ascii (by rw [hc]; decide)).peek_beq (by decide)]
    rfl
  · simp only [beq_false_of_ne hc, Bool.false_and]
    rfl

theorem passesHigh_identEnd (s : Stored) : s.PassesHigh (identEnd s) := by
  intro i c hc hhigh
  rw [identEnd, if_pos (Stored.lt_of_peek hc), Stored.byteAt_of_peek hc]
  simp only [bind, Except.bind]
  rw [beq_of_high hhigh (by decide), isIdentChar_of_high hhigh, Bool.or_true]
  rfl

/-- The loop over a name ends where the reader of names does. -/
theorem identEnd_eq (h : s.At i cs) :
    identEnd s i = found i (.ok (takeIdent cs)) := by
  fun_induction takeIdent cs generalizing i with
  | case1 => exact identEnd_nil h
  | case2 =>
    -- behind a backslash at the end, the index is brought back to the end
    have hend := h.ascii (by decide)
    have hlen : i + 1 = s.size := hend.add_byteLength
    have hfar : continuationEnd s (i + 2) = i + 2 := by
      rw [continuationEnd, dif_neg (by change ¬ i + 2 < s.size; omega)]
    rw [identEnd_cons h, if_pos (beq_self_eq_true _), hfar, Nat.min_eq_right (by omega), ← hlen,
      identEnd_nil hend]
    rfl
  | case3 c cs ih =>
    -- the jump lands in the escaped character, and the bytes that continue it are passed over
    have hfar : continuationEnd s (i + 2) = i + byteLength ['\\', c] := by
      rw [continuationEnd_behindLead (h.ascii (by decide)), byteLength_escape, Nat.add_assoc]
    have hrest : s.At (i + byteLength ['\\', c]) cs := Stored.At.behind h
    rw [identEnd_cons h, if_pos (beq_self_eq_true _), hfar, Nat.min_eq_left hrest.le,
      found_ok_after, ih hrest]
  | case4 cs =>
    rw [identEnd_cons h]
    rfl
  | case5 c cs hlone hescape hbar hc ih =>
    have hc' := ne_backslash_of_isIdentChar hc
    have hrest : s.At (i + byteLength [c]) cs := Stored.At.behind h
    have hstep : ((c == '|' && !(cs.head? == some '|')) || isIdentChar c) = true := by
      have := bars_of_alone hbar
      grind
    rw [identEnd_cons h, if_neg (by simpa using hc'), if_pos hstep, (passesHigh_identEnd s).next h,
      found_ok_after, ← ih hrest]
    rfl
  | case6 c cs hlone hescape hbar hc =>
    have hc' : c ≠ '\\' := ne_backslash_of_alone hlone hescape
    rw [identEnd_cons h, if_neg (by simpa using hc'), if_neg (by grind)]
    rfl

/-! #### Strings -/

theorem stringEndFrom_end (quote : Char) {j : Nat} (h : s.size ≤ j) :
    stringEndFrom s quote j = .error (.fault .unterminatedString) := by
  rw [stringEndFrom, if_neg (Nat.not_lt_of_le h)]

theorem stringEndFrom_cons {quote : Char} (hquote : quote.toNat < 0x80)
    (h : s.At i (c :: cs)) :
    stringEndFrom s quote i
      = if c == '\\' then stringEndFrom s quote (i + 2)
        else if c == quote then .ok (i + 1)
        else stringEndFrom s quote (i + 1) := by
  rw [stringEndFrom, if_pos h.lt, h.byteAt]
  simp only [bind, Except.bind]
  rw [leadChar_beq (by decide), leadChar_beq hquote]
  rfl

theorem passesHigh_stringEndFrom (s : Stored) {quote : Char} (hquote : quote.toNat < 0x80) :
    s.PassesHigh (stringEndFrom s quote) := by
  intro i c hc hhigh
  rw [stringEndFrom, if_pos (Stored.lt_of_peek hc), Stored.byteAt_of_peek hc]
  simp only [bind, Except.bind]
  rw [beq_of_high hhigh (by decide), beq_of_high hhigh hquote]
  rfl

/-- The loop over a string ends where the reader of strings does. -/
theorem stringEndFrom_eq {quote : Char} (hquote : isQuote quote = true)
    (h : s.At i cs) :
    stringEndFrom s quote i = found i (takeString quote cs) := by
  have hascii := toNat_lt_of_isQuote hquote
  fun_induction endsEscaping cs generalizing i with
  | case1 => exact stringEndFrom_end quote (Nat.le_of_not_lt h.not_lt)
  | case2 =>
    -- the backslash takes the index behind the end of the text
    have hlen : i + 1 = s.size := (h.ascii (by decide)).add_byteLength
    rw [stringEndFrom_cons hascii h, if_pos (beq_self_eq_true _),
      stringEndFrom_end quote (by omega), takeString_backslash (ne_backslash_of_isQuote hquote)]
    rfl
  | case3 c cs ih =>
    -- the index may stand inside the escaped character, of which no byte means anything
    have hrest : s.At (i + byteLength ['\\', c]) cs := Stored.At.behind h
    rw [stringEndFrom_cons hascii h, if_pos (beq_self_eq_true _),
      (passesHigh_stringEndFrom s hascii).escape h, takeString, found_after, ih hrest]
  | case4 c cs hlone hescape ih =>
    have hc := ne_backslash_of_alone hlone hescape
    have hrest : s.At (i + byteLength [c]) cs := Stored.At.behind h
    rw [stringEndFrom_cons hascii h, if_neg (by simpa using hc), takeString_cons hc]
    split
    · next hclose =>
      rw [found_ok, byteLength_ascii (beq_iff_eq.1 hclose ▸ hascii)]
    · rw [(passesHigh_stringEndFrom s hascii).next h, found_after, ← ih hrest]
      rfl

theorem lt_of_stringEndFrom {quote : Char} {j : Nat} (h : stringEndFrom s quote i = .ok j) :
    i < j := by
  fun_induction stringEndFrom s quote i with
  | case1 i hi ih₂ ih₁ =>
    cases hc : (s.byteAt i : Except (Halt ComponentFault) Char) with
    | error e => simp [hc, bind, Except.bind] at h
    | ok c =>
      simp only [hc, bind, Except.bind] at h
      split at h
      · have := ih₂ h
        omega
      split at h
      · obtain rfl : i + 1 = j := Except.ok.inj h
        exact Nat.lt_succ_self i
      · have := ih₁ h
        omega
  | case2 => cases h

/-! #### Groups -/

/-- The loop over a group, from an index where reading stands in a string or in none. -/
def groupFrom (s : Stored) (opening closing : Char) (quote : Option Char) (depth i : Nat) :
    Except (Halt ComponentFault) Nat :=
  match quote with
  | none => groupEnd s opening closing (depth + 1) i
  | some q => (stringEndFrom s q i).bind (groupEnd s opening closing (depth + 1))

/-- Brackets of a group: characters of one byte that are neither quotes nor backslashes. -/
structure Brackets (opening closing : Char) : Prop where
  opening_lt : opening.toNat < 0x80
  closing_lt : closing.toNat < 0x80
  not_quote : isQuote opening = false
  opening_ne : opening ≠ '\\'
  closing_ne : closing ≠ '\\'

theorem brackets_square : Brackets '[' ']' := ⟨by decide, by decide, rfl, by decide, by decide⟩

theorem brackets_round : Brackets '(' ')' := ⟨by decide, by decide, rfl, by decide, by decide⟩

variable {opening closing : Char} {quote : Option Char}

theorem groupFrom_end (depth : Nat) (h : s.size ≤ i) :
    groupFrom s opening closing quote depth i
      = .error (.fault (if quote.isSome then .unterminatedString else .unbalanced opening)) := by
  cases quote with
  | none =>
    rw [groupFrom, groupEnd, if_neg (Nat.not_lt_of_le h)]
    rfl
  | some q =>
    rw [groupFrom, stringEndFrom_end q h]
    rfl

theorem groupFrom_backslash (hquote : ∀ q, quote = some q → isQuote q = true) (depth : Nat)
    (h : s.At i ('\\' :: cs)) :
    groupFrom s opening closing quote depth i
      = groupFrom s opening closing quote depth (i + 2) := by
  cases quote with
  | none =>
    unfold groupFrom
    conv_lhs => rw [groupEnd]
    rw [if_pos h.lt, h.byteAt]
    simp only [bind, Except.bind]
    rw [leadChar_beq (by decide)]
    rfl
  | some q =>
    rw [groupFrom, stringEndFrom_cons (toNat_lt_of_isQuote (hquote q rfl)) h,
      if_pos (beq_self_eq_true _)]
    rfl

theorem groupFrom_quote (hc : isQuote c = true) (depth : Nat) (h : s.At i (c :: cs)) :
    groupFrom s opening closing none depth i
      = groupFrom s opening closing (some c) depth (i + 1) := by
  have hlead : leadChar c = c := leadChar_of_ascii (toNat_lt_of_isQuote hc)
  unfold groupFrom
  rw [groupEnd, if_pos h.lt, h.byteAt, hlead]
  simp only [bind, Except.bind, stringEnd, h.byteAt, hlead]
  rw [if_neg (by simpa using ne_backslash_of_isQuote hc), if_pos hc]
  cases hj : stringEndFrom s c (i + 1) with
  | error e => rfl
  | ok j =>
    have := lt_of_stringEndFrom hj
    simp only
    rw [if_pos (by omega)]

theorem groupFrom_cons (hbrackets : Brackets opening closing)
    (hquote : ∀ q, quote = some q → isQuote q = true) (depth : Nat) (hc : c ≠ '\\')
    (h : s.At i (c :: cs)) :
    groupFrom s opening closing quote depth i
      = (groupStep opening closing quote depth c).elim (.ok (i + 1)) fun st =>
        groupFrom s opening closing st.1 st.2 (i + 1) := by
  cases quote with
  | some q =>
    rw [groupFrom, stringEndFrom_cons (toNat_lt_of_isQuote (hquote q rfl)) h,
      if_neg (by simpa using hc), groupStep]
    split <;> rfl
  | none =>
    cases hquoted : isQuote c with
    | true =>
      rw [groupFrom_quote hquoted depth h]
      unfold groupStep
      rw [if_pos hquoted]
      rfl
    | false =>
      unfold groupFrom groupStep
      rw [groupEnd, if_pos h.lt, h.byteAt]
      simp only [bind, Except.bind, isQuote_leadChar, hquoted]
      rw [leadChar_beq (by decide), leadChar_beq hbrackets.opening_lt,
        leadChar_beq hbrackets.closing_lt, if_neg (by simpa using hc),
        if_neg Bool.false_ne_true, if_neg Bool.false_ne_true]
      split
      · rfl
      split
      · cases depth <;> rfl
      · rfl

theorem passesHigh_groupFrom (s : Stored) (hbrackets : Brackets opening closing)
    (hquote : ∀ q, quote = some q → isQuote q = true) (depth : Nat) :
    s.PassesHigh (groupFrom s opening closing quote depth) := by
  intro i c hc hhigh
  cases quote with
  | some q =>
    rw [groupFrom, passesHigh_stringEndFrom s (toNat_lt_of_isQuote (hquote q rfl)) i c hc hhigh]
    rfl
  | none =>
    unfold groupFrom
    rw [groupEnd, if_pos (Stored.lt_of_peek hc), Stored.byteAt_of_peek hc]
    simp only [bind, Except.bind]
    rw [beq_of_high hhigh (by decide), isQuote_of_high hhigh,
      beq_of_high hhigh hbrackets.opening_lt, beq_of_high hhigh hbrackets.closing_lt]
    rfl

theorem isQuote_of_groupStep {depth : Nat} {st : Option Char × Nat}
    (h : groupStep opening closing quote depth c = some st)
    (hquote : ∀ q, quote = some q → isQuote q = true) : ∀ q, st.1 = some q → isQuote q = true := by
  unfold groupStep at h
  repeat' split at h
  all_goals grind

/-- A backslash at the end of a text leaves a group open. -/
theorem takeGroup_lone (hclosing : closing ≠ '\\')
    (hquote : ∀ q, quote = some q → isQuote q = true) (depth : Nat) :
    takeGroup opening closing quote depth ['\\']
      = .error (if quote.isSome then .unterminatedString else .unbalanced opening) := by
  rw [takeGroup_cons (by simp)]
  cases hstep : groupStep opening closing quote depth '\\' with
  | none => exact absurd (eq_closing_of_groupStep hstep).symm hclosing
  | some st =>
    have hst : st.1.isSome = quote.isSome := by
      cases quote with
      | none => cases depth <;> grind [groupStep, isQuote]
      | some q =>
        have hq := ne_backslash_of_isQuote (hquote q rfl)
        grind [groupStep]
    rw [Option.elim_some, takeGroup, hst]
    rfl

/-- The loop over a group ends where the reader of groups does. -/
theorem groupFrom_eq (hbrackets : Brackets opening closing)
    (hquote : ∀ q, quote = some q → isQuote q = true) (depth : Nat)
    (h : s.At i cs) :
    groupFrom s opening closing quote depth i
      = found i (takeGroup opening closing quote depth cs) := by
  fun_induction endsEscaping cs generalizing quote depth i with
  | case1 =>
    rw [groupFrom_end depth (Nat.le_of_not_lt h.not_lt), takeGroup]
    rfl
  | case2 =>
    have hlen : i + 1 = s.size := (h.ascii (by decide)).add_byteLength
    rw [groupFrom_backslash hquote depth h, groupFrom_end depth (by omega),
      takeGroup_lone hbrackets.closing_ne hquote]
    rfl
  | case3 c cs ih =>
    have hrest : s.At (i + byteLength ['\\', c]) cs := Stored.At.behind h
    rw [groupFrom_backslash hquote depth h,
      (passesHigh_groupFrom s hbrackets hquote depth).escape h, ih hquote depth hrest, takeGroup,
      found_after]
  | case4 c cs hlone hescape ih =>
    have hc := ne_backslash_of_alone hlone hescape
    have hrest : s.At (i + byteLength [c]) cs := Stored.At.behind h
    rw [groupFrom_cons hbrackets hquote depth hc h, takeGroup_cons fun _ _ h => absurd h hc]
    cases hstep : groupStep opening closing quote depth c with
    | none =>
      have hascii : c.toNat < 0x80 := eq_closing_of_groupStep hstep ▸ hbrackets.closing_lt
      rw [Option.elim_none, Option.elim_none, found_ok, byteLength_ascii hascii]
    | some st =>
      -- the loop goes on at the next byte, and the bytes of `c` behind its first change nothing
      have hst := isQuote_of_groupStep hstep hquote
      have hskip := (passesHigh_groupFrom s hbrackets hst st.2).next h
      rw [Option.elim_some, Option.elim_some, hskip, found_after, ← ih hst st.2 hrest]
      rfl

/-- From its opening bracket on, a group is one bracket deep and never less before it ends. -/
theorem groupEnd_eq (hbrackets : Brackets opening closing)
    (h : s.At i (opening :: cs)) :
    groupEnd s opening closing 0 i = found (i + 1) (takeGroup opening closing none 0 cs) := by
  have hopening := hbrackets.opening_lt
  rw [← groupFrom_eq hbrackets (by simp) 0 (h.ascii hopening), groupEnd, if_pos h.lt, h.byteAt]
  simp only [bind, Except.bind]
  rw [leadChar_of_ascii hopening, if_neg (by simpa using hbrackets.opening_ne),
    hbrackets.not_quote, if_neg Bool.false_ne_true, if_pos (beq_self_eq_true _)]
  rfl

end Loops

/-! ### Components -/

section Components

variable {s : Stored} {i : Nat} {c : Char} {cs : List Char}

theorem callEnd_eq (h : s.At i cs) : callEnd s i = found i (takeCall cs) := by
  have hrest : s.At (i + byteLength (takeIdent cs).text) (takeIdent cs).rest := by
    apply Stored.At.behind
    rwa [← Taken.all, all_takeIdent]
  unfold callEnd takeCall
  rw [identEnd_eq h, found_after, found_ok]
  simp only [bind, Except.bind]
  rw [hrest.peek_beq (by decide)]
  split
  · next hopen =>
    obtain ⟨ds, hds⟩ := List.head?_eq_some_iff.1 (beq_iff_eq.1 hopen)
    rw [hds] at hrest ⊢
    rw [groupEnd_eq brackets_round hrest, takeArguments, found_after]
    rfl
  · next hopen =>
    rw [takeArguments_of_head? (by simpa using hopen), found_ok]
    rfl

theorem callEnd_colon (h : s.At i (':' :: cs)) :
    callEnd s (if s.peek (i + 1) == some ':' then i + 2 else i + 1)
      = found (i + 1) (takePseudo cs) := by
  have hcs := h.ascii (by decide)
  rw [hcs.peek_beq (by decide)]
  split
  · next hcolon =>
    obtain ⟨ds, rfl⟩ := List.head?_eq_some_iff.1 (beq_iff_eq.1 hcolon)
    rw [callEnd_eq (hcs.ascii (by decide)), takePseudo, found_after]
    rfl
  · next hcolon => rw [callEnd_eq hcs, takePseudo_of_head? (by simpa using hcolon)]

theorem stringEnd_eq (hc : isQuote c = true) (h : s.At i (c :: cs)) :
    stringEnd s i = found (i + 1) (takeString c cs) := by
  have hascii := toNat_lt_of_isQuote hc
  unfold stringEnd
  rw [h.byteAt, leadChar_of_ascii hascii]
  exact stringEndFrom_eq hc (h.ascii hascii)

theorem nameEnd_eq (hstart : startsCombinator c cs = false) (h : s.At i (c :: cs)) :
    nameEnd s i = found (i + c.utf8Size) (.ok (takeName c cs)) := by
  unfold nameEnd
  rw [identEnd_eq h]
  rcases takeIdent_eq_takeName hstart with hident | ⟨hident, hname⟩
  · have := c.utf8Size_pos
    rw [hident, found_ok_after, byteLength_cons, byteLength_nil, Nat.add_zero, found_ok]
    simp only [bind, Except.bind]
    rw [if_neg (by omega)]
    rfl
  · rw [hident, hname, found_ok, found_ok]
    simp only [bind, Except.bind, byteLength_nil, Nat.add_zero]
    rw [if_pos trivial, nextChar, h.dropBytes]

/-- The loops find the kind and the end of each component. -/
theorem ending_eq (h : s.At i (c :: cs)) :
    ending s i (leadChar c)
        (c == '>' || c == '+' || c == '~' || (c == '|' && cs.head? == some '|'))
      = ((takeComponent c cs).1, found (i + c.utf8Size) (takeComponent c cs).2) := by
  have hstart : ((c == '>' || c == '+' || c == '~' || (c == '|' && cs.head? == some '|')) ||
      isPlainBlank c) = startsCombinator c cs := by
    unfold startsCombinator
    grind
  change _ = (fun r : ComponentKind × Except ComponentFault Taken =>
    (r.1, found (i + c.utf8Size) r.2)) (takeComponent c cs)
  unfold ending takeComponent
  simp only [isPlainBlank_leadChar, isQuote_leadChar, leadChar_beq, hstart, Char.reduceToNat,
    Nat.reduceLT, apply_ite (fun r : ComponentKind × Except ComponentFault Taken =>
      (r.1, found (i + c.utf8Size) r.2))]
  -- now both sides ask the same questions in the same order, and the answers are compared
  refine ite_congr rfl (fun hjoin => ?_) fun hjoin => ?_
  · rw [combinatorEnd_eq true h, takeCombinator_join hjoin, found_ok_after]
    rfl
  refine ite_congr rfl (fun hc => ?_) fun _ => ?_
  · obtain rfl : c = '[' := beq_iff_eq.1 hc
    rw [groupEnd_eq brackets_square h]
    rfl
  refine ite_congr rfl (fun hc => ?_) fun _ => ?_
  · obtain rfl : c = '(' := beq_iff_eq.1 hc
    rw [groupEnd_eq brackets_round h]
    rfl
  refine ite_congr rfl (fun _ => rfl) fun _ => ?_
  refine ite_congr rfl (fun _ => rfl) fun _ => ?_
  refine ite_congr rfl (fun hc => ?_) fun _ => ?_
  · rw [stringEnd_eq hc h, utf8Size_of_ascii (toNat_lt_of_isQuote hc)]
  refine ite_congr rfl (fun hc => ?_) fun _ => ?_
  · obtain rfl : c = ':' := beq_iff_eq.1 hc
    rw [callEnd_colon h]
    rfl
  refine ite_congr rfl (fun hc => ?_) fun _ => ?_
  · have hascii : c.toNat < 0x80 := by
      rcases Bool.or_eq_true_iff.1 hc with hc | hc <;> rw [beq_iff_eq.1 hc] <;> decide
    rw [identEnd_eq (h.ascii hascii), utf8Size_of_ascii hascii]
  refine ite_congr rfl (fun hc => ?_) fun _ => ?_
  · have hascii : c.toNat < 0x80 := by
      rcases Bool.or_eq_true_iff.1 hc with hc | hc <;> rw [beq_iff_eq.1 hc] <;> decide
    rw [found_ok, utf8Size_of_ascii hascii]
    rfl
  rw [nameEnd_eq (eq_false_of_ne_true hjoin) h]

theorem componentEnd_eq (h : s.At i (c :: cs)) :
    componentEnd s i
      = (found (i + c.utf8Size) (takeComponent c cs).2).map ((takeComponent c cs).1, ·) := by
  unfold componentEnd
  rw [h.byteAt, symbolAt_eq h]
  simp only [bind, Except.bind]
  rw [ending_eq h]
  cases found (i + c.utf8Size) (takeComponent c cs).2 <;> rfl

/-- From every place between two components, the scan reads the rest of the selector as
`components` does. -/
theorem componentsFrom_eq (h : s.At i cs) :
    componentsFrom s i = (components cs).mapError .fault := by
  fun_induction components cs generalizing i with
  | case1 =>
    rw [componentsFrom, if_neg h.not_lt]
    rfl
  | case2 c cs e hc =>
    rw [componentsFrom, if_pos h.lt, componentEnd_eq h, hc]
    rfl
  | case3 c cs t hc _ ih =>
    have hcs : c :: cs = c :: t.text ++ t.rest :=
      congrArg (c :: ·) (all_of_takeComponent hc).symm
    have hend : i + c.utf8Size + byteLength t.text = i + byteLength (c :: t.text) := by
      rw [byteLength_cons, Nat.add_assoc]
    have hlt : i < i + byteLength (c :: t.text) := by
      have := c.utf8Size_pos
      rw [byteLength_cons]
      omega
    rw [componentsFrom, if_pos h.lt, componentEnd_eq h, hc, found_ok, hend]
    rw [hcs] at h
    simp only [bind, Except.bind, Except.map]
    rw [h.slice]
    simp only
    rw [if_pos hlt, ih h.behind]
    cases components t.rest <;> rfl

end Components

end Scan

/-- On every text the scan reads what `components` reads. -/
theorem scan_eq (selector : String) :
    scan selector = (components selector.toList).mapError .fault :=
  Scan.componentsFrom_eq (Stored.ofString selector).at_start

/-- No byte outside the text is read, no slice starts or ends inside a character, no group is closed
that is not open, and every loop moves on. -/
theorem scan_ne_breach (selector : String) (b : Breach) :
    scan selector ≠ .error (.breach b) := by
  rw [scan_eq]
  cases components selector.toList with
  | error e => simp [Except.mapError]
  | ok ks => simp [Except.mapError]

end ComponentCompiler.Style
