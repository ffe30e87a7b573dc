import ComponentCompiler.Proofs.Style.ByteScan
import ComponentCompiler.Proofs.Style.Watch

/-!
# The texts of items, byte by byte

The selectors in front of a block and the two sides of a declaration are cut out of the text of an
item.  Here this is done as it is done in memory, with an index into the bytes of the text and with
slices between two indices.  Comments are removed by copying what stands between them; behind a
backslash in a string, and everywhere in selectors, the index moves on by two bytes, wherever that
is.

Every step that could go wrong is checked (`Stored`), and none does.

## Main definitions

* `stringEnd`, `commentEnd` — the ends of the string and of the comment at an index.
* `withoutComments`, `selectorsOf`, `declarationOf` — the texts of items.

## Main results

* `withoutComments_eq`, `selectorsOf_eq`, `declarationOf_eq` — they are the same as those cut out of
  characters.
-/

namespace ComponentCompiler.Style

open Text

namespace ByteParse

/-! ### Strings and comments -/

/-- The index behind the string that starts at an index. -/
def stringEnd (s : Stored) (i : Nat) : Except (Halt CssError) Nat :=
  match Scan.stringEnd s i with
  | .ok j => .ok j
  | .error (.breach b) => .error (.breach b)
  | .error (.fault _) => .error (.fault (.fault .unterminatedString i))

/-- The index behind the comment that starts at an index. -/
def commentEnd (s : Stored) (i : Nat) : Except (Halt CssError) Nat := do
  match ← s.find ['*', '/'] (i + 2) with
  | some j => return j + 2
  | none => .error (.fault (.fault .unterminatedComment i))

/-- Whether a comment starts at an index with the byte `c`. -/
def isCommentAt (s : Stored) (c : Char) (i : Nat) : Bool :=
  c == '/' && s.peek (i + 1) == some '*'

/-! ### Texts without comments -/

/-- Copy a text from an index on without its comments.  `quote` is the string that the index stands
in, and what is in front of `copied` is copied already. -/
def stripAt (s : Stored) (quote : Option Char) (copied i : Nat) :
    Except (Halt CssError) (List Char) := do
  if i < s.size then
    let c ← s.byteAt i
    match quote with
    | some q =>
        if c == '\\' then stripAt s (some q) copied (i + 2)
        else stripAt s (if c == q then none else some q) copied (i + 1)
    | none =>
        if isCommentAt s c i then
          let front ← s.slice copied i
          let stop := ((← s.find ['*', '/'] (i + 2)).map (· + 2)).getD s.size
          if s.size - stop < s.size - i then return front ++ (← stripAt s none stop stop)
          else .error (.breach .stuck)
        else stripAt s (if isQuote c then some c else none) copied (i + 1)
  else if copied < s.size then s.slice copied s.size
  else return []
termination_by s.size - i

/-- A text without its comments. -/
def withoutComments (cs : List Char) : Except (Halt CssError) (List Char) :=
  stripAt (.of cs) none 0 0

/-! ### Selectors and declarations -/

/-- Cut a list of selectors at its commas from an index on; `start` is where the selector under way
starts. -/
def selectorsAt (s : Stored) (quote : Option Char) (depth start i : Nat) :
    Except (Halt CssError) (List (List Char)) := do
  if i < s.size then
    let c ← s.byteAt i
    if c == '\\' then selectorsAt s quote depth start (i + 2)
    else
      match quote with
      | some q => selectorsAt s (if c == q then none else some q) depth start (i + 1)
      | none =>
          if isQuote c then selectorsAt s (some c) depth start (i + 1)
          else if c == '(' || c == '[' then selectorsAt s none (depth + 1) start (i + 1)
          else if c == ')' || c == ']' then selectorsAt s none (depth - 1) start (i + 1)
          else if c == ',' && depth == 0 then
            return (← s.slice start i) :: (← selectorsAt s none 0 (i + 1) (i + 1))
          else selectorsAt s none depth start (i + 1)
  else return [← s.slice (min start s.size) s.size]
termination_by s.size - i

/-- The selectors in front of a block. -/
def selectorsOf (cs : List Char) : Except (Halt CssError) (List String) := do
  let raw ← selectorsAt (.of (← withoutComments cs)) none 0 0 0
  return (raw.map trim).filterMap fun s => if s.isEmpty then none else some (String.ofList s)

/-- The declaration that starts at an index, from its text. -/
def declarationOf (cs : List Char) (start : Nat) : Except (Halt CssError) Item := do
  let s := Stored.of (← withoutComments cs)
  match ← s.find [':'] 0 with
  | none => .error (.fault (.fault .missingColon start))
  | some colon =>
      let property ← s.slice 0 colon
      let value ← s.slice (colon + 1) s.size
      return .declaration (String.ofList (trim property)) (String.ofList (trim value))

section Equalities

variable {s : Stored} {i : Nat} {c : Char} {cs rest : List Char}

theorem isMark_close : IsMark ['*', '/'] := ⟨by simp, by simp⟩

theorem isCommentAt_eq (h : s.At i (c :: cs)) :
    isCommentAt s (leadChar c) i = (c == '/' && cs.head? == some '*') := by
  rw [isCommentAt, leadChar_beq (by decide)]
  by_cases hc : c = '/'
  · subst hc
    rw [(h.ascii (by decide)).peek_beq (by decide)]
  · rw [beq_false_of_ne hc, Bool.false_and, Bool.false_and]

theorem isCommentAt_of_high (hc : 0x80 ≤ c.toNat) : isCommentAt s c i = false := by
  rw [isCommentAt, beq_of_high hc (by decide), Bool.false_and]

/-- A comment starts with its two marks. -/
theorem mark_cases (c : Char) (cs : List Char) :
    (∃ ds, c = '/' ∧ cs = '*' :: ds) ∨ (c == '/' && cs.head? == some '*') = false := by
  by_cases hmark : (c == '/' && cs.head? == some '*') = true
  · simp only [Bool.and_eq_true, beq_iff_eq] at hmark
    obtain ⟨ds, hds⟩ := List.head?_eq_some_iff.1 hmark.2
    exact .inl ⟨ds, hmark.1, hds⟩
  · exact .inr (by simpa using hmark)

/-- A string that a character leaves open is one that was open. -/
theorem isQuote_of_mem_left {q : Char} (hq : isQuote q = true) (c : Char) :
    ∀ q' ∈ (if c == q then none else some q), isQuote q' = true := by
  intro q' hq'
  split at hq'
  · cases hq'
  · exact Option.some.inj hq' ▸ hq

/-! ### Removing comments -/

theorem stripFrom_comment (cs : List Char) :
    stripFrom .comment cs
      = ((cut? ['*', '/'] cs).map fun (_, r) => stripFrom .outside r).getD [] := by
  fun_induction cut? ['*', '/'] cs with
  | case1 => rfl
  | case2 c cs hmark =>
    obtain ⟨ds, hds⟩ := List.isPrefixOf_iff_prefix.1 hmark
    rw [← hds]
    rfl
  | case3 c cs hmark ih =>
    have hstep : stripFrom .comment (c :: cs) = stripFrom .comment cs := by
      rw [stripFrom]
      rintro ds rfl rfl
      exact hmark rfl
    rw [hstep, ih]
    cases cut? ['*', '/'] cs <;> rfl

theorem stripFrom_outside (h : (c == '/' && cs.head? == some '*') = false) :
    stripFrom .outside (c :: cs)
      = c :: stripFrom (if isQuote c then .string c else .outside) cs := by
  rw [stripFrom]
  rintro ds rfl rfl
  cases h

theorem stripFrom_lone (q : Char) : stripFrom (.string q) ['\\'] = ['\\'] := by
  rw [stripFrom]
  · split <;> rfl
  · exact fun _ _ _ h => by cases h

/-- Where stripping stands. -/
def standpoint (quote : Option Char) : Strip := quote.elim .outside .string

theorem passesHigh_stripAt {quote : Option Char} (hquote : ∀ q ∈ quote, isQuote q = true)
    (copied : Nat) : s.PassesHigh (stripAt s quote copied) := by
  intro i c hc hhigh
  conv_lhs => rw [stripAt]
  rw [if_pos (Stored.lt_of_peek hc), Stored.byteAt_of_peek hc]
  simp only [bind, Except.bind]
  cases quote with
  | none =>
    simp only [isCommentAt_of_high hhigh, Scan.isQuote_of_high hhigh]
    rfl
  | some q =>
    have hq := Scan.toNat_lt_of_isQuote (hquote q rfl)
    simp only [beq_of_high hhigh hq, beq_of_high hhigh (by decide : '\\'.toNat < 0x80)]
    rfl

/-- Behind the end of the text, what is left to copy is copied. -/
theorem stripAt_end {copied : Nat} (h : s.At copied rest) (quote : Option Char)
    (hi : ¬ i < s.size) : stripAt s quote copied i = .ok rest := by
  rw [stripAt, if_neg hi]
  cases rest with
  | nil =>
    rw [if_neg h.not_lt]
    rfl
  | cons c cs =>
    have hall : s.At copied (c :: cs ++ []) := by rwa [List.append_nil]
    rw [if_pos h.lt, ← h.add_byteLength, hall.slice]

theorem stripAt_string {q : Char} (hq : isQuote q = true) (copied : Nat) (h : s.At i (c :: cs)) :
    stripAt s (some q) copied i
      = if c == '\\' then stripAt s (some q) copied (i + 2)
        else stripAt s (if c == q then none else some q) copied (i + 1) := by
  rw [stripAt, if_pos h.lt, h.byteAt]
  simp only [bind, Except.bind, leadChar_beq (Scan.toNat_lt_of_isQuote hq),
    leadChar_beq (by decide : '\\'.toNat < 0x80)]

theorem stripAt_outside (copied : Nat) (h : s.At i (c :: cs))
    (hmark : (c == '/' && cs.head? == some '*') = false) :
    stripAt s none copied i = stripAt s (if isQuote c then some c else none) copied (i + 1) := by
  have hquote : (if isQuote c then some (leadChar c) else none)
      = if isQuote c then some c else none := by
    split
    · next hc => rw [leadChar_of_ascii (Scan.toNat_lt_of_isQuote hc)]
    · rfl
  rw [stripAt, if_pos h.lt, h.byteAt]
  simp only [bind, Except.bind, isCommentAt_eq h, hmark, Scan.isQuote_leadChar, hquote]
  rfl

/-- A comment is passed over; without an end it is the rest of the text. -/
theorem stripAt_comment {copied : Nat} {front : List Char}
    (h : s.At copied (front ++ '/' :: '*' :: cs)) (stop : Nat)
    (hstop : ((cut? ['*', '/'] cs).map
      fun (inside, _) => copied + byteLength front + 2 + byteLength inside + 2).getD s.size = stop)
    (hlt : copied + byteLength front < stop) :
    stripAt s none copied (copied + byteLength front)
      = (stripAt s none stop stop).map (front ++ ·) := by
  have hi := h.behind
  have hcs : s.At (copied + byteLength front + 2) cs := (hi.ascii (by decide)).ascii (by decide)
  have hsize := hi.lt
  conv_lhs => rw [stripAt]
  rw [if_pos hi.lt, hi.byteAt]
  simp only [bind, Except.bind, isCommentAt_eq hi, h.slice, hcs.find isMark_close, Option.map_map,
    Function.comp_def, hstop]
  rw [if_pos (by rfl), if_pos (by omega)]
  cases stripAt s none stop stop <;> rfl

/-- Texts of less than `n` characters are copied as they are stripped: `front` is what stands
between what is copied and the index. -/
def StripsBelow (s : Stored) (n : Nat) : Prop :=
  ∀ {quote : Option Char} {copied : Nat} {front cs : List Char}, cs.length < n →
    (∀ q ∈ quote, isQuote q = true) → s.At copied (front ++ cs) →
    stripAt s quote copied (copied + byteLength front)
      = .ok (front ++ stripFrom (standpoint quote) cs)

section Strip

variable {n copied : Nat} {front : List Char}

/-- What was passed over is added to what is left to copy. -/
theorem StripsBelow.pass (hs : StripsBelow s n) (mid : List Char) (hmid : mid ≠ [])
    (hn : (mid ++ rest).length ≤ n) {quote : Option Char} (hquote : ∀ q ∈ quote, isQuote q = true)
    (h : s.At copied (front ++ (mid ++ rest))) :
    stripAt s quote copied (copied + byteLength front + byteLength mid)
      = .ok (front ++ (mid ++ stripFrom (standpoint quote) rest)) := by
  have hpos := List.length_pos_iff.2 hmid
  rw [List.length_append] at hn
  rw [← List.append_assoc] at h
  have hmoved := hs (by omega) hquote h
  rwa [byteLength_append, ← Nat.add_assoc, List.append_assoc] at hmoved

theorem StripsBelow.next (hs : StripsBelow s n) (hn : cs.length < n) {quote : Option Char}
    (hquote : ∀ q ∈ quote, isQuote q = true) (h : s.At copied (front ++ c :: cs)) :
    stripAt s quote copied (copied + byteLength front + 1)
      = .ok (front ++ c :: stripFrom (standpoint quote) cs) := by
  have hmoved := hs.pass [c] (List.cons_ne_nil _ _) hn hquote h
  rw [byteLength_cons, byteLength_nil, Nat.add_zero] at hmoved
  rw [(passesHigh_stripAt hquote copied).next h.behind]
  exact hmoved

/-- In a string everything is copied, and a backslash hides what is behind it. -/
theorem StripsBelow.string (hs : StripsBelow s n) (hn : cs.length < n) {q : Char}
    (hq : isQuote q = true) (h : s.At copied (front ++ c :: cs)) :
    stripAt s (some q) copied (copied + byteLength front)
      = .ok (front ++ stripFrom (.string q) (c :: cs)) := by
  have hi := h.behind
  have hquote : ∀ q' ∈ some q, isQuote q' = true := by simpa using hq
  rw [stripAt_string hq copied hi]
  by_cases hc : c = '\\'
  · subst hc
    rw [if_pos (by rfl)]
    cases cs with
    | nil =>
      -- the backslash takes the index behind the end of the text
      have hend := (hi.ascii (by decide)).not_lt
      rw [stripAt_end h (some q) (by omega), stripFrom_lone]
    | cons d ds =>
      rw [(passesHigh_stripAt hquote copied).escape hi]
      exact hs.pass ['\\', d] (List.cons_ne_nil _ _) hn hquote h
  · rw [if_neg (by simpa using hc), hs.next hn (isQuote_of_mem_left hq c) h, stripFrom]
    · split <;> rfl
    · exact fun _ _ hb => absurd hb hc

/-- A comment is left out up to its end. -/
theorem StripsBelow.comment (hs : StripsBelow s n) (hn : cs.length < n)
    (h : s.At copied (front ++ '/' :: '*' :: cs)) :
    stripAt s none copied (copied + byteLength front) = .ok (front ++ stripFrom .comment cs) := by
  have hcs : s.At (copied + byteLength front + 2) cs :=
    (h.behind.ascii (by decide)).ascii (by decide)
  rw [stripFrom_comment]
  cases hcut : cut? ['*', '/'] cs with
  | none =>
    rw [stripAt_comment h s.size (by rw [hcut]; rfl) h.behind.lt,
      stripAt_end s.at_end none (Nat.lt_irrefl _)]
    rfl
  | some cut =>
    obtain ⟨inside, rest⟩ := cut
    obtain rfl := cut?_eq_some hcut
    have hrest : s.At (copied + byteLength front + 2 + byteLength inside + 2) ([] ++ rest) :=
      (hcs.behind.ascii (by decide)).ascii (by decide)
    have hshorter : rest.length < n := by
      rw [List.length_append, List.length_append] at hn
      omega
    have hbehind := hs hshorter (by simp : ∀ q ∈ (none : Option Char), isQuote q = true) hrest
    rw [byteLength_nil, Nat.add_zero] at hbehind
    rw [stripAt_comment h (copied + byteLength front + 2 + byteLength inside + 2)
      (by rw [hcut]; rfl) (by omega), hbehind]
    rfl

/-- Outside of strings and comments everything is copied. -/
theorem StripsBelow.outside (hs : StripsBelow s n) (hn : cs.length < n)
    (hmark : (c == '/' && cs.head? == some '*') = false) (h : s.At copied (front ++ c :: cs)) :
    stripAt s none copied (copied + byteLength front)
      = .ok (front ++ stripFrom .outside (c :: cs)) := by
  have hquote : ∀ q ∈ (if isQuote c then some c else none), isQuote q = true := by
    intro q hq
    split at hq
    · next hc => exact Option.some.inj hq ▸ hc
    · cases hq
  rw [stripAt_outside copied h.behind hmark, hs.next hn hquote h, stripFrom_outside hmark]
  split <;> rfl

theorem stripsBelow (s : Stored) (n : Nat) : StripsBelow s n := by
  induction n with
  | zero => exact fun hn => absurd hn (Nat.not_lt_zero _)
  | succ n ih =>
    intro quote copied front cs hn hquote h
    cases cs with
    | nil =>
      rw [stripAt_end h quote h.behind.not_lt]
      cases quote <;> rfl
    | cons c cs =>
      have hcs : cs.length < n := Nat.lt_of_succ_lt_succ hn
      cases quote with
      | some q => exact ih.string hcs (hquote q rfl) h
      | none =>
        rcases mark_cases c cs with ⟨ds, rfl, rfl⟩ | hmark
        · exact ih.comment (Nat.lt_of_succ_lt hcs) h
        · exact ih.outside hcs hmark h

end Strip

theorem withoutComments_eq (cs : List Char) : withoutComments cs = .ok (stripComments cs) := by
  have hstart : (Stored.of cs).At 0 ([] ++ cs) := (Stored.of cs).at_start
  have hquote : ∀ q ∈ (none : Option Char), isQuote q = true := by simp
  exact stripsBelow _ _ (Nat.lt_succ_self _) hquote hstart

/-! ### Cutting at commas -/

theorem passesHigh_selectorsAt {quote : Option Char} (hquote : ∀ q ∈ quote, isQuote q = true)
    (depth start : Nat) : s.PassesHigh (selectorsAt s quote depth start) := by
  intro i c hc hhigh
  conv_lhs => rw [selectorsAt]
  rw [if_pos (Stored.lt_of_peek hc), Stored.byteAt_of_peek hc]
  simp only [bind, Except.bind]
  rw [if_neg (by simp [beq_of_high hhigh])]
  cases quote with
  | none => simp [Scan.isQuote_of_high hhigh, beq_of_high hhigh]
  | some q => simp [beq_of_high hhigh (Scan.toNat_lt_of_isQuote (hquote q rfl))]

/-- Behind the end of the text, the selector under way is the last one. -/
theorem selectorsAt_end {start : Nat} (h : s.At start rest) (quote : Option Char) (depth : Nat)
    (hi : ¬ i < s.size) : selectorsAt s quote depth start i = .ok [rest] := by
  have hall : s.At start (rest ++ []) := by rwa [List.append_nil]
  rw [selectorsAt, if_neg hi, Nat.min_eq_left h.le, ← h.add_byteLength, hall.slice]
  rfl

theorem selectorsAt_escape (quote : Option Char) (depth start : Nat) (h : s.At i ('\\' :: cs)) :
    selectorsAt s quote depth start i = selectorsAt s quote depth start (i + 2) := by
  conv_lhs => rw [selectorsAt]
  rw [if_pos h.lt, h.byteAt_ascii (by decide)]
  rfl

theorem selectorsAt_string {q : Char} (hq : isQuote q = true) (depth start : Nat) (hc : c ≠ '\\')
    (h : s.At i (c :: cs)) :
    selectorsAt s (some q) depth start i
      = selectorsAt s (if c == q then none else some q) depth start (i + 1) := by
  conv_lhs => rw [selectorsAt]
  rw [if_pos h.lt, h.byteAt]
  simp only [bind, Except.bind, leadChar_beq (Scan.toNat_lt_of_isQuote hq),
    leadChar_beq (by decide : '\\'.toNat < 0x80)]
  rw [if_neg (by simpa using hc)]

theorem selectorsAt_outside (depth start : Nat) (hc : c ≠ '\\') (h : s.At i (c :: cs)) :
    selectorsAt s none depth start i
      = if isQuote c then selectorsAt s (some c) depth start (i + 1)
        else if c == '(' || c == '[' then selectorsAt s none (depth + 1) start (i + 1)
        else if c == ')' || c == ']' then selectorsAt s none (depth - 1) start (i + 1)
        else if c == ',' && depth == 0 then do
          return (← s.slice start i) :: (← selectorsAt s none 0 (i + 1) (i + 1))
        else selectorsAt s none depth start (i + 1) := by
  have hb : ¬ (c == '\\') = true := by simpa using hc
  have hascii : isQuote c = true → leadChar c = c :=
    fun hq => leadChar_of_ascii (Scan.toNat_lt_of_isQuote hq)
  conv_lhs => rw [selectorsAt]
  rw [if_pos h.lt, h.byteAt]
  simp only [bind, Except.bind, Scan.isQuote_leadChar, leadChar_beq (by decide : '\\'.toNat < 0x80),
    leadChar_beq (by decide : '('.toNat < 0x80), leadChar_beq (by decide : '['.toNat < 0x80),
    leadChar_beq (by decide : ')'.toNat < 0x80), leadChar_beq (by decide : ']'.toNat < 0x80),
    leadChar_beq (by decide : ','.toNat < 0x80), if_neg hb]
  split
  · next hq => rw [hascii hq]
  · rfl

/-- A backslash at the end of the text takes the index behind the end. -/
theorem selectorsAt_lone {start : Nat} {read : List Char} (h : s.At start (read.reverse ++ ['\\']))
    (quote : Option Char) (depth : Nat) :
    selectorsAt s quote depth start (start + byteLength read.reverse)
      = .ok [('\\' :: read).reverse] := by
  have hend := (h.behind.ascii (by decide)).not_lt
  rw [List.reverse_cons, selectorsAt_escape quote depth start h.behind]
  exact selectorsAt_end h quote depth (by omega)

/-- A character that was passed over is part of the selector under way. -/
theorem selectorsAt_next {quote : Option Char} (hquote : ∀ q ∈ quote, isQuote q = true)
    (depth : Nat) {start : Nat} {read : List Char} (h : s.At start (read.reverse ++ c :: cs)) :
    selectorsAt s quote depth start (start + byteLength read.reverse + 1)
      = selectorsAt s quote depth start (start + byteLength (c :: read).reverse) := by
  rw [(passesHigh_selectorsAt hquote depth start).next h.behind, List.reverse_cons,
    byteLength_append, byteLength_cons, byteLength_nil, Nat.add_zero, ← Nat.add_assoc]

/-- A character that escapes nothing is a backslash at the end of the text, or no backslash. -/
theorem lone_or_ne_backslash (h : ∀ d ds, c = '\\' → cs = d :: ds → False) :
    c = '\\' ∧ cs = [] ∨ c ≠ '\\' := by
  by_cases hc : c = '\\'
  · cases cs with
    | nil => exact .inl ⟨hc, rfl⟩
    | cons d ds => exact (h d ds hc rfl).elim
  · exact .inr hc

theorem at_passed {start : Nat} {read : List Char} (h : s.At start (read.reverse ++ c :: cs)) :
    s.At start ((c :: read).reverse ++ cs) := by
  rwa [List.reverse_cons, List.append_assoc, List.singleton_append]

/-- A list of selectors is cut as its characters are: the selector under way is `read`, latest
character first. -/
theorem selectorsAt_eq {quote : Option Char} (hquote : ∀ q ∈ quote, isQuote q = true)
    {depth start : Nat} {read : List Char} (h : s.At start (read.reverse ++ cs)) :
    selectorsAt s quote depth start (start + byteLength read.reverse)
      = .ok (cutSelectors quote depth read cs) := by
  fun_induction cutSelectors quote depth read cs generalizing start with
  | case1 quote depth read c cs ih =>
    have hread : (c :: '\\' :: read).reverse = read.reverse ++ ['\\', c] := by simp
    rw [selectorsAt_escape quote depth start h.behind,
      (passesHigh_selectorsAt hquote depth start).escape h.behind, Nat.add_assoc,
      ← byteLength_append, ← hread]
    exact ih hquote (at_passed (at_passed h))
  | case2 depth read c cs hescape q ih =>
    have hq := hquote q rfl
    rcases lone_or_ne_backslash hescape with ⟨rfl, rfl⟩ | hc
    · rw [selectorsAt_lone h, cutSelectors]
    · have hquote' := isQuote_of_mem_left hq c
      rw [selectorsAt_string hq depth start hc h.behind, selectorsAt_next hquote' depth h]
      exact ih hquote' (at_passed h)
  | case3 depth read c cs hescape hq ih =>
    have hquote' : ∀ q ∈ some c, isQuote q = true := by simpa using hq
    rw [selectorsAt_outside depth start (ne_backslash_of_isQuote hq) h.behind, if_pos hq,
      selectorsAt_next hquote' depth h]
    exact ih hquote' (at_passed h)
  | case4 depth read c cs hescape hq hopen ih =>
    have hc : c ≠ '\\' := ne_of_class (p := fun c => c == '(' || c == '[') hopen rfl
    rw [selectorsAt_outside depth start hc h.behind, if_neg hq, if_pos hopen,
      selectorsAt_next hquote (depth + 1) h]
    exact ih hquote (at_passed h)
  | case5 depth read c cs hescape hq hopen hclose ih =>
    have hc : c ≠ '\\' := ne_of_class (p := fun c => c == ')' || c == ']') hclose rfl
    rw [selectorsAt_outside depth start hc h.behind, if_neg hq, if_neg hopen, if_pos hclose,
      selectorsAt_next hquote (depth - 1) h]
    exact ih hquote (at_passed h)
  | case6 depth read c cs hescape hq hopen hclose hcomma ih =>
    obtain rfl : c = ',' := eq_of_beq (Bool.and_eq_true_iff.1 hcomma).1
    -- the next selector starts behind the comma, with nothing read of it
    have hcs : s.At (start + byteLength read.reverse + 1) ([] ++ cs) := h.behind.ascii (by decide)
    have hrest := ih hquote hcs
    rw [List.reverse_nil, byteLength_nil, Nat.add_zero] at hrest
    rw [selectorsAt_outside depth start (by decide) h.behind, if_neg hq, if_neg hopen,
      if_neg hclose, if_pos hcomma, h.slice, hrest]
    rfl
  | case7 depth read c cs hescape hq hopen hclose hcomma ih =>
    rcases lone_or_ne_backslash hescape with ⟨rfl, rfl⟩ | hc
    · rw [selectorsAt_lone h, cutSelectors]
    · rw [selectorsAt_outside depth start hc h.behind, if_neg hq, if_neg hopen, if_neg hclose,
        if_neg hcomma, selectorsAt_next hquote depth h]
      exact ih hquote (at_passed h)
  | case8 quote depth read =>
    rw [List.append_nil] at h
    have hend : s.At (start + byteLength read.reverse) [] := by
      apply Stored.At.behind
      rwa [List.append_nil]
    exact selectorsAt_end h quote depth hend.not_lt

theorem selectorsOf_eq (cs : List Char) : selectorsOf cs = .ok (splitSelectors cs) := by
  have hstart : (Stored.of (stripComments cs)).At 0 ([].reverse ++ stripComments cs) :=
    (Stored.of (stripComments cs)).at_start
  have hquote : ∀ q ∈ (none : Option Char), isQuote q = true := by simp
  have hcut : selectorsAt (.of (stripComments cs)) none 0 0 0 = _ := selectorsAt_eq hquote hstart
  rw [selectorsOf, withoutComments_eq]
  simp only [bind, Except.bind]
  rw [hcut]
  rfl

/-! ### Declarations -/

theorem cut?_colon (cs : List Char) :
    cut? [':'] cs = none ∧ cs.drop (cs.takeWhile (· != ':')).length = [] ∨
      ∃ v, cut? [':'] cs = some (cs.takeWhile (· != ':'), v) ∧
        cs.drop (cs.takeWhile (· != ':')).length = ':' :: v := by
  induction cs with
  | nil => exact .inl ⟨rfl, rfl⟩
  | cons c cs ih =>
    by_cases hc : c = ':'
    · subst hc
      exact .inr ⟨cs, rfl, rfl⟩
    · have hmark : List.isPrefixOf [':'] (c :: cs) = false := by
        simp [List.isPrefixOf, Ne.symm hc]
      rw [cut?, if_neg (by rw [hmark]; decide), List.takeWhile_cons_of_pos (by simpa using hc),
        List.length_cons, List.drop_succ_cons]
      rcases ih with ⟨hcut, hdrop⟩ | ⟨v, hcut, hdrop⟩
      · rw [hcut]
        exact .inl ⟨rfl, hdrop⟩
      · rw [hcut]
        exact .inr ⟨v, rfl, hdrop⟩

/-- A declaration is cut at its colon as its characters are. -/
theorem declarationOf_eq (cs : List Char) (start : Nat) :
    declarationOf cs start
      = (declaration? cs).elim (.error (.fault (.fault .missingColon start))) .ok := by
  have hstart : (Stored.of (stripComments cs)).At 0 (stripComments cs) :=
    (Stored.of (stripComments cs)).at_start
  have hcolon : IsMark [':'] := isMark_singleton.2 (by decide)
  rw [declarationOf, withoutComments_eq]
  simp only [bind, Except.bind, hstart.find hcolon, declaration?]
  rcases cut?_colon (stripComments cs) with ⟨hcut, hdrop⟩ | ⟨v, hcut, hdrop⟩
  · rw [hcut, hdrop]
    rfl
  · -- the two slices are what stands on the two sides of the colon
    have hcs := cut?_eq_some hcut
    have hsides : (Stored.of (stripComments cs)).At 0
        ((stripComments cs).takeWhile (· != ':') ++ ([':'] ++ v)) := by
      rw [← hcs]
      exact hstart
    have hvalue : (Stored.of (stripComments cs)).At
        (0 + byteLength ((stripComments cs).takeWhile (· != ':')) + 1) (v ++ []) := by
      rw [List.append_nil]
      exact hsides.behind.ascii (by decide)
    have hsize := hvalue.add_byteLength
    rw [List.append_nil] at hsize
    rw [hcut, hdrop]
    simp only [Option.map_some, hsides.slice, ← hsize, hvalue.slice]
    rfl

end Equalities

end ByteParse

end ComponentCompiler.Style
