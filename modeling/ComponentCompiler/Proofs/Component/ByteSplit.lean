import ComponentCompiler.Proofs.Component.Segment
import ComponentCompiler.Proofs.Style.ByteScan

/-!
# Splitting a component, byte by byte

`divide` and `assemble` take a component apart as a list of characters.  Here the same is done as it
is done in memory: with an index into the bytes of the source that nested loops move on by different
amounts, with searches for single bytes and marks, and with slices of the source between two
indices.

Every step that could go wrong is checked (`Stored`).  The main result is that none does: on every
source, `splitBytes` gives what `split` gives.

## Main definitions

* `TagAt`, `openTagAt` — the opening tag at an index.
* `closeAt` — where the content of a block ends, and where its closing tag does.
* `splitBytes` — the parts of a component, read from its bytes.

## Main results

* `splitBytes_eq` — the parts are the same, and no check fails.
-/

namespace ComponentCompiler

open Text
open Style (isQuote)

/-! ### The splitter -/

namespace ByteSplit

variable {ε : Type} (s : Stored)

/-- The value of an attribute at an index behind the equals sign, and the index behind it. -/
def textAt (i : Nat) : Except (Halt ε) (Option (List Char × Nat)) :=
  match (s.peek i).filter isQuote with
  | some quote => do
      match ← s.find [quote] (i + 1) with
      | none => return none
      | some j => return some (← s.slice (i + 1) j, j + 1)
  | none => do
      let j ← s.skip isBareChar i
      return some (← s.slice i j, j)

/-- The value of an attribute at an index behind its name, and the index behind it. -/
def valueAt (i : Nat) : Except (Halt ε) (Option (List Char × Nat)) := do
  if s.peek i == some '=' then textAt s (← s.skip isGap (i + 1)) else return some ([], i)

/-- The attribute at an index, and the index behind it. -/
def attributeAt (i : Nat) : Except (Halt ε) (Option ((List Char × List Char) × Nat)) := do
  let j ← s.skip isAttributeChar i
  let name ← s.slice i j
  let value ← valueAt s (← s.skip isGap j)
  return value.map fun (v, k) => ((name, v), k)

/-- An opening tag with the index behind it. -/
structure TagAt where
  /-- Its name. -/
  name : List Char
  /-- Its attributes in source order. -/
  attributes : List (List Char × List Char)
  /-- Whether the tag is a block without content. -/
  selfClosing : Bool
  /-- The index behind the tag. -/
  stop : Nat

/-- Read attributes from an index up to the end of the tag. -/
def attributesAt (name : List Char) (attributes : List (List Char × List Char)) (i : Nat) :
    Except (Halt ε) (Option TagAt) := do
  let j ← s.skip isPlainBlank i
  if j < s.size then
    let c ← s.byteAt j
    if c == '>' then return some ⟨name, attributes, false, j + 1⟩
    else if c == '/' then
      if s.peek (j + 1) == some '>' then return some ⟨name, attributes, true, j + 2⟩
      else if s.size - (j + 1) < s.size - i then attributesAt name attributes (j + 1)
      else .error (.breach .stuck)
    else
      match ← attributeAt s j with
      | none => return none
      | some (a, k) =>
          if s.size - k < s.size - i then attributesAt name (attributes ++ [a]) k
          else .error (.breach .stuck)
  else return none
termination_by s.size - i

/-- The opening tag whose angle bracket is at an index. -/
def openTagAt (i : Nat) : Except (Halt ε) (Option TagAt) := do
  let j ← s.skip isTagNameChar (i + 1)
  if j = i + 1 then return none
  else if (← s.byteAt (i + 1)).isAlpha then attributesAt s (← s.slice (i + 1) j) [] j
  else return none

/-- Whether the bytes from an index on are a name in upper or lower case and a delimiter. -/
def spelledAt : List Char → Nat → Except (Halt ε) Bool
  | [], i => do return isTagDelimiter (← s.byteAt i)
  | c :: name, i => do
      if (← s.byteAt i).toLower == c.toLower then spelledAt name (i + 1) else return false

/-- Whether a name starts at an index with a delimiter behind it. -/
def nameAt (name : List Char) (i : Nat) : Except (Halt ε) Bool :=
  if i ≤ s.size then
    if i + byteLength name < s.size then spelledAt s name i else return false
  else .error (.breach .outside)

/-- Whether the bracket at an index starts a closing tag of a name. -/
def closesAt (name : List Char) (i : Nat) : Except (Halt ε) Bool :=
  if s.peek (i + 1) == some '/' then nameAt s name (i + 2) else .ok false

/-- Whether the bracket at an index starts an opening tag of a name that counts. -/
def opensAt (name : List Char) (nested : Bool) (i : Nat) : Except (Halt ε) Bool :=
  if nested then nameAt s name (i + 1) else .ok false

/-- Find the tag that closes a block from an index on, with the number of blocks that are open:
where the tag starts, and where it ends. -/
def closeAt (name : List Char) (nested : Bool) (depth i : Nat) :
    Except (Halt ε) (Option (Nat × Nat)) := do
  if i < s.size then
    match ← s.find ['<'] i with
    | none => return none
    | some p =>
        if ← closesAt s name p then
          match ← s.find ['>'] (p + 2 + byteLength name) with
          | none => return none
          | some q =>
              if depth = 0 then .error (.breach .underflow)
              else if depth - 1 = 0 then return some (p, q + 1)
              else if s.size - (q + 1) < s.size - i then closeAt name nested (depth - 1) (q + 1)
              else .error (.breach .stuck)
        else if ← opensAt s name nested p then
          match ← s.find ['>'] (p + 1 + byteLength name) with
          | none => return none
          | some q =>
              if q = 0 then .error (.breach .underflow)
              else
                let c ← s.byteAt (q - 1)
                if s.size - (q + 1) < s.size - i then
                  closeAt name nested (if c == '/' then depth else depth + 1) (q + 1)
                else .error (.breach .stuck)
        else if s.size - (p + 1) < s.size - i then closeAt name nested depth (p + 1)
        else .error (.breach .stuck)
  else return none
termination_by s.size - i

/-- What is found at an angle bracket. -/
inductive Found where
  /-- A comment that is never closed. -/
  | ending
  /-- Something that is passed over, up to an index. -/
  | passed (i : Nat)
  /-- A block, and the index behind it. -/
  | block (b : FoundBlock) (i : Nat)

/-- What is found at the angle bracket at an index. -/
def foundAt (i : Nat) : Except (Halt SplitError) Found := do
  if ← s.startsWith ['<', '!', '-', '-'] i then
    match ← s.find ['-', '-', '>'] (i + 4) with
    | none => return .ending
    | some j => return .passed (j + 3)
  else
    match ← openTagAt s i with
    | none => return .passed (i + 1)
    | some tag =>
        if tag.selfClosing then return .passed tag.stop
        else
          match ← closeAt s tag.name (!isRawName tag.name) 1 tag.stop with
          | none => .error (.fault (.unclosed (String.ofList (lowerName tag.name)) i))
          | some (stop, j) =>
              let content ← s.slice tag.stop stop
              return .block ⟨⟨tag.name, tag.attributes, false, []⟩, content⟩ j

/-- Put the parts of a component together from an index on. -/
def splitFrom (a : Assembly) (i : Nat) : Except (Halt SplitError) Blocks := do
  if i < s.size then
    match ← s.find ['<'] i with
    | none => return a.blocks
    | some j =>
        match ← foundAt s j with
        | .ending => return a.blocks
        | .passed k =>
            if s.size - k < s.size - i then splitFrom a k else .error (.breach .stuck)
        | .block b k =>
            match (a.add b).error with
            | some e => .error (.fault e)
            | none =>
                if s.size - k < s.size - i then splitFrom (a.add b) k
                else .error (.breach .stuck)
  else return a.blocks
termination_by s.size - i

end ByteSplit

/-- The parts of a component, read from its bytes. -/
def splitBytes (source : String) : Except (Halt SplitError) Blocks :=
  ByteSplit.splitFrom (.ofString source) {} 0

namespace ByteSplit

/-! ### Kinds of bytes -/

theorem isAlphanum_of_high {c : Char} (h : 0x80 ≤ c.toNat) : c.isAlphanum = false := by
  have hval : 0x80 ≤ c.val.toNat := h
  delta Char.isAlphanum Char.isAlpha Char.isUpper Char.isLower Char.isDigit
  simp [UInt32.le_iff_toNat_le]
  omega

theorem uniform_isTagNameChar : Stored.Uniform isTagNameChar := by
  right
  intro c hc
  simp [isTagNameChar, isAlphanum_of_high hc, beq_of_high hc]

theorem toNat_lt_of_isTagNameChar {c : Char} (h : isTagNameChar c = true) : c.toNat < 0x80 := by
  rcases Nat.lt_or_ge c.toNat 0x80 with hlt | hge
  · exact hlt
  · simp [isTagNameChar, isAlphanum_of_high hge, beq_of_high hge] at h

theorem uniform_isGap : Stored.Uniform isGap := by
  right
  intro c hc
  simp [isGap, beq_of_high hc]

theorem uniform_isAttributeChar : Stored.Uniform isAttributeChar := by
  left
  intro c hc
  simp [isAttributeChar, isPlainBlank, beq_of_high hc]

theorem uniform_isBareChar : Stored.Uniform isBareChar := by
  left
  intro c hc
  simp [isBareChar, isPlainBlank, beq_of_high hc]

/-! ### Opening tags -/

section Tags

variable {ε : Type} {s : Stored} {i : Nat} {c : Char} {cs : List Char}

/-- A text is cut at a character as at the mark of that character. -/
theorem cut?_singleton (stop : Char) (cs : List Char) : cut? [stop] cs = cutAt? stop cs := by
  induction cs with
  | nil => rfl
  | cons c cs ih =>
    rw [cut?, cutAt?, ih, List.isPrefixOf_cons_cons, List.isPrefixOf_nil_left, Bool.and_true,
      Bool.beq_comm]
    rfl

theorem find_char (h : s.At i cs) (hc : c.toNat < 0x80) :
    (s.find [c] i : Except (Halt ε) _)
      = .ok ((cutAt? c cs).map fun (front, _) => i + byteLength front) := by
  rw [h.find (isMark_singleton.2 hc), cut?_singleton]

/-- A value ends where its text does. -/
theorem textAt_eq (h : s.At i cs) :
    (textAt s i : Except (Halt ε) _)
      = .ok ((attributeText? cs).map fun (v, r) => (v, s.index r)) := by
  unfold textAt
  by_cases hquote : ∃ q r, cs = q :: r ∧ isQuote q = true
  · obtain ⟨q, r, rfl, hq⟩ := hquote
    have hascii := Style.Scan.toNat_lt_of_isQuote hq
    have hr := h.ascii hascii
    have htext : attributeText? (q :: r) = cutAt? q r := by
      simp only [isQuote, Bool.or_eq_true, beq_iff_eq] at hq
      rcases hq with rfl | rfl <;> rfl
    rw [h.peek, leadChar_of_ascii hascii, Option.filter_some, if_pos hq, htext]
    simp only [find_char hr hascii, bind, Except.bind]
    cases hcut : cutAt? q r with
    | none => rfl
    | some vr =>
      obtain ⟨v, r'⟩ := vr
      obtain ⟨rfl, -⟩ := cutAt?_eq_some hcut
      have hrest : s.At (i + 1 + byteLength v + 1) r' := hr.behind.ascii hascii
      simp only [Option.map_some, hr.slice, hrest.index_eq]
      rfl
  · -- without a quote the value goes up to the first blank or bracket, also where the text ends
    have hnone : (s.peek i).filter isQuote = none := by
      cases cs with
      | nil => rw [h.peek_nil]; rfl
      | cons c cs =>
        have hc : isQuote c = false := by
          cases hc : isQuote c with
          | false => rfl
          | true => exact absurd ⟨c, cs, rfl, hc⟩ hquote
        rw [h.peek, Option.filter_some, Style.Scan.isQuote_leadChar, hc]
        rfl
    have hdouble : cs.head? ≠ some '"' := by
      intro hhead
      obtain ⟨r, rfl⟩ := List.head?_eq_some_iff.1 hhead
      exact hquote ⟨'"', r, rfl, rfl⟩
    have hsingle : cs.head? ≠ some '\'' := by
      intro hhead
      obtain ⟨r, rfl⟩ := List.head?_eq_some_iff.1 hhead
      exact hquote ⟨'\'', r, rfl, rfl⟩
    rw [hnone, attributeText?_bare hdouble hsingle]
    simp only [h.skip uniform_isBareChar, bind, Except.bind, h.slice_takeWhile, Option.map_some,
      (h.dropWhile isBareChar).index_eq]
    rfl

theorem valueAt_eq (h : s.At i cs) :
    (valueAt s i : Except (Halt ε) _)
      = .ok ((attributeValue? cs).map fun (v, r) => (v, s.index r)) := by
  unfold valueAt
  rw [h.peek_beq (by decide)]
  by_cases hsign : cs.head? = some '='
  · obtain ⟨r, rfl⟩ := List.head?_eq_some_iff.1 hsign
    have hr := h.ascii (by decide)
    simp only [hr.skip uniform_isGap, bind, Except.bind, textAt_eq (hr.dropWhile isGap)]
    rfl
  · have hnone : attributeValue? cs = some ([], cs) := by
      unfold attributeValue?
      split
      · exact absurd rfl hsign
      · rfl
    rw [if_neg (by simpa using hsign), hnone]
    simp only [Option.map_some, h.index_eq]
    rfl

/-- An attribute ends where its text does. -/
theorem attributeAt_eq (h : s.At i (c :: cs)) (hbracket : c ≠ '>') (hslash : c ≠ '/')
    (hblank : isPlainBlank c = false) :
    (attributeAt s i : Except (Halt ε) _)
      = .ok ((attribute? c cs).map fun (a, r) => (a, s.index r)) := by
  have hname := h.dropWhile isAttributeChar
  have hgap := hname.dropWhile isGap
  unfold attributeAt
  simp only [h.skip uniform_isAttributeChar, hname.skip uniform_isGap, bind, Except.bind,
    h.slice_takeWhile, valueAt_eq hgap]
  unfold attribute?
  by_cases hsign : c = '='
  · subst hsign
    simp [pure, Except.pure, isAttributeChar, isGap, Option.map_map, Function.comp_def]
  · have hchar : isAttributeChar c = true := by
      simp [isAttributeChar, hbracket, hslash, hblank, hsign]
    simp [pure, Except.pure, hchar, hsign, Option.map_map, Function.comp_def]

/-- A tag with the index behind it. -/
def TagAt.of (s : Stored) (t : OpenTag) : TagAt :=
  ⟨t.name, t.attributes, t.selfClosing, s.index t.rest⟩

/-- What attributes are read from behind their blanks. -/
theorem attributesAt_cons (name : List Char) (as : List (List Char × List Char)) {r : List Char}
    (h : s.At i cs) (hr : cs.dropWhile isPlainBlank = c :: r) :
    (attributesAt s name as i : Except (Halt ε) _)
      = if c == '>' then .ok (some ⟨name, as, false, s.index r⟩)
        else if c == '/' then
          if r.head? == some '>' then .ok (some ⟨name, as, true, s.index r.tail⟩)
          else attributesAt s name as (s.index r)
        else ((attribute? c r).map fun p =>
          attributesAt s name (as ++ [p.1]) (s.index p.2)).getD (.ok none) := by
  have hj := h.dropWhile isPlainBlank
  have hblank := List.head?_dropWhile_not isPlainBlank cs
  rw [hr] at hj hblank
  have hlt := hj.lt
  conv_lhs => rw [attributesAt, h.skip Stored.uniform_isPlainBlank]
  simp only [bind, Except.bind, if_pos hlt, hj.byteAt, leadChar_beq (by decide : '>'.toNat < 0x80),
    leadChar_beq (by decide : '/'.toNat < 0x80)]
  by_cases hbracket : c = '>'
  · subst hbracket
    rw [(hj.ascii (by decide)).index_eq]
    rfl
  simp only [beq_false_of_ne hbracket, Bool.false_eq_true, if_false]
  by_cases hslash : c = '/'
  · subst hslash
    have hnext := hj.ascii (by decide)
    simp only [BEq.rfl, if_true, hnext.peek_beq (by decide : '>'.toNat < 0x80), hnext.index_eq]
    by_cases hend : r.head? = some '>'
    · obtain ⟨r, rfl⟩ := List.head?_eq_some_iff.1 hend
      rw [List.tail_cons, (hnext.ascii (by decide)).index_eq]
      rfl
    · simp only [beq_false_of_ne hend, Bool.false_eq_true, if_false]
      rw [if_pos (by omega)]
  simp only [beq_false_of_ne hslash, Bool.false_eq_true, if_false,
    attributeAt_eq hj hbracket hslash hblank]
  cases ha : attribute? c r with
  | none => rfl
  | some p =>
    obtain ⟨a, rest⟩ := p
    obtain ⟨text, rfl, -, -⟩ := exists_attributeText ha hbracket hslash
    -- an attribute starts with a character, so the index moves on
    have hpos := c.utf8Size_pos
    simp only [Option.map_some, Option.getD_some, hj.next.behind.index_eq]
    rw [if_pos (by omega)]

/-- The attributes of a tag end where their text does. -/
theorem attributesAt_eq (name : List Char) (as : List (List Char × List Char)) (h : s.At i cs) :
    (attributesAt s name as i : Except (Halt ε) _)
      = .ok ((readAttributes name as cs).map (TagAt.of s)) := by
  have hindex : ∀ {i : Nat} {rest : List Char}, s.At i rest → s.At (s.index rest) rest :=
    fun h => h.index_eq.symm ▸ h
  fun_induction readAttributes name as cs generalizing i with
  | case1 as cs hr =>
    have hj := h.dropWhile isPlainBlank
    rw [hr] at hj
    rw [attributesAt, h.skip Stored.uniform_isPlainBlank]
    simp only [bind, Except.bind, if_neg hj.not_lt]
    rfl
  | case2 as cs r hr =>
    rw [attributesAt_cons name as h hr]
    rfl
  | case3 as cs r hr =>
    rw [attributesAt_cons name as h hr]
    rfl
  | case4 as cs r hne hr _ ih =>
    have hj := h.dropWhile isPlainBlank
    rw [hr] at hj
    have hhead : ¬ (r.head? == some '>') = true := by
      intro hhead
      obtain ⟨r', rfl⟩ := List.head?_eq_some_iff.1 (eq_of_beq hhead)
      exact hne r' rfl
    rw [attributesAt_cons name as h hr, if_neg (by decide), if_pos (by rfl), if_neg hhead]
    exact ih (hindex hj.next)
  | case5 as cs c r hbracket hends hslash hr ha =>
    rw [attributesAt_cons name as h hr, if_neg (by simpa using hbracket),
      if_neg (by simpa using hslash), ha]
    rfl
  | case6 as cs c r hbracket hends hslash hr a rest ha _ ih =>
    have hj := h.dropWhile isPlainBlank
    rw [hr] at hj
    rw [attributesAt_cons name as h hr, if_neg (by simpa using hbracket),
      if_neg (by simpa using hslash), ha]
    obtain ⟨text, rfl, -, -⟩ := exists_attributeText ha hbracket hslash
    exact ih (hindex hj.next.behind)

/-- An opening tag ends where its text does. -/
theorem openTagAt_eq (h : s.At i ('<' :: cs)) :
    (openTagAt s i : Except (Halt ε) _) = .ok ((openTag? cs).map (TagAt.of s)) := by
  have hcs := h.ascii (by decide)
  unfold openTagAt openTag?
  simp only [hcs.skip uniform_isTagNameChar, bind, Except.bind]
  cases hname : cs.takeWhile isTagNameChar with
  | nil =>
    rw [if_pos (by simp)]
    rfl
  | cons c name =>
    obtain ⟨r, rfl⟩ : ∃ r, cs = c :: r := by
      have := List.takeWhile_append_dropWhile (p := isTagNameChar) (l := cs)
      rw [hname] at this
      exact ⟨_, this.symm⟩
    -- the byte that has to be a letter is the first character of the name
    have hascii : c.toNat < 0x80 := by
      apply toNat_lt_of_isTagNameChar
      apply List.all_eq_true.1 (List.all_takeWhile (p := isTagNameChar) (l := c :: r))
      rw [hname]
      exact List.mem_cons_self
    have hpos := c.utf8Size_pos
    have hslice : (s.slice (i + 1) _ : Except (Halt ε) _) = _ := hcs.slice_takeWhile isTagNameChar
    have hrest := hcs.dropWhile isTagNameChar
    rw [hname] at hslice hrest
    rw [if_neg (by rw [byteLength_cons]; omega)]
    simp only [hcs.byteAt_ascii hascii, hslice]
    split
    · exact attributesAt_eq _ _ hrest
    · rfl

/-! ### Names -/

theorem toLower_of_high {c : Char} (h : 0x80 ≤ c.toNat) : c.toLower = c := by
  unfold Char.toLower
  rw [dif_neg]
  rintro ⟨-, hle⟩
  have : c.toNat ≤ 90 := hle
  omega

theorem toNat_toLower_lt {c : Char} (h : c.toNat < 0x80) : c.toLower.toNat < 0x80 := by
  unfold Char.toLower
  split
  · next hc =>
    have hle : c.val.toNat ≤ 90 := hc.2
    change (c.val + 32).toNat < 0x80
    rw [UInt32.toNat_add, show (32 : UInt32).toNat = 32 from rfl]
    omega
  · exact h

/-- A byte spells a letter where the character does. -/
theorem toLower_leadChar_beq (c : Char) {d : Char} (hd : d.toNat < 0x80) :
    ((leadChar c).toLower == d.toLower) = (c.toLower == d.toLower) := by
  rcases Nat.lt_or_ge c.toNat 0x80 with h | h
  · rw [leadChar_of_ascii h]
  · rw [toLower_of_high h, toLower_of_high (le_toNat_leadChar h)]
    exact leadChar_beq (toNat_toLower_lt hd)

theorem toNat_lt_of_toLower {c d : Char} (hd : d.toNat < 0x80) (h : c.toLower = d.toLower) :
    c.toNat < 0x80 := by
  rcases Nat.lt_or_ge c.toNat 0x80 with hlt | hge
  · exact hlt
  · rw [toLower_of_high hge] at h
    rw [h]
    exact toNat_toLower_lt hd

theorem byteLength_of_ascii {cs : List Char} (h : ∀ c ∈ cs, c.toNat < 0x80) :
    byteLength cs = cs.length := by
  induction cs with
  | nil => rfl
  | cons c cs ih =>
    rw [List.forall_mem_cons] at h
    rw [byteLength_cons, utf8Size_of_ascii h.1, ih h.2, List.length_cons, Nat.add_comm]

/-- A spelling takes as many bytes as the name. -/
theorem byteLength_of_spelling {name spelling : List Char} (hname : ∀ c ∈ name, c.toNat < 0x80)
    (h : lowerName spelling = lowerName name) : byteLength spelling = byteLength name := by
  have hspelling : ∀ c ∈ spelling, c.toNat < 0x80 := by
    intro c hc
    have hmem : c.toLower ∈ lowerName name := h ▸ List.mem_map_of_mem hc
    obtain ⟨d, hd, heq⟩ := List.mem_map.1 hmem
    exact toNat_lt_of_toLower (hname d hd) heq.symm
  rw [byteLength_of_ascii hspelling, byteLength_of_ascii hname, length_of_spelling h]

theorem isTagDelimiter_leadChar (c : Char) : isTagDelimiter (leadChar c) = isTagDelimiter c := by
  simp [isTagDelimiter, leadChar_beq]

theorem afterName?_cons (n c : Char) (name cs : List Char) :
    afterName? (n :: name) (c :: cs)
      = if c.toLower == n.toLower then afterName? name cs else none := by
  unfold afterName?
  simp only [lowerName, List.length_cons, List.take_succ_cons, List.map_cons, List.drop_succ_cons,
    List.cons_beq_cons]
  cases c.toLower == n.toLower <;> rfl

theorem spelledAt_eq {name : List Char} (hname : ∀ c ∈ name, c.toNat < 0x80) (h : s.At i cs)
    (hsize : i + byteLength name < s.size) :
    (spelledAt s name i : Except (Halt ε) _) = .ok (afterName? name cs).isSome := by
  induction name generalizing i cs with
  | nil =>
    cases cs with
    | nil => exact absurd hsize h.not_lt
    | cons c cs =>
      rw [spelledAt, h.byteAt]
      simp only [bind, Except.bind, isTagDelimiter_leadChar, afterName?]
      simp only [List.length_nil, List.take_zero, List.drop_zero, BEq.rfl, List.head?_cons,
        Option.any_some, Bool.true_and]
      cases isTagDelimiter c <;> rfl
  | cons n name ih =>
    rw [List.forall_mem_cons] at hname
    rw [byteLength_cons, utf8Size_of_ascii hname.1] at hsize
    cases cs with
    | nil => exact absurd (by omega) h.not_lt
    | cons c cs =>
      rw [spelledAt, h.byteAt]
      simp only [bind, Except.bind]
      rw [toLower_leadChar_beq c hname.1, afterName?_cons]
      split
      · next hc =>
        -- the name is of bytes only, so a character that spells one of them is a byte as well
        have hascii := toNat_lt_of_toLower hname.1 (eq_of_beq hc)
        exact ih hname.2 (h.ascii hascii) (by omega)
      · rfl

/-- A name is found at an index where it stands in front of the characters there. -/
theorem nameAt_eq {name : List Char} (hname : ∀ c ∈ name, c.toNat < 0x80) (h : s.At i cs) :
    (nameAt s name i : Except (Halt ε) _) = .ok (afterName? name cs).isSome := by
  unfold nameAt
  rw [if_pos h.le]
  split
  · next hsize => exact spelledAt_eq hname h hsize
  · next hsize =>
    cases hafter : afterName? name cs with
    | none => rfl
    | some r =>
      obtain ⟨spelling, c, rest, rfl, hspells, -⟩ := startsName_of_afterName? hafter
      have hlt := h.behind.lt
      rw [byteLength_of_spelling hname hspells] at hlt
      exact absurd hlt hsize

theorem at_afterName {name r : List Char} (hname : ∀ c ∈ name, c.toNat < 0x80) (h : s.At i cs)
    (hafter : afterName? name cs = some r) : s.At (i + byteLength name) r := by
  obtain ⟨spelling, c, rest, rfl, hspells, hdelim⟩ := startsName_of_afterName? hafter
  rw [afterName?_spelling hspells hdelim] at hafter
  rw [← Option.some.inj hafter, ← byteLength_of_spelling hname hspells]
  exact h.behind

/-! ### Closing tags -/

variable {name : List Char}

theorem closesAt_eq (hname : ∀ c ∈ name, c.toNat < 0x80) (h : s.At i ('<' :: cs)) :
    (closesAt s name i : Except (Halt ε) _) = .ok (closingName? name cs).isSome := by
  have hcs := h.ascii (by decide)
  unfold closesAt
  rw [hcs.peek_beq (by decide)]
  by_cases hslash : cs.head? = some '/'
  · obtain ⟨ds, rfl⟩ := List.head?_eq_some_iff.1 hslash
    exact nameAt_eq hname (hcs.ascii (by decide))
  · have hnone : closingName? name cs = none := by
      rw [closingName?]
      rintro ds rfl
      exact hslash rfl
    rw [if_neg (by simpa using hslash), hnone]
    rfl

theorem opensAt_eq (hname : ∀ c ∈ name, c.toNat < 0x80) (nested : Bool)
    (h : s.At i ('<' :: cs)) :
    (opensAt s name nested i : Except (Halt ε) _) = .ok (openingName? name nested cs).isSome := by
  unfold opensAt openingName?
  split
  · exact nameAt_eq hname (h.ascii (by decide))
  · rfl

/-- Behind the name of a tag the search goes to its bracket, if there is one. -/
theorem tagEndAt_eq {r : List Char} (hname : ∀ c ∈ name, c.toNat < 0x80) (h : s.At i cs)
    (hafter : afterName? name cs = some r) :
    (s.find ['>'] (i + byteLength name) : Except (Halt ε) _)
      = .ok ((cutAt? '>' r).map fun (inside, _) => i + byteLength name + byteLength inside) :=
  find_char (at_afterName hname h hafter) (by decide)

/-- The byte in front of the bracket of a tag is a slash just when the character is. -/
theorem byteAt_inside (ε : Type) {r inside rest : List Char}
    (hname : ∀ c ∈ name, isTagNameChar c = true) (hne : name ≠ []) (h : s.At i cs)
    (hafter : afterName? name cs = some r) (hcut : cutAt? '>' r = some (inside, rest)) :
    ∃ b, (s.byteAt (i + byteLength name + byteLength inside - 1) : Except (Halt ε) _) = .ok b ∧
      (b == '/') = (inside.getLast? == some '/') := by
  obtain ⟨spelling, c, ds, rfl, hspells, hdelim⟩ := startsName_of_afterName? hafter
  rw [afterName?_spelling hspells hdelim] at hafter
  obtain ⟨hr, -⟩ := cutAt?_eq_some hcut
  rw [Option.some.inj hafter, hr, ← List.append_assoc] at h
  have hascii : ∀ c ∈ name, c.toNat < 0x80 := fun c hc => toNat_lt_of_isTagNameChar (hname c hc)
  rw [← byteLength_of_spelling hascii hspells, Nat.add_assoc, ← byteLength_append]
  have hspelling := isTagNameChar_of_spelling hname hspells
  cases hlast : inside.getLast? with
  | some d =>
    obtain ⟨b, hb, heq⟩ := h.byteAt_last ε (c := d) (by rw [List.getLast?_append, hlast]; rfl)
    exact ⟨b, hb, heq '/' (by decide)⟩
  | none =>
    -- directly behind the name, the byte is the last one of the name, and so no slash
    cases hlast' : spelling.getLast? with
    | none =>
      obtain rfl := List.getLast?_eq_none_iff.1 hlast'
      have := length_of_spelling hspells
      exact absurd (List.length_eq_zero_iff.1 this.symm) hne
    | some d =>
      obtain ⟨b, hb, heq⟩ := h.byteAt_last ε (c := d)
        (by rw [List.getLast?_append, hlast, hlast']; rfl)
      refine ⟨b, hb, (heq '/' (by decide)).trans ?_⟩
      have hd := hspelling d (List.mem_of_getLast? hlast')
      apply beq_false_of_ne
      rintro rfl
      cases hd

/-- Behind its bracket a tag has ended. -/
theorem at_tagEnd {r inside rest : List Char} (hname : ∀ c ∈ name, c.toNat < 0x80) (h : s.At i cs)
    (hafter : afterName? name cs = some r) (hend : cutAt? '>' r = some (inside, rest)) :
    s.At (i + byteLength name + byteLength inside + 1) rest := by
  have hr := at_afterName hname h hafter
  rw [(cutAt?_eq_some hend).1] at hr
  exact hr.behind.ascii (by decide)

/-! The search for the end of a block goes to the next bracket, and on by the tag there. -/

section Search

variable {nested : Bool} {depth : Nat} {front r t inside rest : List Char}

theorem closeAt_of_not_mem (h : s.At i cs) (hcs : '<' ∉ cs) :
    (closeAt s name nested depth i : Except (Halt ε) _) = .ok none := by
  rw [closeAt, find_char h (by decide), cutAt?_eq_none_iff.2 hcs]
  split <;> rfl

theorem find_bracket (h : s.At i (front ++ '<' :: r)) (hfront : '<' ∉ front) :
    i < s.size ∧ (s.find ['<'] i : Except (Halt ε) _) = .ok (some (i + byteLength front)) := by
  refine ⟨Nat.lt_of_le_of_lt (Nat.le_add_right _ _) h.behind.lt, ?_⟩
  rw [find_char h (by decide), cutAt?_append hfront]
  rfl

/-- A closing tag ends the search, or one of the blocks that are open. -/
theorem closeAt_closing (hname : ∀ c ∈ name, c.toNat < 0x80) (h : s.At i (front ++ '<' :: r))
    (hfront : '<' ∉ front) (hclosing : closingName? name r = some t)
    (hend : cutAt? '>' t = some (inside, rest)) :
    ∃ k, s.At k rest ∧ (closeAt s name nested (depth + 1) i : Except (Halt ε) _)
      = if depth = 0 then .ok (some (i + byteLength front, k))
        else closeAt s name nested depth k := by
  have hp := h.behind
  obtain ⟨hlt, hfind⟩ := find_bracket (ε := ε) h hfront
  obtain ⟨ds, rfl, hafter⟩ := closingName?_eq_some hclosing
  have hds := (hp.ascii (by decide)).ascii (by decide)
  refine ⟨_, at_tagEnd hname hds hafter hend, ?_⟩
  conv_lhs => rw [closeAt, if_pos hlt, hfind]
  simp only [bind, Except.bind, closesAt_eq hname hp, hclosing, Option.isSome_some, if_true,
    tagEndAt_eq hname hds hafter, hend, Option.map_some, Nat.add_sub_cancel]
  rw [if_neg (by omega)]
  split
  · rfl
  · rw [if_pos (by omega)]

/-- An opening tag counts unless a slash ends it. -/
theorem closeAt_opening (hname : ∀ c ∈ name, isTagNameChar c = true) (hne : name ≠ [])
    (h : s.At i (front ++ '<' :: r)) (hfront : '<' ∉ front) (hclosing : closingName? name r = none)
    (hopening : openingName? name nested r = some t) (hend : cutAt? '>' t = some (inside, rest)) :
    ∃ k, s.At k rest ∧ (closeAt s name nested depth i : Except (Halt ε) _)
      = closeAt s name nested (if inside.getLast? == some '/' then depth else depth + 1) k := by
  have hp := h.behind
  obtain ⟨hlt, hfind⟩ := find_bracket (ε := ε) h hfront
  have hascii : ∀ c ∈ name, c.toNat < 0x80 := fun c hc => toNat_lt_of_isTagNameChar (hname c hc)
  have hafter := openingName?_eq_some hopening
  have hr := hp.ascii (by decide)
  obtain ⟨b, hb, hslash⟩ := byteAt_inside ε hname hne hr hafter hend
  refine ⟨_, at_tagEnd hascii hr hafter hend, ?_⟩
  conv_lhs => rw [closeAt, if_pos hlt, hfind]
  simp only [bind, Except.bind, closesAt_eq hascii hp, hclosing, Option.isSome_none,
    Bool.false_eq_true, if_false, opensAt_eq hascii nested hp, hopening, Option.isSome_some,
    if_true, tagEndAt_eq hascii hr hafter, hend, Option.map_some]
  rw [if_neg (by omega)]
  simp only [hb, hslash]
  rw [if_pos (by omega)]

theorem closeAt_endless (hname : ∀ c ∈ name, c.toNat < 0x80) (h : s.At i (front ++ '<' :: r))
    (hfront : '<' ∉ front)
    (htag : closingName? name r = some t ∨
      closingName? name r = none ∧ openingName? name nested r = some t)
    (hend : cutAt? '>' t = none) :
    (closeAt s name nested depth i : Except (Halt ε) _) = .ok none := by
  have hp := h.behind
  have hr := hp.ascii (by decide)
  obtain ⟨hlt, hfind⟩ := find_bracket (ε := ε) h hfront
  rw [closeAt, if_pos hlt, hfind]
  simp only [bind, Except.bind, closesAt_eq hname hp, opensAt_eq hname nested hp]
  rcases htag with hclosing | ⟨hclosing, hopening⟩
  · obtain ⟨ds, rfl, hafter⟩ := closingName?_eq_some hclosing
    simp only [hclosing, Option.isSome_some, if_true,
      tagEndAt_eq hname (hr.ascii (by decide)) hafter, hend]
    rfl
  · simp only [hclosing, hopening, Option.isSome_none, Bool.false_eq_true, if_false,
      Option.isSome_some, if_true, tagEndAt_eq hname hr (openingName?_eq_some hopening), hend]
    rfl

/-- A bracket at which no tag of the name starts is passed over. -/
theorem closeAt_skip (hname : ∀ c ∈ name, c.toNat < 0x80) (h : s.At i (front ++ '<' :: r))
    (hfront : '<' ∉ front) (hclosing : closingName? name r = none)
    (hopening : openingName? name nested r = none) :
    (closeAt s name nested depth i : Except (Halt ε) _)
      = closeAt s name nested depth (i + byteLength front + 1) := by
  have hp := h.behind
  obtain ⟨hlt, hfind⟩ := find_bracket (ε := ε) h hfront
  conv_lhs => rw [closeAt, if_pos hlt, hfind]
  simp only [bind, Except.bind, closesAt_eq hname hp, hclosing, opensAt_eq hname nested hp,
    hopening, Option.isSome_none, Bool.false_eq_true, if_false]
  rw [if_pos (by omega)]

/-- The search for the end of a block, from an index where a character starts. -/
theorem closeAt_eq (hname : ∀ c ∈ name, isTagNameChar c = true) (hne : name ≠ []) (nested : Bool)
    (depth : Nat) (h : s.At i cs) :
    (closeAt s name nested (depth + 1) i : Except (Halt ε) _)
      = .ok ((findClose name nested depth cs).map fun (close, rest) =>
        (s.index close, s.index rest)) := by
  have hascii : ∀ c ∈ name, c.toNat < 0x80 := fun c hc => toNat_lt_of_isTagNameChar (hname c hc)
  -- the search over bytes goes from bracket to bracket and the other one from character to
  -- character, so the induction is on the length of what is left and follows neither
  induction hlength : cs.length using Nat.strongRecOn generalizing depth i cs with
  | _ n ih =>
    cases hcut : cutAt? '<' cs with
    | none =>
      have hnot := cutAt?_eq_none_iff.1 hcut
      rw [closeAt_of_not_mem h hnot, findClose_of_not_mem hnot]
      rfl
    | some fr =>
      obtain ⟨front, r⟩ := fr
      obtain ⟨rfl, hfront⟩ := cutAt?_eq_some hcut
      rw [List.length_append, List.length_cons] at hlength
      rw [findClose_text hfront]
      cases hclosing : closingName? name r with
      | some t =>
        cases hend : cutAt? '>' t with
        | none =>
          rw [closeAt_endless hascii h hfront (.inl hclosing) hend,
            findClose_endless (.inl hclosing) hend]
          rfl
        | some ir =>
          obtain ⟨inside, rest⟩ := ir
          obtain ⟨k, hk, hstep⟩ := closeAt_closing hascii h hfront hclosing hend
          have hlt := Nat.lt_of_lt_of_le (length_cutAt?_lt hend) (length_closingName?_le hclosing)
          rw [hstep, findClose_closing hclosing hend]
          cases depth with
          | zero =>
            simp only [Option.map_some, h.behind.index_eq, hk.index_eq]
            rfl
          | succ d =>
            rw [if_neg (by omega)]
            exact ih rest.length (by omega) d hk rfl
      | none =>
        cases hopening : openingName? name nested r with
        | some t =>
          cases hend : cutAt? '>' t with
          | none =>
            rw [closeAt_endless hascii h hfront (.inr ⟨hclosing, hopening⟩) hend,
              findClose_endless (.inr ⟨hclosing, hopening⟩) hend]
            rfl
          | some ir =>
            obtain ⟨inside, rest⟩ := ir
            obtain ⟨k, hk, hstep⟩ := closeAt_opening hname hne h hfront hclosing hopening hend
            have hlt := Nat.lt_of_lt_of_le (length_cutAt?_lt hend)
              (length_openingName?_le hopening)
            -- the index counts the block itself among those that are open
            have hdepth : (if inside.getLast? == some '/' then depth + 1 else depth + 1 + 1)
                = (if inside.getLast? == some '/' then depth else depth + 1) + 1 := by
              split <;> rfl
            rw [hstep, hdepth, findClose_opening hclosing hopening hend]
            exact ih rest.length (by omega) _ hk rfl
        | none =>
          rw [closeAt_skip hascii h hfront hclosing hopening, findClose_skip hclosing hopening]
          exact ih r.length (by omega) depth (h.behind.ascii (by decide)) rfl

end Search

end Tags

/-! ### Parts -/

section Parts

variable {s : Stored} {i : Nat} {cs : List Char} {a : Assembly}

/-- A comment ends where its mark does. -/
theorem cut?_comment (cs : List Char) :
    (cut? ['-', '-', '>'] cs).map (·.2) = afterComment? cs := by
  fun_induction afterComment? cs with
  | case1 cs => rfl
  | case2 c cs hc ih =>
    have hmark : ['-', '-', '>'].isPrefixOf (c :: cs) = false := by
      cases hmark : ['-', '-', '>'].isPrefixOf (c :: cs) with
      | false => rfl
      | true =>
        obtain ⟨ds, hds⟩ := List.isPrefixOf_iff_prefix.1 hmark
        obtain ⟨rfl, rfl⟩ := List.cons.inj hds
        exact absurd rfl (hc ds rfl)
    rw [cut?, hmark, if_neg Bool.false_ne_true, Option.map_map, ← ih]
    rfl
  | case3 => rfl

theorem commentMark_ascii : ∀ c ∈ ['<', '!', '-', '-'], c.toNat < 0x80 := by
  simp

theorem isMark_comment : IsMark ['-', '-', '>'] := ⟨by simp, by simp⟩

theorem complete_of_no_blocks (ha : a.error = none) (size : Nat) :
    a.complete size {} = .ok a.blocks := by
  simp [Assembly.complete, ha]

theorem splitFrom_of_not_mem (h : s.At i cs) (hcs : '<' ∉ cs) :
    splitFrom s a i = .ok a.blocks := by
  rw [splitFrom, find_char h (by decide), cutAt?_eq_none_iff.2 hcs]
  split <;> rfl

theorem complete_of_error {e : SplitError} (h : a.error = some e) (size : Nat) (d : Division) :
    a.complete size d = .error e := by
  simp [Assembly.complete, foldl_add_of_error h, h]

/-- The text behind the tag of a block has no part in what is put together. -/
theorem add_rest (a : Assembly) (t : OpenTag) (content : List Char) :
    a.add ⟨⟨t.name, t.attributes, false, []⟩, content⟩ = a.add ⟨t, content⟩ := rfl

/-- What is found at a bracket is what the division of the text goes on with. -/
inductive Fits (s : Stored) (i : Nat) (cs : List Char) : Except (Halt SplitError) Found → Prop
  /-- The division ends. -/
  | ending : divide cs = {} → Fits s i cs (.ok .ending)
  /-- The division goes on with a shorter text. -/
  | passed {j : Nat} {rest : List Char} : s.At j rest → i < j → rest.length < cs.length →
      divide cs = divide rest → Fits s i cs (.ok (.passed j))
  /-- The division goes on behind a block. -/
  | block {j : Nat} {content rest : List Char} (t : OpenTag) : s.At j rest → i < j →
      rest.length < cs.length →
      divide cs = { divide rest with blocks := ⟨t, content⟩ :: (divide rest).blocks } →
      Fits s i cs (.ok (.block ⟨⟨t.name, t.attributes, false, []⟩, content⟩ j))
  /-- The division ends at a block that is never closed. -/
  | unclosed {name : List Char} : divide cs = { unclosed := some (name, cs) } →
      Fits s i cs (.error (.fault (.unclosed (String.ofList (lowerName name)) i)))

theorem fits_comment {r : List Char} (h : s.At i ('<' :: '!' :: '-' :: '-' :: r)) :
    Fits s i ('<' :: '!' :: '-' :: '-' :: r) (foundAt s i) := by
  have hr : s.At (i + 4) r :=
    (((h.ascii (by decide)).ascii (by decide)).ascii (by decide)).ascii (by decide)
  have hmark : ['<', '!', '-', '-'].isPrefixOf ('<' :: '!' :: '-' :: '-' :: r) = true := by rfl
  have hend := cut?_comment r
  unfold foundAt
  simp only [bind, Except.bind, h.startsWith commentMark_ascii, hmark, if_true,
    hr.find isMark_comment]
  cases hcut : cut? ['-', '-', '>'] r with
  | none =>
    rw [hcut] at hend
    exact .ending (divide_openComment hend.symm)
  | some ib =>
    obtain ⟨inside, behind⟩ := ib
    rw [hcut] at hend
    obtain rfl := cut?_eq_some hcut
    have hbehind : s.At (i + 4 + byteLength inside + 3) behind :=
      ((hr.behind.ascii (by decide)).ascii (by decide)).ascii (by decide)
    have hlt : i < i + 4 + byteLength inside + 3 := by omega
    exact .passed hbehind hlt (by simp; omega) (divide_of_afterComment? hend.symm)

theorem fits_tag {r : List Char} (hcomment : ¬ ['!', '-', '-'] <+: r) (h : s.At i ('<' :: r)) :
    Fits s i ('<' :: r) (foundAt s i) := by
  have hr := h.ascii (by decide)
  have hmark : ['<', '!', '-', '-'].isPrefixOf ('<' :: r) = false := by
    rw [List.isPrefixOf_cons_cons, BEq.rfl, Bool.true_and, Bool.eq_false_iff]
    exact fun hprefix => hcomment (List.isPrefixOf_iff_prefix.1 hprefix)
  unfold foundAt
  simp only [bind, Except.bind, h.startsWith commentMark_ascii, hmark, Bool.false_eq_true, if_false,
    openTagAt_eq h]
  cases htag : openTag? r with
  | none => exact .passed hr (by omega) (by simp) (divide_bracket hcomment htag)
  | some t =>
    obtain ⟨text, hr'⟩ : ∃ text, r = text ++ t.rest := by
      obtain ⟨inside, -, hr'⟩ := exists_tagText htag
      exact ⟨t.name ++ (inside ++ ['>']), by rw [hr']; simp⟩
    have hrest : s.At (i + 1 + byteLength text) t.rest := by
      apply Stored.At.behind
      rwa [← hr']
    have hshorter := length_openTag?_lt htag
    simp only [Option.map_some, TagAt.of, hrest.index_eq]
    cases hself : t.selfClosing with
    | true =>
      exact .passed hrest (by omega) (by simp; omega) (divide_of_selfClosing htag hself)
    | false =>
      simp only [Bool.false_eq_true, if_false, closeAt_eq (isTagNameChar_of_openTag? htag)
        (name_ne_nil_of_openTag? htag) _ 0 hrest]
      cases hclose : findClose t.name (!isRawName t.name) 0 t.rest with
      | none => exact .unclosed (divide_of_unclosed htag hself hclose)
      | some cr =>
        obtain ⟨close, rest⟩ := cr
        -- the content and the closing tag stand one behind the other in front of the rest
        obtain ⟨content, closing, hcontent, hclosing, -⟩ := exists_closing hclose
        have hdivide := divide_of_findClose htag hself hcontent hclose
        have hlength := length_findClose_lt hclose
        rw [hcontent] at hrest
        have hend := hrest.behind
        rw [hclosing] at hend
        have hbehind := (((hend.ascii (by decide)).ascii (by decide))).behind
        simp only [Option.map_some, hrest.behind.index_eq, hrest.slice, hbehind.index_eq]
        exact .block t hbehind (by omega) (by simp; omega) hdivide

theorem fits_foundAt {r : List Char} (h : s.At i ('<' :: r)) :
    Fits s i ('<' :: r) (foundAt s i) := by
  by_cases hcomment : ['!', '-', '-'] <+: r
  · obtain ⟨ds, rfl⟩ := hcomment
    exact fits_comment h
  · exact fits_tag hcomment h

/-- From every index where a character starts, the source is split as `divide` divides it. -/
theorem splitFrom_eq (ha : a.error = none) (h : s.At i cs) :
    splitFrom s a i = (a.complete s.size (divide cs)).mapError .fault := by
  induction hlength : cs.length using Nat.strongRecOn generalizing a i cs with
  | _ n ih =>
    cases hcut : cutAt? '<' cs with
    | none =>
      have hnot := cutAt?_eq_none_iff.1 hcut
      have hdivide := divide_text hnot []
      rw [List.append_nil] at hdivide
      rw [splitFrom_of_not_mem h hnot, hdivide, divide, complete_of_no_blocks ha]
      rfl
    | some fr =>
      obtain ⟨front, r⟩ := fr
      obtain ⟨rfl, hfront⟩ := cutAt?_eq_some hcut
      have hp := h.behind
      have hlt := hp.lt
      rw [List.length_append] at hlength
      rw [splitFrom, if_pos (by omega), find_char h (by decide), hcut, divide_text hfront]
      simp only [bind, Except.bind, Option.map_some]
      -- what is found at the bracket tells how both go on
      have hfits := fits_foundAt hp
      revert hfits
      generalize foundAt s (i + byteLength front) = found
      intro hfits
      cases hfits with
      | ending hdivide =>
        rw [hdivide, complete_of_no_blocks ha]
        rfl
      | passed hat hj hshorter hdivide =>
        simp only
        rw [if_pos (by omega), hdivide, ih _ (by omega) ha hat rfl]
      | @block _ content _ t hat hj hshorter hdivide =>
        simp only
        rw [hdivide, complete_block, add_rest]
        cases herror : (a.add ⟨t, content⟩).error with
        | some e =>
          rw [complete_of_error herror]
          rfl
        | none =>
          simp only
          rw [if_pos (by omega), ih _ (by omega) herror hat rfl]
      | unclosed hdivide =>
        have hindex : s.size - byteLength ('<' :: r) = _ := hp.index_eq
        rw [hdivide]
        simp only [Assembly.complete, List.foldl_nil, ha, hindex]
        rfl

end Parts

end ByteSplit

/-- On every source the bytes are split as the characters are. -/
theorem splitBytes_eq (source : String) :
    splitBytes source = (split source).outcome.mapError .fault := by
  have hat : (Stored.ofString source).At 0 source.toList := Stored.at_start _
  have hsize : (Stored.ofString source).size = byteLength source.toList := Stored.size_eq _
  rw [splitBytes, ByteSplit.splitFrom_eq rfl hat, outcome_split, hsize]

end ComponentCompiler
