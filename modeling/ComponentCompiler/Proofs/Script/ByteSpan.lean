import ComponentCompiler.Proofs.Buffer.Frame
import ComponentCompiler.Script.Outline

/-!
# Spans of bytes as ranges of a buffer

The nodes of a script are placed by bytes, and a buffer is addressed by characters.  The table
between the two has an entry for every byte, and what it says of an offset is how many whole
characters stand in front of it.  Counting whole characters is adjoint to measuring the first
characters of a text: the first `n` characters end at or before an offset if and only if at least
`n` characters are counted there.  So the count never falls as offsets grow, it never passes the
length of the text, and where a character starts it is the number of characters in front.

The entries of the table are counted in words of 32 bits.  While a text has fewer characters than
there are words, that is the same table.

## Main definitions

* `wholeChars` — the characters that end at or before an offset.
* `WordTable` — the table with its entries counted in words.

## Main results

* `CharOffsets.get_ofText` — the table counts whole characters.
* `le_wholeChars_iff` — what counting them has to do with the length of the first characters.
* `WordTable.exists_ofText` — the table counted in words.
* `byteSpan_addresses_text` — **a span of bytes becomes the range of its own text**.
-/

namespace ComponentCompiler

namespace Text

/-! ### Counting whole characters -/

/-- The number of characters that end at or before an offset. -/
def wholeChars : List Char → Nat → Nat
  | [], _ => 0
  | c :: cs, i => if c.utf8Size ≤ i then wholeChars cs (i - c.utf8Size) + 1 else 0

theorem wholeChars_le_length (cs : List Char) (i : Nat) : wholeChars cs i ≤ cs.length := by
  induction cs generalizing i with
  | nil => exact Nat.le_refl 0
  | cons c cs ih =>
    rw [wholeChars, List.length_cons]
    split
    · exact Nat.succ_le_succ (ih _)
    · exact Nat.zero_le _

/-- At least `n` characters are counted at an offset if and only if the first `n` end there or
before. -/
theorem le_wholeChars_iff {cs : List Char} {n : Nat} (hn : n ≤ cs.length) (i : Nat) :
    n ≤ wholeChars cs i ↔ byteLength (cs.take n) ≤ i := by
  induction cs generalizing n i with
  | nil =>
    obtain rfl : n = 0 := Nat.le_zero.1 hn
    simp
  | cons c cs ih =>
    cases n with
    | zero => simp
    | succ n =>
      have hrest := ih (Nat.le_of_succ_le_succ hn) (i - c.utf8Size)
      rw [wholeChars, List.take_succ_cons, byteLength_cons]
      split <;> omega

theorem byteLength_take_wholeChars (cs : List Char) (i : Nat) :
    byteLength (cs.take (wholeChars cs i)) ≤ i :=
  (le_wholeChars_iff (wholeChars_le_length cs i) i).1 (Nat.le_refl _)

theorem wholeChars_mono (cs : List Char) {i j : Nat} (h : i ≤ j) :
    wholeChars cs i ≤ wholeChars cs j :=
  (le_wholeChars_iff (wholeChars_le_length cs i) j).2
    (Nat.le_trans (byteLength_take_wholeChars cs i) h)

/-- Where a character starts, those in front of it are counted. -/
theorem wholeChars_append (front rest : List Char) :
    wholeChars (front ++ rest) (byteLength front) = front.length := by
  induction front with
  | nil =>
    cases rest with
    | nil => rfl
    | cons c cs => exact if_neg (Nat.not_le_of_lt c.utf8Size_pos)
  | cons c front ih =>
    rw [List.cons_append, wholeChars, byteLength_cons, if_pos (Nat.le_add_right _ _),
      Nat.add_sub_cancel_left, ih, List.length_cons]

/-! ### The table -/

theorem length_charOffsetsFrom (n : Nat) (cs : List Char) :
    (charOffsetsFrom n cs).length = byteLength cs + 1 := by
  induction cs generalizing n with
  | nil => rfl
  | cons c cs ih =>
    rw [charOffsetsFrom, List.length_append, List.length_replicate, ih, byteLength_cons,
      Nat.add_assoc]

/-- The entry of an offset, which for every offset past the end is that of the end. -/
theorem getElem?_charOffsetsFrom (n : Nat) (cs : List Char) (i : Nat) :
    (charOffsetsFrom n cs)[min i (byteLength cs)]? = some (n + wholeChars cs i) := by
  induction cs generalizing n i with
  | nil => simp [charOffsetsFrom, wholeChars]
  | cons c cs ih =>
    rw [charOffsetsFrom, byteLength_cons, wholeChars, List.getElem?_append, List.length_replicate]
    by_cases hc : c.utf8Size ≤ i
    · -- the offset lies behind the bytes of the first character
      have hout : ¬ min i (c.utf8Size + byteLength cs) < c.utf8Size := by omega
      have hrest : min i (c.utf8Size + byteLength cs) - c.utf8Size
          = min (i - c.utf8Size) (byteLength cs) := by omega
      rw [if_neg hout, hrest, ih, if_pos hc, Nat.add_assoc, Nat.add_comm 1]
    · have hin : min i (c.utf8Size + byteLength cs) < c.utf8Size := by omega
      rw [if_pos hin, List.getElem?_replicate, if_pos hin, if_neg hc, Nat.add_zero]

/-! ### Places -/

/-- What is extracted between two places is the text that the second one has in front and the first
one has not. -/
theorem extract_eq_of_splits {s front mid rest rest' : String} {a b : s.Pos}
    (ha : a.Splits front rest') (hb : b.Splits (front ++ mid) rest) : s.extract a b = mid := by
  have hbytes : s.toByteArray = front.toByteArray ++ (mid.toByteArray ++ rest.toByteArray) := by
    rw [hb.eq_append, String.toByteArray_append, String.toByteArray_append, ByteArray.append_assoc]
  have hstart : a.offset.byteIdx = front.toByteArray.size + 0 := by
    simp [ha.offset_eq_rawEndPos]
  have hstop : b.offset.byteIdx = front.toByteArray.size + mid.toByteArray.size := by
    simp [hb.offset_eq_rawEndPos]
  rw [← String.toByteArray_inj, String.toByteArray_extract, hbytes, hstart, hstop,
    ByteArray.extract_append_size_add, ByteArray.extract_append_eq_left rfl]

/-- The text between two places starts behind the bytes that the first one counts and ends with
those that the second one counts. -/
theorem exists_append_extract {s : String} {a b : s.Pos} (h : a ≤ b) :
    ∃ front rest, s.toList = front ++ (s.extract a b).toList ++ rest ∧
      a.offset.byteIdx = byteLength front ∧
      b.offset.byteIdx = byteLength (front ++ (s.extract a b).toList) := by
  have ha := a.splits
  have hb := b.splits
  obtain ⟨mid, hfront, -⟩ := (ha.le_iff_exists_eq_append hb).1 h
  rw [hfront] at hb
  rw [extract_eq_of_splits ha hb]
  refine ⟨(s.sliceTo a).copy.toList, (s.sliceFrom b).copy.toList, ?_, ?_, ?_⟩
  · rw [← String.toList_append, ← String.toList_append, ← hb.eq_append]
  · rw [ha.offset_eq_rawEndPos, byteLength_toList]
    rfl
  · rw [hb.offset_eq_rawEndPos, ← String.toList_append, byteLength_toList]
    rfl

end Text

open Text

namespace CharOffsets

/-- The table counts whole characters. -/
theorem get_ofText (cs : List Char) (i : Nat) : (ofText cs).get i = wholeChars cs i := by
  rw [get, ofText, List.size_toArray, length_charOffsetsFrom, Nat.add_sub_cancel,
    List.getElem?_toArray, getElem?_charOffsetsFrom, Option.getD_some, Nat.zero_add]

end CharOffsets

/-! ### Entries counted in words -/

/-- The table of a text with its entries counted in words of 32 bits. -/
structure WordTable where
  /-- One entry for each byte of the text and one for its end. -/
  byByte : Array UInt32

namespace WordTable

/-- The word behind a word, unless it is the last one. -/
def next? (n : UInt32) : Option UInt32 :=
  if n.toNat + 1 < UInt32.size then some (n + 1) else none

/-- The entries with those of some more text, of which the first character is numbered `n`, unless
there is no word for the number behind the last one. -/
def fill (entries : Array UInt32) (n : UInt32) : List Char → Option (Array UInt32)
  | [] => some (entries.push n)
  | c :: cs => (next? n).bind (fill (entries ++ Array.replicate c.utf8Size n) · cs)

/-- The table of a text. -/
def ofText (cs : List Char) : Option WordTable := (fill #[] 0 cs).map WordTable.mk

/-- The entry of an offset, or of the end for every offset past it, if the table has it. -/
def get? (table : WordTable) (byte : UInt32) : Option Nat :=
  table.byByte[min byte.toNat (table.byByte.size - 1)]?.map UInt32.toNat

theorem next?_of_lt {n : UInt32} (h : n.toNat + 1 < UInt32.size) :
    next? n = some (n + 1) ∧ (n + 1).toNat = n.toNat + 1 := by
  refine ⟨if_pos h, ?_⟩
  rw [UInt32.toNat_add]
  exact Nat.mod_eq_of_lt h

/-- While there are words for all numbers, the entries are the numbers. -/
theorem exists_fill {cs : List Char} {n : UInt32} (h : n.toNat + cs.length < UInt32.size)
    (entries : Array UInt32) :
    ∃ words, fill entries n cs = some words ∧ words.toList.map UInt32.toNat
      = entries.toList.map UInt32.toNat ++ charOffsetsFrom n.toNat cs := by
  -- the entries made so far stay in front, and `n` numbers the first character that is left
  induction cs generalizing n entries with
  | nil => exact ⟨_, rfl, by simp [charOffsetsFrom]⟩
  | cons c cs ih =>
    rw [List.length_cons] at h
    obtain ⟨hnext, hnat⟩ := next?_of_lt (n := n) (by omega)
    obtain ⟨words, hfill, hwords⟩ :=
      ih (n := n + 1) (by omega) (entries ++ Array.replicate c.utf8Size n)
    refine ⟨words, by rw [fill, hnext, Option.bind_some, hfill], ?_⟩
    rw [hwords, hnat, charOffsetsFrom]
    simp

/-- A text with fewer characters than there are words has its table, which says the same. -/
theorem exists_ofText {cs : List Char} (h : cs.length < UInt32.size) :
    ∃ table, ofText cs = some table ∧
      ∀ byte, table.get? byte = some ((CharOffsets.ofText cs).get byte.toNat) := by
  obtain ⟨words, hfill, hwords⟩ := exists_fill (n := 0) (by simpa using h) #[]
  have hentries : words.toList.map UInt32.toNat = charOffsetsFrom 0 cs := hwords
  have hsize : words.size = byteLength cs + 1 := by
    rw [← length_charOffsetsFrom 0, ← hentries, List.length_map, Array.length_toList]
  refine ⟨⟨words⟩, by rw [ofText, hfill, Option.map_some], fun byte => ?_⟩
  rw [get?, hsize, Nat.add_sub_cancel, ← Array.getElem?_toList, ← List.getElem?_map, hentries,
    getElem?_charOffsetsFrom, Nat.zero_add, CharOffsets.get_ofText]

end WordTable

/-! ### Spans -/

namespace Script

/-- Where the table sends the two ends of a span, the buffer of the text holds the text of the
span. -/
theorem slice_get_append (front mid rest : List Char) :
    let offsets := CharOffsets.ofText (front ++ mid ++ rest)
    (Buffer.ofText (front ++ mid ++ rest)).slice (offsets.get (byteLength front))
      (offsets.get (byteLength (front ++ mid))) = .ok mid := by
  intro offsets
  have hstart : offsets.get (byteLength front) = front.length := by
    rw [CharOffsets.get_ofText, List.append_assoc, wholeChars_append]
  have hstop : offsets.get (byteLength (front ++ mid)) = (front ++ mid).length := by
    rw [CharOffsets.get_ofText, wholeChars_append]
  have hfits : (Buffer.ofText (front ++ mid ++ rest)).Fits front.length (front ++ mid).length := by
    simp [Buffer.Fits]
  rw [hstart, hstop, Buffer.slice_ofText]
  exact ⟨hfits, by rw [segment, List.take_left, List.drop_left]⟩

/-- A span that is not inverted becomes a range that fits every buffer that started with the
text. -/
theorem fits_spanOf {cs : List Char} {b : Buffer} (hb : b.Reached cs) (span : Span)
    (h : span.start ≤ span.stop) :
    let range := spanOf (CharOffsets.ofText cs) span
    b.Fits range.start range.stop := by
  intro range
  rw [Buffer.Fits, hb.size_eq]
  simp only [range, spanOf, CharOffsets.get_ofText]
  exact ⟨wholeChars_mono cs h, wholeChars_le_length cs span.stop⟩

/-- **A span of bytes becomes the range of its own text.**  Let a text have fewer characters than
there are words of 32 bits.  Then its table can be counted in words, and it has an entry for every
offset.  Between two places of the text, reading the buffer where the table sends them gives the
text between them.  For any offsets, also such as lie inside a character or past the end, the table
keeps their order and stays inside the buffer, so that a span that is not inverted can be read and
replaced in the buffer at any time. -/
theorem byteSpan_addresses_text (s : String) (h : s.length < UInt32.size) :
    let offsets := CharOffsets.ofText s.toList
    let buffer := Buffer.ofText s.toList
    (∃ table, WordTable.ofText s.toList = some table ∧
      ∀ byte, table.get? byte = some (offsets.get byte.toNat)) ∧
    (∀ a b : s.Pos, a ≤ b →
      buffer.slice (offsets.get a.offset.byteIdx) (offsets.get b.offset.byteIdx)
        = .ok (s.extract a b).toList) ∧
    (∀ a b : Nat, a ≤ b → offsets.get a ≤ offsets.get b ∧ offsets.get b ≤ buffer.size) ∧
    ∀ span : Span, span.start ≤ span.stop →
      let range := spanOf offsets span
      ∀ edited : Buffer, edited.Reached s.toList →
        (∃ t, edited.slice range.start range.stop = .ok t) ∧
        ∀ t, ∃ edited', edited.replace range.start range.stop t = .ok edited' := by
  refine ⟨WordTable.exists_ofText (by rwa [String.length_toList]), ?_, ?_, ?_⟩
  · intro a b hab
    obtain ⟨front, rest, hs, ha, hb⟩ := exists_append_extract hab
    have hslice := slice_get_append front (s.extract a b).toList rest
    rwa [← hs, ← ha, ← hb] at hslice
  · intro a b hab
    have hnew : (Buffer.ofText s.toList).Reached s.toList := ⟨[], rfl⟩
    exact fits_spanOf hnew ⟨a, b⟩ hab
  · intro span hspan range edited hedited
    have hfits := fits_spanOf hedited span hspan
    exact ⟨⟨_, Buffer.slice_of_fits hfits⟩, fun t => ⟨_, Buffer.replace_of_fits hfits t⟩⟩

/-- Characters of one to four bytes. -/
def mixedWidths : String := "aé✓𝄞b"

/-- A span of whole characters, and one that starts inside a character and stops past the end. -/
theorem byteSpan_addresses_text_mixedWidths :
    let offsets := CharOffsets.ofText mixedWidths.toList
    let buffer := Buffer.ofText mixedWidths.toList
    mixedWidths.length < UInt32.size ∧
    buffer.slice (offsets.get 3) (offsets.get 10) = .ok ['✓', '𝄞'] ∧
    offsets.get 5 ≤ offsets.get 40 ∧ offsets.get 40 ≤ buffer.size := by
  intro offsets buffer
  have hlen : mixedWidths.length < UInt32.size := by decide
  obtain ⟨-, hslice, horder, -⟩ := byteSpan_addresses_text mixedWidths hlen
  have hplaces := hslice ⟨⟨3⟩, by decide⟩ ⟨⟨10⟩, by decide⟩ (by decide)
  exact ⟨hlen, hplaces, horder 5 40 (by decide)⟩

end Script

end ComponentCompiler
