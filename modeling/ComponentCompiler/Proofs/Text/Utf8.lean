import ComponentCompiler.Text.Offset

/-!
# The bytes of a text

A text is stored as the UTF-8 forms of its characters, one behind the other.  A character below
`0x80` is one byte, the byte of its own number.  Every other character is a lead byte from `0xC0`
up, and behind it continuation bytes, from `0x80` to `0xBF`.  So a byte below `0x80` is always a
character, and the continuation bytes are what separates the places inside a character from those
where one starts.

## Main definitions

* `encode` — the bytes of a text.
* `leadByte`, `trailBytes` — the first byte of a character, and the others.
* `dropBytes`, `takeBytes` — a text cut at a number of bytes, where a character starts there.
-/

namespace ComponentCompiler.Text

/-- The bytes of a text. -/
def encode (cs : List Char) : List UInt8 := cs.flatMap String.utf8EncodeChar

@[simp] theorem encode_nil : encode [] = [] := rfl

@[simp] theorem encode_cons (c : Char) (cs : List Char) :
    encode (c :: cs) = String.utf8EncodeChar c ++ encode cs := rfl

@[simp] theorem encode_append (cs ds : List Char) : encode (cs ++ ds) = encode cs ++ encode ds :=
  List.flatMap_append

@[simp] theorem length_encode (cs : List Char) : (encode cs).length = byteLength cs := by
  induction cs with
  | nil => rfl
  | cons c cs ih => simp [ih]

/-- The bytes of a text are those that are stored for it. -/
theorem toList_toByteArray (s : String) : s.toByteArray.data.toList = encode s.toList := by
  rw [← String.utf8Encode_toList]
  simp [List.utf8Encode, encode]

/-! ### The bytes of a character -/

/-- The first byte of a character. -/
def leadByte (c : Char) : UInt8 := (String.utf8EncodeChar c).head String.utf8EncodeChar_ne_nil

/-- The bytes of a character behind its first. -/
def trailBytes (c : Char) : List UInt8 := (String.utf8EncodeChar c).tail

theorem utf8EncodeChar_eq_cons (c : Char) :
    String.utf8EncodeChar c = leadByte c :: trailBytes c :=
  (List.cons_head_tail _).symm

theorem length_trailBytes (c : Char) : (trailBytes c).length + 1 = c.utf8Size := by
  rw [← String.length_utf8EncodeChar, utf8EncodeChar_eq_cons, List.length_cons]

/-- A character below `0x80` is the byte of its number. -/
theorem utf8EncodeChar_of_ascii {c : Char} (h : c.toNat < 0x80) :
    String.utf8EncodeChar c = [UInt8.ofNat c.toNat] := by
  unfold String.utf8EncodeChar
  have : c.val.toNat ≤ 127 := Nat.le_of_lt_succ h
  simp only [this, if_true]
  rfl

theorem ofUInt8_leadByte {c : Char} (h : c.toNat < 0x80) : Char.ofUInt8 (leadByte c) = c := by
  have hlead : leadByte c = UInt8.ofNat c.toNat := by simp [leadByte, utf8EncodeChar_of_ascii h]
  have hnat : (UInt8.ofNat c.toNat).toNat = c.toNat := by
    rw [UInt8.toNat_ofNat']
    exact Nat.mod_eq_of_lt (by omega)
  rw [hlead]
  apply Char.ext
  apply UInt32.toNat_inj.1
  change (UInt8.ofNat c.toNat).toUInt32.toNat = c.toNat
  rw [UInt8.toNat_toUInt32, hnat]

theorem trailBytes_of_ascii {c : Char} (h : c.toNat < 0x80) : trailBytes c = [] := by
  simp [trailBytes, utf8EncodeChar_of_ascii h]

theorem utf8Size_of_ascii {c : Char} (h : c.toNat < 0x80) : c.utf8Size = 1 := by
  rw [← length_trailBytes, trailBytes_of_ascii h, List.length_nil]

theorem byteLength_ascii {c : Char} (h : c.toNat < 0x80) : byteLength [c] = 1 := by
  rw [byteLength_cons, utf8Size_of_ascii h, byteLength_nil]

theorem byteLength_escape (c : Char) : byteLength ['\\', c] = 1 + c.utf8Size := by
  rw [byteLength_cons, utf8Size_of_ascii (by decide), byteLength_cons, byteLength_nil, Nat.add_zero]

/-- Every other character is a byte from `0xC0` up and continuation bytes. -/
theorem utf8EncodeChar_of_not_ascii {c : Char} (h : 0x80 ≤ c.toNat) :
    0xC0 ≤ (leadByte c).toNat ∧ ∀ b ∈ trailBytes c, 0x80 ≤ b.toNat ∧ b.toNat < 0xC0 := by
  have hval : ¬ c.val.toNat ≤ 127 := by
    have : c.val.toNat = c.toNat := rfl
    omega
  unfold leadByte trailBytes
  simp only [String.utf8EncodeChar, hval, if_false]
  split
  · simp; omega
  split
  · simp; omega
  · simp; omega

/-- Whether a byte belongs to a character that started before. -/
def isContinuation (b : UInt8) : Bool := b &&& 0xC0 == 0x80

theorem isContinuation_eq (b : UInt8) :
    isContinuation b = (0x80 ≤ b.toNat && b.toNat < 0xC0) := by
  obtain ⟨⟨b⟩⟩ := b
  revert b
  decide +kernel

theorem isContinuation_leadByte (c : Char) : isContinuation (leadByte c) = false := by
  rw [isContinuation_eq]
  rcases Nat.lt_or_ge c.toNat 0x80 with h | h
  · have : (leadByte c).toNat = c.toNat := congrArg Char.toNat (ofUInt8_leadByte h)
    simp [this]
    omega
  · have := (utf8EncodeChar_of_not_ascii h).1
    simp
    omega

theorem le_toNat_trailBytes {c : Char} : ∀ b ∈ trailBytes c, 0x80 ≤ b.toNat := by
  intro b hb
  rcases Nat.lt_or_ge c.toNat 0x80 with h | h
  · simp [trailBytes_of_ascii h] at hb
  · exact ((utf8EncodeChar_of_not_ascii h).2 b hb).1

theorem isContinuation_trailBytes {c : Char} : ∀ b ∈ trailBytes c, isContinuation b = true := by
  intro b hb
  rcases Nat.lt_or_ge c.toNat 0x80 with h | h
  · simp [trailBytes_of_ascii h] at hb
  · have := (utf8EncodeChar_of_not_ascii h).2 b hb
    simp [isContinuation_eq, this]

/-! ### A byte as a character -/

/-- The first byte of a character, read as the character of its number. -/
def leadChar (c : Char) : Char := Char.ofUInt8 (leadByte c)

theorem leadChar_of_ascii {c : Char} (h : c.toNat < 0x80) : leadChar c = c := ofUInt8_leadByte h

theorem le_toNat_leadChar {c : Char} (h : 0x80 ≤ c.toNat) : 0x80 ≤ (leadChar c).toNat :=
  Nat.le_trans (by decide) (utf8EncodeChar_of_not_ascii h).1

/-- A first byte is a character below `0x80` just when the whole character is. -/
theorem leadChar_beq {c d : Char} (hd : d.toNat < 0x80) : (leadChar c == d) = (c == d) := by
  rcases Nat.lt_or_ge c.toNat 0x80 with h | h
  · rw [leadChar_of_ascii h]
  · have hlead := le_toNat_leadChar h
    have hc : c ≠ d := by
      rintro rfl
      omega
    have hl : leadChar c ≠ d := by
      rintro rfl
      omega
    rw [beq_false_of_ne hc, beq_false_of_ne hl]

/-! ### Cutting at bytes -/

/-- What is left of a text behind a number of bytes, if a character or nothing starts there. -/
def dropBytes : List Char → Nat → Option (List Char)
  | cs, 0 => some cs
  | [], _ + 1 => none
  | c :: cs, n + 1 => if c.utf8Size ≤ n + 1 then dropBytes cs (n + 1 - c.utf8Size) else none

/-- The first bytes of a text, if they are whole characters. -/
def takeBytes : List Char → Nat → Option (List Char)
  | _, 0 => some []
  | [], _ + 1 => none
  | c :: cs, n + 1 =>
      if c.utf8Size ≤ n + 1 then (takeBytes cs (n + 1 - c.utf8Size)).map (c :: ·) else none

theorem dropBytes_append (cs ds : List Char) : dropBytes (cs ++ ds) (byteLength cs) = some ds := by
  induction cs with
  | nil => simp [dropBytes]
  | cons c cs ih =>
    obtain ⟨n, hn⟩ := Nat.exists_eq_add_of_lt c.utf8Size_pos
    rw [List.cons_append, byteLength_cons, hn, show 0 + n + 1 + byteLength cs
      = (n + byteLength cs) + 1 by omega, dropBytes, if_pos (by omega), ← ih]
    congr 1
    omega

theorem takeBytes_append (cs ds : List Char) : takeBytes (cs ++ ds) (byteLength cs) = some cs := by
  induction cs with
  | nil => simp [takeBytes]
  | cons c cs ih =>
    obtain ⟨n, hn⟩ := Nat.exists_eq_add_of_lt c.utf8Size_pos
    rw [List.cons_append, byteLength_cons, hn, show 0 + n + 1 + byteLength cs
      = (n + byteLength cs) + 1 by omega, takeBytes, if_pos (by omega)]
    have : n + byteLength cs + 1 - c.utf8Size = byteLength cs := by omega
    rw [this, ih, Option.map_some]

end ComponentCompiler.Text
