import ComponentCompiler.Proofs.Text.Utf8
import ComponentCompiler.Text.Blank

/-!
# Reading a stored text

A reader of a stored text holds an index into its bytes.  It looks at single bytes, moves the index
over bytes of a kind, looks for marks, and cuts slices out of the text.  Each of these is checked: a
byte has to be inside the text, a search has to start inside it, and a slice has to start and end
where a character does.  A reader that breaks one of these rules halts with a `Breach`.

From an index where a character starts, all of this is what the same reader does with characters.
The bytes below `0x80` that readers look for are characters of their own, and no byte of another
character is one of them.

## Main definitions

* `Stored` — a text with its bytes.
* `Breach`, `Halt` — what must not happen, and why a reader ends early.
* `Stored.byteAt`, `Stored.slice`, `Stored.skip`, `Stored.find`, `Stored.startsWith` — the checked
  steps.
* `cut?` — a text cut at a mark.
* `Stored.At` — a character of the text, or its end, is at an index.
* `Stored.PassesHigh` — a loop steps over the bytes above `0x7F`.

## Main results

* `Stored.At.byteAt`, `Stored.At.slice`, `Stored.At.skip`, `Stored.At.find`,
  `Stored.At.startsWith` — what the steps give where a character starts.
* `Stored.PassesHigh.next` — such a loop gets behind a character once it is behind its first byte.
-/

namespace ComponentCompiler.Text

/-- A text with the bytes that are stored for it. -/
structure Stored where
  /-- The text. -/
  text : List Char
  /-- Its bytes. -/
  bytes : List UInt8
  stored : bytes = encode text

/-- A text as it is stored. -/
def Stored.ofString (s : String) : Stored :=
  ⟨s.toList, s.toByteArray.data.toList, toList_toByteArray s⟩

/-- A text with its bytes. -/
def Stored.of (text : List Char) : Stored := ⟨text, encode text, rfl⟩

/-- What a reader must never do. -/
inductive Breach where
  /-- Read a byte outside the text. -/
  | outside
  /-- Cut the text inside a character, or behind its end, or end a slice before its start. -/
  | astray
  /-- Close more groups than are open. -/
  | underflow
  /-- Stay where it is. -/
  | stuck
  deriving DecidableEq, Repr

/-- Why a reader ends early. -/
inductive Halt (ε : Type) where
  /-- It did what it must not. -/
  | breach (b : Breach)
  /-- The text cannot be read. -/
  | fault (e : ε)
  deriving DecidableEq, Repr

/-! ### Checked steps -/

namespace Stored

variable {ε : Type}

/-- The number of bytes. -/
def size (s : Stored) : Nat := s.bytes.length

/-- The byte at an index, if there is one, as the character of its number. -/
def peek (s : Stored) (i : Nat) : Option Char := s.bytes[i]?.map Char.ofUInt8

/-- The byte at an index, which has to be there. -/
def byteAt (s : Stored) (i : Nat) : Except (Halt ε) Char :=
  (s.peek i).elim (.error (.breach .outside)) .ok

/-- The text between two indices. -/
def slice (s : Stored) (i j : Nat) : Except (Halt ε) (List Char) :=
  if i ≤ j then
    ((dropBytes s.text i).bind (takeBytes · (j - i))).elim (.error (.breach .astray)) .ok
  else .error (.breach .astray)

/-- The index behind the bytes of a kind from an index on. -/
def skip (s : Stored) (p : Char → Bool) (i : Nat) : Except (Halt ε) Nat :=
  if i < s.size then do
    if p (← s.byteAt i) then s.skip p (i + 1) else return i
  else return i
termination_by s.size - i

/-- The number of bytes in front of the first place where a mark stands. -/
def search (mark : List Char) : List UInt8 → Option Nat
  | [] => none
  | b :: bs =>
      if mark.isPrefixOf ((b :: bs).map Char.ofUInt8) then some 0
      else (search mark bs).map (· + 1)

/-- The first place from an index on where a mark stands. -/
def find (s : Stored) (mark : List Char) (i : Nat) : Except (Halt ε) (Option Nat) :=
  if i ≤ s.size then .ok ((search mark (s.bytes.drop i)).map (i + ·))
  else .error (.breach .outside)

/-- Whether a mark stands at an index. -/
def startsWith (s : Stored) (mark : List Char) (i : Nat) : Except (Halt ε) Bool :=
  if i ≤ s.size then .ok (mark.isPrefixOf ((s.bytes.drop i).map Char.ofUInt8))
  else .error (.breach .outside)

end Stored

/-! ### Where an index stands -/

/-- An index into bytes, and the bytes from it on. -/
structure Ahead (bs : List UInt8) (i : Nat) (xs : List UInt8) : Prop where
  le : i ≤ bs.length
  drop : bs.drop i = xs

section Ahead

variable {bs xs ys : List UInt8} {i : Nat} {b : UInt8} {c : Char} {cs : List Char}

theorem Ahead.length_eq (h : Ahead bs i xs) : i + xs.length = bs.length := by
  rw [← h.drop, List.length_drop]
  have := h.le
  omega

theorem Ahead.lt (h : Ahead bs i (b :: xs)) : i < bs.length := by
  have := h.length_eq
  rw [List.length_cons] at this
  omega

theorem Ahead.not_lt (h : Ahead bs i []) : ¬ i < bs.length := by
  rw [← h.length_eq]
  exact Nat.lt_irrefl i

theorem Ahead.append (h : Ahead bs i (xs ++ ys)) : Ahead bs (i + xs.length) ys where
  le := by
    have := h.length_eq
    rw [List.length_append] at this
    omega
  drop := by rw [← List.drop_drop, h.drop, List.drop_left]

theorem Ahead.next (h : Ahead bs i (b :: xs)) : Ahead bs (i + 1) xs := by
  have hb : Ahead bs i ([b] ++ xs) := h
  exact hb.append

theorem Ahead.getElem? (h : Ahead bs i xs) : bs[i]? = xs.head? := by
  rw [← List.head?_drop, h.drop]

/-- The character at an index starts with its first byte, and the others are behind it. -/
theorem Ahead.behindLead (h : Ahead bs i (encode (c :: cs))) :
    Ahead bs (i + 1) (trailBytes c ++ encode cs) := by
  rw [encode_cons, utf8EncodeChar_eq_cons, List.cons_append] at h
  exact h.next

theorem ahead_encode (front cs : List Char) :
    Ahead (encode (front ++ cs)) (byteLength front) (encode cs) where
  le := by simp
  drop := by rw [encode_append, ← length_encode, List.drop_left]

theorem beq_of_high {c d : Char} (hc : 0x80 ≤ c.toNat) (hd : d.toNat < 0x80) :
    (c == d) = false := by
  apply beq_false_of_ne
  rintro rfl
  omega

/-- A loop that steps over every byte above `0x7F` steps over all of them. -/
theorem skip_high {α : Type} {f : Nat → α}
    (hf : ∀ i b xs, Ahead bs i (b :: xs) → 0x80 ≤ (Char.ofUInt8 b).toNat → f i = f (i + 1))
    (h : Ahead bs i (xs ++ ys)) (hxs : ∀ b ∈ xs, 0x80 ≤ b.toNat) : f i = f (i + xs.length) := by
  induction xs generalizing i with
  | nil => rfl
  | cons b xs ih =>
    rw [List.forall_mem_cons] at hxs
    rw [hf i b _ h hxs.1, ih h.next hxs.2, List.length_cons]
    congr 1
    omega

/-- Such a loop, once it is behind the first byte of a character, gets behind the character. -/
theorem skip_trail {α : Type} {f : Nat → α}
    (hf : ∀ i b xs, Ahead bs i (b :: xs) → 0x80 ≤ (Char.ofUInt8 b).toNat → f i = f (i + 1))
    (h : Ahead bs i (encode (c :: cs))) : f (i + 1) = f (i + c.utf8Size) := by
  rw [skip_high hf h.behindLead le_toNat_trailBytes, ← length_trailBytes]
  congr 1
  omega

end Ahead

namespace Stored

variable {ε : Type}

/-! ### Places in a text -/

/-- A rest of the text starts at an index. -/
def At (s : Stored) (i : Nat) (rest : List Char) : Prop :=
  ∃ front, s.text = front ++ rest ∧ i = byteLength front

section At

variable {s : Stored} {i : Nat} {c : Char} {cs front rest : List Char}

theorem size_eq (s : Stored) : s.size = byteLength s.text := by
  rw [size, s.stored, length_encode]

theorem at_start (s : Stored) : s.At 0 s.text := ⟨[], rfl, rfl⟩

theorem at_end (s : Stored) : s.At s.size [] := ⟨s.text, (List.append_nil _).symm, s.size_eq⟩

theorem At.ahead (h : s.At i rest) : Ahead s.bytes i (encode rest) := by
  obtain ⟨front, htext, rfl⟩ := h
  rw [s.stored, htext]
  exact ahead_encode front rest

theorem At.add_byteLength (h : s.At i rest) : i + byteLength rest = s.size := by
  obtain ⟨front, htext, rfl⟩ := h
  rw [size_eq, htext, byteLength_append]

theorem At.behind (h : s.At i (front ++ rest)) : s.At (i + byteLength front) rest := by
  obtain ⟨before, htext, rfl⟩ := h
  exact ⟨before ++ front, by rw [htext, List.append_assoc], by rw [byteLength_append]⟩

theorem At.next (h : s.At i (c :: cs)) : s.At (i + c.utf8Size) cs := by
  have hc : s.At i ([c] ++ cs) := h
  simpa using hc.behind

theorem At.ascii (h : s.At i (c :: cs)) (hc : c.toNat < 0x80) : s.At (i + 1) cs := by
  simpa [utf8Size_of_ascii hc] using h.next

theorem At.le (h : s.At i rest) : i ≤ s.size := by
  have := h.add_byteLength
  omega

theorem At.lt (h : s.At i (c :: cs)) : i < s.size := by
  have := h.add_byteLength
  have := c.utf8Size_pos
  rw [byteLength_cons] at *
  omega

theorem At.not_lt (h : s.At i []) : ¬ i < s.size := by
  have := h.add_byteLength
  rw [byteLength_nil] at this
  omega

/-- The index where a rest of the text starts. -/
def index (s : Stored) (rest : List Char) : Nat := s.size - byteLength rest

theorem At.index_eq (h : s.At i rest) : s.index rest = i := by
  have := h.add_byteLength
  unfold index
  omega

theorem At.peek (h : s.At i (c :: cs)) : s.peek i = some (leadChar c) := by
  unfold Stored.peek
  rw [h.ahead.getElem?, encode_cons, utf8EncodeChar_eq_cons]
  rfl

theorem At.peek_nil (h : s.At i []) : s.peek i = none := by
  unfold Stored.peek
  rw [h.ahead.getElem?]
  rfl

theorem At.peek_beq (h : s.At i rest) {d : Char} (hd : d.toNat < 0x80) :
    (s.peek i == some d) = (rest.head? == some d) := by
  cases rest with
  | nil => rw [h.peek_nil]; rfl
  | cons c cs => rw [h.peek]; exact leadChar_beq hd

theorem At.byteAt (h : s.At i (c :: cs)) :
    (s.byteAt i : Except (Halt ε) Char) = .ok (leadChar c) := by
  rw [Stored.byteAt, h.peek]
  rfl

theorem At.byteAt_ascii (h : s.At i (c :: cs)) (hc : c.toNat < 0x80) :
    (s.byteAt i : Except (Halt ε) Char) = .ok c := by
  rw [h.byteAt, leadChar_of_ascii hc]

/-- The last byte of a text is a character below `0x80` just when the last character is. -/
theorem At.byteAt_last (ε : Type) (h : s.At i (front ++ rest)) (hc : front.getLast? = some c) :
    ∃ b, (s.byteAt (i + byteLength front - 1) : Except (Halt ε) Char) = .ok b ∧
      ∀ d : Char, d.toNat < 0x80 → (b == d) = (c == d) := by
  obtain ⟨ds, rfl⟩ := List.getLast?_eq_some_iff.1 hc
  rw [List.append_assoc] at h
  have hat : s.At (i + byteLength ds) (c :: rest) := h.behind
  have hahead := hat.ahead
  rw [encode_cons, utf8EncodeChar_eq_cons] at hahead
  have hsize := length_trailBytes c
  rw [byteLength_append, byteLength_cons, byteLength_nil, ← hsize]
  rcases List.eq_nil_or_concat (trailBytes c) with htrail | ⟨bs, b, htrail⟩
  · refine ⟨leadChar c, ?_, fun d hd => leadChar_beq hd⟩
    rw [htrail, ← hat.byteAt]
    congr 1
  · -- the last of several bytes is above `0x7F`, and so is the character
    have hb : b ∈ trailBytes c := by rw [htrail]; simp
    have hhigh : 0x80 ≤ c.toNat := by
      rcases Nat.lt_or_ge c.toNat 0x80 with hlt | hge
      · rw [trailBytes_of_ascii hlt] at hb
        cases hb
      · exact hge
    have hlast :
        Ahead s.bytes (i + byteLength ds + (leadByte c :: bs).length) (b :: encode rest) := by
      apply Ahead.append
      rw [htrail] at hahead
      simpa using hahead
    refine ⟨Char.ofUInt8 b, ?_, fun d hd => ?_⟩
    · have hindex : i + (byteLength ds + ((trailBytes c).length + 1 + 0)) - 1
          = i + byteLength ds + (leadByte c :: bs).length := by
        rw [htrail]
        simp
        omega
      rw [hindex, Stored.byteAt, Stored.peek, hlast.getElem?]
      rfl
    · have hbyte : 0x80 ≤ (Char.ofUInt8 b).toNat := le_toNat_trailBytes b hb
      rw [beq_of_high hbyte hd, beq_of_high hhigh hd]

theorem At.dropBytes (h : s.At i rest) : dropBytes s.text i = some rest := by
  obtain ⟨before, htext, rfl⟩ := h
  rw [htext, dropBytes_append]

theorem At.slice (h : s.At i (front ++ rest)) :
    (s.slice i (i + byteLength front) : Except (Halt ε) (List Char)) = .ok front := by
  rw [Stored.slice, if_pos (Nat.le_add_right _ _), h.dropBytes, Option.bind_some,
    Nat.add_sub_cancel_left, takeBytes_append]
  rfl

/-! ### Bytes inside characters -/

theorem lt_of_peek (h : s.peek i = some c) : i < s.size := by
  obtain ⟨b, hb, -⟩ := Option.map_eq_some_iff.1 h
  exact (List.getElem?_eq_some_iff.1 hb).1

theorem byteAt_of_peek (h : s.peek i = some c) :
    (s.byteAt i : Except (Halt ε) Char) = .ok c := by
  rw [Stored.byteAt, h]
  rfl

/-- A loop steps over every byte above `0x7F`. -/
def PassesHigh {α : Type} (s : Stored) (f : Nat → α) : Prop :=
  ∀ i c, s.peek i = some c → 0x80 ≤ c.toNat → f i = f (i + 1)

/-- Such a loop gets behind a character once it is behind the first byte. -/
theorem PassesHigh.next {α : Type} {f : Nat → α} (hf : s.PassesHigh f) (h : s.At i (c :: cs)) :
    f (i + 1) = f (i + c.utf8Size) := by
  refine skip_trail (fun j b xs hb hle => hf j (Char.ofUInt8 b) ?_ hle) h.ahead
  rw [Stored.peek, hb.getElem?]
  rfl

/-- Such a loop gets behind an escaped character once it is two bytes behind the backslash. -/
theorem PassesHigh.escape {α : Type} {f : Nat → α} (hf : s.PassesHigh f)
    (h : s.At i ('\\' :: c :: cs)) : f (i + 2) = f (i + byteLength ['\\', c]) := by
  rw [byteLength_escape, ← Nat.add_assoc]
  exact hf.next (h.ascii (by decide))

/-! ### Runs of characters -/

/-- All bytes above `0x7F` are of the kind, or none is. -/
def Uniform (p : Char → Bool) : Prop :=
  (∀ c : Char, 0x80 ≤ c.toNat → p c = true) ∨ ∀ c : Char, 0x80 ≤ c.toNat → p c = false

theorem uniform_isPlainBlank : Uniform isPlainBlank := by
  right
  intro c hc
  simp [isPlainBlank, beq_of_high hc]

theorem Uniform.leadChar {p : Char → Bool} (hp : Uniform p) (c : Char) :
    p (leadChar c) = p c := by
  rcases Nat.lt_or_ge c.toNat 0x80 with h | h
  · rw [leadChar_of_ascii h]
  · rcases hp with hp | hp
    · rw [hp _ (le_toNat_leadChar h), hp c h]
    · rw [hp _ (le_toNat_leadChar h), hp c h]

theorem skip_of_ahead {p : Char → Bool} {b : UInt8} {xs : List UInt8}
    (h : Ahead s.bytes i (b :: xs)) (hb : p (Char.ofUInt8 b) = true) :
    (s.skip p i : Except (Halt ε) Nat) = s.skip p (i + 1) := by
  have hpeek : s.peek i = some (Char.ofUInt8 b) := by
    rw [Stored.peek, h.getElem?]
    rfl
  have hlt : i < s.size := h.lt
  rw [Stored.skip, if_pos hlt, byteAt_of_peek hpeek]
  exact if_pos hb

/-- Bytes of a kind are passed over as characters of that kind are. -/
theorem At.skip {p : Char → Bool} (hp : Uniform p) (h : s.At i rest) :
    (s.skip p i : Except (Halt ε) Nat) = .ok (i + byteLength (rest.takeWhile p)) := by
  induction rest generalizing i with
  | nil =>
    rw [Stored.skip, if_neg h.not_lt]
    rfl
  | cons c cs ih =>
    by_cases hc : p c = true
    · -- the index gets behind the whole character, as its other bytes are of the kind too
      have hstep : (s.skip p i : Except (Halt ε) Nat) = s.skip p (i + 1) := by
        have hahead := h.ahead
        rw [encode_cons, utf8EncodeChar_eq_cons, List.cons_append] at hahead
        exact skip_of_ahead hahead (by rw [← hc]; exact hp.leadChar c)
      have hrest : (s.skip p (i + 1) : Except (Halt ε) Nat) = s.skip p (i + c.utf8Size) := by
        rcases hp with hhigh | hlow
        · exact skip_trail (f := fun j => (s.skip p j : Except (Halt ε) Nat))
            (fun j b xs hb hle => skip_of_ahead hb (hhigh _ hle)) h.ahead
        · have hascii : c.toNat < 0x80 := by
            rcases Nat.lt_or_ge c.toNat 0x80 with hlt | hge
            · exact hlt
            · rw [hlow c hge] at hc
              cases hc
          rw [utf8Size_of_ascii hascii]
      rw [hstep, hrest, ih h.next, List.takeWhile_cons_of_pos hc, byteLength_cons, Nat.add_assoc]
    · rw [Stored.skip, if_pos h.lt, h.byteAt, List.takeWhile_cons_of_neg hc]
      exact if_neg (by rw [hp.leadChar c]; exact hc)

theorem At.slice_takeWhile (h : s.At i rest) (p : Char → Bool) :
    (s.slice i (i + byteLength (rest.takeWhile p)) : Except (Halt ε) (List Char))
      = .ok (rest.takeWhile p) := by
  rw [← List.takeWhile_append_dropWhile (p := p) (l := rest)] at h
  exact h.slice

theorem At.dropWhile (h : s.At i rest) (p : Char → Bool) :
    s.At (i + byteLength (rest.takeWhile p)) (rest.dropWhile p) := by
  apply At.behind
  rwa [List.takeWhile_append_dropWhile]

end At

end Stored

/-! ### Marks -/

/-- A text cut at the first place where a mark stands: what is in front of the mark, and what is
behind it. -/
def cut? (mark : List Char) : List Char → Option (List Char × List Char)
  | [] => none
  | c :: cs =>
      if mark.isPrefixOf (c :: cs) then some ([], (c :: cs).drop mark.length)
      else (cut? mark cs).map fun (t, r) => (c :: t, r)

/-- The characters of a mark are bytes. -/
structure IsMark (mark : List Char) : Prop where
  ne_nil : mark ≠ []
  ascii : ∀ c ∈ mark, c.toNat < 0x80

@[simp] theorem isMark_singleton {c : Char} : IsMark [c] ↔ c.toNat < 0x80 :=
  ⟨fun h => h.ascii c List.mem_cons_self, fun h => ⟨List.cons_ne_nil _ _, by simpa using h⟩⟩

theorem cut?_eq_some {mark cs front behind : List Char} (h : cut? mark cs = some (front, behind)) :
    cs = front ++ (mark ++ behind) := by
  induction cs generalizing front with
  | nil => cases h
  | cons c cs ih =>
    rw [cut?] at h
    split at h
    · next hmark =>
      obtain ⟨rfl, rfl⟩ := Prod.mk.inj (Option.some.inj h)
      exact (List.prefix_iff_eq_append.1 (List.isPrefixOf_iff_prefix.1 hmark)).symm
    · obtain ⟨⟨t, r⟩, hcut, heq⟩ := Option.map_eq_some_iff.1 h
      obtain ⟨rfl, rfl⟩ := Prod.mk.inj heq
      rw [ih hcut]
      rfl

/-- A mark stands in front of bytes where it stands in front of characters. -/
theorem isPrefixOf_encode {mark : List Char} (hmark : ∀ c ∈ mark, c.toNat < 0x80)
    (cs : List Char) :
    mark.isPrefixOf ((encode cs).map Char.ofUInt8) = mark.isPrefixOf cs := by
  induction mark generalizing cs with
  | nil => simp
  | cons m mark ih =>
    rw [List.forall_mem_cons] at hmark
    cases cs with
    | nil => rfl
    | cons c cs =>
      have hfirst : (m == leadChar c) = (m == c) := by
        rw [Bool.beq_comm, leadChar_beq hmark.1, Bool.beq_comm]
      rw [encode_cons, utf8EncodeChar_eq_cons, List.cons_append, List.map_cons,
        List.isPrefixOf_cons_cons, List.isPrefixOf_cons_cons]
      change (m == leadChar c && _) = _
      rw [hfirst]
      -- past its first byte the mark can only go on if the character has no other byte
      by_cases hm : m = c
      · rw [trailBytes_of_ascii (hm ▸ hmark.1), List.nil_append, ih hmark.2]
      · rw [beq_false_of_ne hm, Bool.false_and, Bool.false_and]

theorem search_high {mark : List Char} (hmark : IsMark mark) {xs : List UInt8}
    (hxs : ∀ b ∈ xs, 0x80 ≤ b.toNat) (ys : List UInt8) :
    Stored.search mark (xs ++ ys) = (Stored.search mark ys).map (xs.length + ·) := by
  induction xs with
  | nil => simp
  | cons b xs ih =>
    rw [List.forall_mem_cons] at hxs
    obtain ⟨m, ms, rfl⟩ := List.exists_cons_of_ne_nil hmark.ne_nil
    have hb : (m == Char.ofUInt8 b) = false := by
      rw [Bool.beq_comm]
      exact beq_of_high hxs.1 (hmark.ascii m List.mem_cons_self)
    rw [List.cons_append, Stored.search, List.map_cons, List.isPrefixOf_cons_cons, hb,
      Bool.false_and, if_neg Bool.false_ne_true, ih hxs.2, Option.map_map]
    congr 1
    funext n
    simp only [Function.comp, List.length_cons]
    omega

/-- A mark is found among bytes where it is found among characters. -/
theorem search_encode {mark : List Char} (hmark : IsMark mark) (cs : List Char) :
    Stored.search mark (encode cs) = (cut? mark cs).map fun (front, _) => byteLength front := by
  induction cs with
  | nil => rfl
  | cons c cs ih =>
    have hcons := isPrefixOf_encode hmark.ascii (c :: cs)
    rw [encode_cons, utf8EncodeChar_eq_cons, List.cons_append] at hcons ⊢
    rw [Stored.search, hcons, cut?]
    split
    · rfl
    · rw [search_high hmark le_toNat_trailBytes, ih, Option.map_map, Option.map_map,
        Option.map_map]
      congr 1
      funext ⟨front, behind⟩
      have := length_trailBytes c
      simp only [Function.comp, byteLength_cons]
      omega

namespace Stored

variable {ε : Type} {s : Stored} {i : Nat} {rest mark : List Char}

theorem At.find (h : s.At i rest) (hmark : IsMark mark) :
    (s.find mark i : Except (Halt ε) (Option Nat))
      = .ok ((cut? mark rest).map fun (front, _) => i + byteLength front) := by
  rw [Stored.find, if_pos h.le, h.ahead.drop, search_encode hmark, Option.map_map]
  rfl

theorem At.startsWith (h : s.At i rest) (hmark : ∀ c ∈ mark, c.toNat < 0x80) :
    (s.startsWith mark i : Except (Halt ε) Bool) = .ok (mark.isPrefixOf rest) := by
  rw [Stored.startsWith, if_pos h.le, h.ahead.drop, isPrefixOf_encode hmark]

end Stored

end ComponentCompiler.Text
