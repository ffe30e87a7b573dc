/-!
# Offsets in bytes and in characters

Errors and parsers point into a text by its UTF-8 bytes, while a `Buffer` is addressed by
characters.  `byteLength` measures a text in bytes, and `CharOffsets` turns a byte offset into the
number of characters that begin before it.

## Main definitions

* `byteLength` — the length of the UTF-8 form of a text.
* `CharOffsets.ofText`, `CharOffsets.get` — from byte offsets to character offsets.
-/

namespace ComponentCompiler.Text

/-- The number of bytes in the UTF-8 form of a text. -/
def byteLength : List Char → Nat
  | [] => 0
  | c :: cs => c.utf8Size + byteLength cs

@[simp] theorem byteLength_nil : byteLength [] = 0 := rfl

@[simp] theorem byteLength_cons (c : Char) (cs : List Char) :
    byteLength (c :: cs) = c.utf8Size + byteLength cs := rfl

@[simp] theorem byteLength_append (as bs : List Char) :
    byteLength (as ++ bs) = byteLength as + byteLength bs := by
  induction as with
  | nil => simp
  | cons a as ih => simp [ih, Nat.add_assoc]

/-- The number of bytes is that of the text as it is stored. -/
theorem byteLength_toList (s : String) : byteLength s.toList = s.utf8ByteSize := by
  have hofList : ∀ cs : List Char, (String.ofList cs).utf8ByteSize = byteLength cs := by
    intro cs
    induction cs with
    | nil => rfl
    | cons c cs ih =>
      have hcons : String.ofList (c :: cs) = String.singleton c ++ String.ofList cs := by
        rw [String.singleton_eq_ofList, ← String.ofList_append, List.singleton_append]
      rw [hcons, String.utf8ByteSize_append, String.utf8ByteSize_singleton, ih, byteLength_cons]
  rw [← hofList, String.ofList_toList]

/-- For every byte of a text, and for its end, the character offset it belongs to; `n` is the
offset of the first character. -/
def charOffsetsFrom (n : Nat) : List Char → List Nat
  | [] => [n]
  | c :: cs => List.replicate c.utf8Size n ++ charOffsetsFrom (n + 1) cs

end ComponentCompiler.Text

namespace ComponentCompiler

/-- The character offset of every byte offset of one text. -/
structure CharOffsets where
  /-- One entry for each byte of the text and one for its end. -/
  byByte : Array Nat

namespace CharOffsets

/-- The offsets of a text. -/
def ofText (cs : List Char) : CharOffsets :=
  ⟨(Text.charOffsetsFrom 0 cs).toArray⟩

/-- The character offset of a byte: the byte's own character when it lies inside one, and the end
of the text for every offset past it. -/
def get (offsets : CharOffsets) (byte : Nat) : Nat :=
  offsets.byByte[min byte (offsets.byByte.size - 1)]?.getD 0

end CharOffsets

end ComponentCompiler
