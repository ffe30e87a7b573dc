/-!
# The patch buffer

A `Buffer` holds a text that is being edited while every position keeps the address it had at
the start.  It has one cell for each character of that text.  A replacement goes into the first
cell of its range and empties the others, so ranges that are disjoint from it still address what
they addressed before, and an enclosing range sees the replacement in place.  An insertion waits
in front of a cell, or in the tail behind the last one.

## Main definitions

* `Buffer.ofText`, `Buffer.text` — from a text and back.
* `Buffer.replace`, `Buffer.slice` — editing and reading a range.
* `RangeError` — a range that does not fit the buffer.
-/

namespace ComponentCompiler

/-- A range that is inverted or reaches past the end of its buffer. -/
structure RangeError where
  /-- Where the range starts. -/
  start : Nat
  /-- Where the range stops, exclusively. -/
  stop : Nat
  /-- The number of positions of the buffer. -/
  size : Nat
  deriving DecidableEq, Repr

/-- The text of the error. -/
def RangeError.message (e : RangeError) : String :=
  s!"invalid range {e.start}..{e.stop} for a buffer of {e.size} characters"

/-- What stands at one position of a buffer. -/
structure Cell where
  /-- The insertions made in front of the position, in call order. -/
  before : List Char := []
  /-- The text of the position itself. -/
  text : List Char := []
  deriving DecidableEq, Repr

namespace Cell

/-- The cell of an untouched character. -/
def ofChar (c : Char) : Cell := { text := [c] }

/-- The insertions of a cell and its text. -/
def content (cell : Cell) : List Char := cell.before ++ cell.text

/-- The cell with a further insertion in front of it. -/
def insert (cell : Cell) (t : List Char) : Cell := { cell with before := cell.before ++ t }

end Cell

/-- A text under editing, addressed by the characters it had at the start. -/
structure Buffer where
  /-- One cell for each character of the first text. -/
  cells : List Cell := []
  /-- The insertions made at the end of the text. -/
  tail : List Char := []
  deriving DecidableEq, Repr

namespace Buffer

/-- The buffer of an untouched text. -/
def ofText (cs : List Char) : Buffer := { cells := cs.map Cell.ofChar }

/-- The number of positions, which no editing changes. -/
def size (b : Buffer) : Nat := b.cells.length

/-- The whole text as it stands. -/
def text (b : Buffer) : List Char := b.cells.flatMap Cell.content ++ b.tail

/-- A range fits when it is not inverted and ends inside the buffer. -/
def Fits (b : Buffer) (start stop : Nat) : Prop := start ≤ stop ∧ stop ≤ b.size

instance (b : Buffer) (start stop : Nat) : Decidable (b.Fits start stop) :=
  inferInstanceAs (Decidable (_ ∧ _))

/-- Insert a text in front of a position, or behind the last one. -/
def insertAt (b : Buffer) (i : Nat) (t : List Char) : Buffer :=
  match b.cells.drop i with
  | [] => { b with tail := b.tail ++ t }
  | cell :: rest => { b with cells := b.cells.take i ++ cell.insert t :: rest }

/-- Put a text into the first cell of a list and empty the `n` cells behind it. -/
def overwrite (t : List Char) (n : Nat) : List Cell → List Cell
  | [] => []
  | cell :: rest =>
      { cell with text := t } :: (List.replicate (min n rest.length) {} ++ rest.drop n)

/-- Replace the text of a range.  An empty range takes the text as an insertion. -/
def replace (b : Buffer) (start stop : Nat) (t : List Char) : Except RangeError Buffer :=
  if b.Fits start stop then
    if start = stop then
      .ok (b.insertAt start t)
    else
      .ok { b with
        cells := b.cells.take start ++ overwrite t (stop - start - 1) (b.cells.drop start) }
  else
    .error ⟨start, stop, b.size⟩

/-- The text of a list of cells without the insertions in front of the first one. -/
def inside : List Cell → List Char
  | [] => []
  | cell :: rest => cell.text ++ rest.flatMap Cell.content

/-- The text of a range as it stands. -/
def slice (b : Buffer) (start stop : Nat) : Except RangeError (List Char) :=
  if b.Fits start stop then
    .ok (inside ((b.cells.drop start).take (stop - start)))
  else
    .error ⟨start, stop, b.size⟩

@[simp] theorem size_ofText (cs : List Char) : (ofText cs).size = cs.length := by
  simp [ofText, size]

@[simp] theorem text_ofText (cs : List Char) : (ofText cs).text = cs := by
  induction cs with
  | nil => rfl
  | cons c cs ih =>
    simp only [ofText, text, List.append_nil] at ih ⊢
    simp only [List.map_cons, List.flatMap_cons, ih]
    rfl

end Buffer

end ComponentCompiler
