/-!
# Insertions in a text

A text into which another one was inserted at some positions can be had back: what was inserted is
erased again.  Positions are those of the text without insertions, in ascending order; inserting
goes through them from the last to the first and erasing from the first to the last, so that at
every step the positions still ahead mean what they meant at the start.

## Main definitions

* `insertText`, `eraseText` — at one position.
* `insertAll`, `eraseAll` — at several positions.

## Main results

* `eraseAll_insertAll` — erasing what was inserted gives the text back.
* `insertAll_cons` — insertions behind the first character.
-/

namespace ComponentCompiler.Text

/-- A text with another one in front of a position. -/
def insertText (t : List Char) (p : Nat) (cs : List Char) : List Char :=
  cs.take p ++ (t ++ cs.drop p)

/-- A text without the `n` characters from a position on. -/
def eraseText (n p : Nat) (cs : List Char) : List Char := cs.take p ++ cs.drop (p + n)

/-- A text with another one in front of each of the given positions. -/
def insertAll (t : List Char) (ps : List Nat) (cs : List Char) : List Char :=
  ps.foldr (insertText t) cs

/-- A text without the `n` characters that were inserted in front of each of the given positions. -/
def eraseAll (n : Nat) (ps : List Nat) (cs : List Char) : List Char :=
  ps.foldl (fun cs p => eraseText n p cs) cs

theorem eraseText_insertText (t : List Char) {p : Nat} {cs : List Char} (h : p ≤ cs.length) :
    eraseText t.length p (insertText t p cs) = cs := by
  have hlen : (cs.take p).length = p := by rw [List.length_take, Nat.min_eq_left h]
  have hfront : (insertText t p cs).take p = cs.take p := by
    rw [insertText, List.take_append_of_le_length (Nat.le_of_eq hlen.symm), List.take_take,
      Nat.min_self]
  have hback : (insertText t p cs).drop (p + t.length) = cs.drop p := by
    rw [insertText, ← List.drop_drop, List.drop_append_of_le_length (Nat.le_of_eq hlen.symm),
      List.drop_of_length_le (Nat.le_of_eq hlen), List.nil_append, List.drop_left]
  rw [eraseText, hfront, hback, List.take_append_drop]

theorem length_le_insertAll (t : List Char) (ps : List Nat) (cs : List Char) :
    cs.length ≤ (insertAll t ps cs).length := by
  induction ps with
  | nil => exact Nat.le_refl _
  | cons p ps ih =>
    refine Nat.le_trans ih ?_
    simp only [insertAll, List.foldr_cons, insertText, List.length_append, List.length_take,
      List.length_drop]
    omega

/-- **Erasing what was inserted gives the text back.** -/
theorem eraseAll_insertAll (t : List Char) {ps : List Nat} {cs : List Char}
    (h : ∀ p ∈ ps, p ≤ cs.length) : eraseAll t.length ps (insertAll t ps cs) = cs := by
  induction ps with
  | nil => rfl
  | cons p ps ih =>
    have hp : p ≤ (insertAll t ps cs).length :=
      Nat.le_trans (h p List.mem_cons_self) (length_le_insertAll t ps cs)
    show eraseAll t.length ps (eraseText t.length p (insertText t p (insertAll t ps cs))) = cs
    rw [eraseText_insertText t hp]
    exact ih fun q hq => h q (List.mem_cons_of_mem p hq)

/-- Insertions behind the first character leave it where it is. -/
theorem insertAll_cons (t : List Char) (ps : List Nat) (c : Char) (cs : List Char) :
    insertAll t (ps.map (· + 1)) (c :: cs) = c :: insertAll t ps cs := by
  induction ps with
  | nil => rfl
  | cons p ps ih =>
    show insertText t (p + 1) (insertAll t (ps.map (· + 1)) (c :: cs)) = _
    rw [ih]
    rfl

/-- An insertion behind a character. -/
theorem insertText_behind (t front : List Char) (c : Char) (back : List Char) :
    insertText t (front.length + 1) (front ++ c :: back) = front ++ c :: (t ++ back) := by
  have hsplit : front ++ c :: back = (front ++ [c]) ++ back := by
    rw [List.append_assoc, List.singleton_append]
  have hlen : (front ++ [c]).length = front.length + 1 := List.length_append
  rw [insertText, hsplit, List.take_left' hlen, List.drop_left' hlen, List.append_assoc,
    List.singleton_append]

end ComponentCompiler.Text
