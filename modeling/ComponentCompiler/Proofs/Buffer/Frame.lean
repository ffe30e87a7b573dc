import ComponentCompiler.Proofs.Buffer
import ComponentCompiler.Syntax.Walk

/-!
# A patch changes exactly its range

What a replacement does is said here for each cell on its own (`Patch.onCell`), so that everything
outside its range is seen to stay as it was.  The cells of the range itself are the part `M` of
`A ++ M ++ Z`.  What they contribute to the text is what waits in front of the first of them, which
belongs to no reading of the range and which a replacement leaves alone (`lead`), and what reading
the range gives (`inside`), which is the new text behind a replacement.

Nothing is asked of the cells: these are facts about every state that calls can lead to, also when
ranges overlapped or lay inside each other and when calls failed.

## Main definitions

* `Patch` — one call: a range and the text that goes there.
* `Patch.onCell`, `Patch.onTail`, `Buffer.patched` — what a call does that succeeds.
* `Buffer.after`, `Buffer.afterAll` — the buffer behind one call and behind several.

## Main results

* `replace_of_fits` — a range that fits is patched cell by cell.
* `slice_replace_of_disjoint` — what lies outside the range is read as before.
* `exists_slice_around`, `exists_text_around` — what encloses the range changes in the range only.
* `replace_changes_range` — all of this, in every state behind any calls.
-/

namespace ComponentCompiler

/-- One replacement: a range and the text that goes there. -/
structure Patch where
  /-- Where the range starts. -/
  start : Nat
  /-- Where the range stops, exclusively. -/
  stop : Nat
  /-- The text that goes there. -/
  text : List Char
  deriving DecidableEq, Repr

namespace Patch

/-- What a patch makes of the cell at a position.  An empty range inserts in front of the cell at
it; any other range fills its first cell and empties the others. -/
def onCell (p : Patch) (i : Nat) (cell : Cell) : Cell :=
  if p.start = p.stop then
    if i = p.start then cell.insert p.text else cell
  else if i = p.start then { cell with text := p.text }
  else if p.start < i ∧ i < p.stop then {}
  else cell

/-- What a patch makes of the tail of a buffer of the given size. -/
def onTail (p : Patch) (size : Nat) (tail : List Char) : List Char :=
  if p.start = p.stop ∧ p.start = size then tail ++ p.text else tail

end Patch

namespace Buffer

/-- The buffer with a patch in every cell. -/
def patched (b : Buffer) (p : Patch) : Buffer :=
  ⟨b.cells.mapIdx p.onCell, p.onTail b.size b.tail⟩

/-- The buffer behind a call; a failed call leaves it as it was. -/
def after (b : Buffer) (p : Patch) : Buffer :=
  match b.replace p.start p.stop p.text with
  | .ok b' => b'
  | .error _ => b

/-- The buffer behind several calls. -/
def afterAll (b : Buffer) (ps : List Patch) : Buffer := ps.foldl after b

/-! ### Cell by cell -/

theorem getElem?_overwrite (t : List Char) (n : Nat) (cells : List Cell) (i : Nat) :
    (overwrite t n cells)[i]? =
      if i = 0 then cells[i]?.map fun cell => { cell with text := t }
      else if i ≤ n then cells[i]?.map fun _ => {}
      else cells[i]? := by
  cases cells with
  | nil => simp [overwrite]
  | cons cell rest =>
    cases i with
    | zero => rfl
    | succ i =>
      rw [overwrite, List.getElem?_cons_succ, List.getElem?_cons_succ, if_neg (Nat.succ_ne_zero i),
        List.getElem?_append, List.length_replicate, List.getElem?_replicate, List.getElem?_drop]
      by_cases hi : i < rest.length
      · by_cases hn : i + 1 ≤ n
        · have hin : i < min n rest.length := by omega
          rw [if_pos hn, if_pos hin, if_pos hin, List.getElem?_eq_getElem hi, Option.map_some]
        · have hout : ¬ i < min n rest.length := by omega
          have hpos : n + (i - min n rest.length) = i := by omega
          rw [if_neg hn, if_neg hout, hpos]
      · have hout : ¬ i < min n rest.length := by omega
        have hnone : rest[i]? = none := List.getElem?_eq_none (by omega)
        rw [if_neg hout, hnone, List.getElem?_eq_none (by omega), Option.map_none, ite_self]

/-- An insertion is made in one cell, or in the tail. -/
theorem insertAt_eq_patched (b : Buffer) {i : Nat} (hi : i ≤ b.size) (t : List Char) :
    b.insertAt i t = b.patched ⟨i, i, t⟩ := by
  have hcells : b.cells.mapIdx (Patch.onCell ⟨i, i, t⟩) = b.cells.modify i (·.insert t) := by
    refine List.ext_getElem? fun j => ?_
    have hcell : Patch.onCell ⟨i, i, t⟩ j = fun cell => if i = j then cell.insert t else cell := by
      funext cell
      simp only [Patch.onCell, if_true, eq_comm]
    rw [List.getElem?_mapIdx, List.getElem?_modify, hcell]
    rfl
  rw [insertAt, patched, hcells, Patch.onTail]
  by_cases hlt : i < b.cells.length
  · have hne : ¬ (i = i ∧ i = b.size) := fun h => Nat.ne_of_lt hlt h.2
    rw [List.drop_eq_getElem_cons hlt, List.modify_eq_take_cons_drop hlt, if_neg hne]
  · have hle : b.cells.length ≤ i := Nat.le_of_not_lt hlt
    rw [List.drop_eq_nil_of_le hle, List.modify_eq_self hle,
      if_pos ⟨rfl, Nat.le_antisymm hi hle⟩]

/-- A range that is not empty is overwritten cell by cell. -/
theorem take_append_overwrite {cells : List Cell} {start stop : Nat} (hlt : start < stop)
    (hstop : stop ≤ cells.length) (t : List Char) :
    cells.take start ++ overwrite t (stop - start - 1) (cells.drop start)
      = cells.mapIdx (Patch.onCell ⟨start, stop, t⟩) := by
  have hlen : (cells.take start).length = start := by
    rw [List.length_take, Nat.min_eq_left (by omega)]
  refine List.ext_getElem? fun i => ?_
  have hcell : Patch.onCell ⟨start, stop, t⟩ i
      = fun cell => if i = start then { cell with text := t }
        else if start < i ∧ i < stop then {} else cell := by
    funext cell
    rw [Patch.onCell, if_neg (Nat.ne_of_lt hlt)]
  rw [List.getElem?_mapIdx, List.getElem?_append, hlen, getElem?_overwrite, List.getElem?_take,
    List.getElem?_drop, hcell]
  -- a cell before the range, its first cell, one of the others, and a cell behind it
  by_cases hi : i < start
  · have h₁ : i ≠ start := by omega
    have h₂ : ¬ (start < i ∧ i < stop) := by omega
    simp only [if_pos hi, if_neg h₁, if_neg h₂, Option.map_id']
  · have hpos : start + (i - start) = i := by omega
    rw [if_neg hi, hpos]
    by_cases h₁ : i = start
    · have h₀ : i - start = 0 := by omega
      simp only [if_pos h₀, if_pos h₁]
    · have h₀ : i - start ≠ 0 := by omega
      by_cases h₂ : i < stop
      · have h₃ : i - start ≤ stop - start - 1 := by omega
        have h₄ : start < i ∧ i < stop := by omega
        simp only [if_neg h₀, if_pos h₃, if_neg h₁, if_pos h₄]
      · have h₃ : ¬ i - start ≤ stop - start - 1 := by omega
        have h₄ : ¬ (start < i ∧ i < stop) := by omega
        simp only [if_neg h₀, if_neg h₃, if_neg h₁, if_neg h₄, Option.map_id']

/-- **A range that fits is patched cell by cell.** -/
theorem replace_of_fits {b : Buffer} {start stop : Nat} (h : b.Fits start stop) (t : List Char) :
    b.replace start stop t = .ok (b.patched ⟨start, stop, t⟩) := by
  obtain ⟨hle, hstop⟩ := h
  rw [replace, if_pos ⟨hle, hstop⟩]
  by_cases heq : start = stop
  · subst heq
    rw [if_pos rfl, insertAt_eq_patched b hstop]
  · have htail : Patch.onTail ⟨start, stop, t⟩ b.size b.tail = b.tail := by
      rw [Patch.onTail, if_neg fun h => heq h.1]
    rw [if_neg heq, patched, take_append_overwrite (Nat.lt_of_le_of_ne hle heq) hstop, htail]

theorem replace_of_not_fits {b : Buffer} {start stop : Nat} (h : ¬ b.Fits start stop)
    (t : List Char) : b.replace start stop t = .error ⟨start, stop, b.size⟩ := by
  rw [replace, if_neg h]

theorem slice_of_not_fits {b : Buffer} {start stop : Nat} (h : ¬ b.Fits start stop) :
    b.slice start stop = .error ⟨start, stop, b.size⟩ := by
  rw [slice, if_neg h]

theorem slice_of_fits {b : Buffer} {start stop : Nat} (h : b.Fits start stop) :
    b.slice start stop = .ok (inside ((b.cells.drop start).take (stop - start))) := by
  rw [slice, if_pos h]

@[simp] theorem size_patched (b : Buffer) (p : Patch) : (b.patched p).size = b.size := by
  rw [patched, size, List.length_mapIdx]
  rfl

theorem after_of_fits {b : Buffer} {p : Patch} (h : b.Fits p.start p.stop) :
    b.after p = b.patched p := by
  rw [after, replace_of_fits h p.text]

theorem after_of_not_fits {b : Buffer} {p : Patch} (h : ¬ b.Fits p.start p.stop) :
    b.after p = b := by
  rw [after, replace_of_not_fits h]

@[simp] theorem size_after (b : Buffer) (p : Patch) : (b.after p).size = b.size := by
  by_cases h : b.Fits p.start p.stop
  · rw [after_of_fits h, size_patched]
  · rw [after_of_not_fits h]

/-- No call changes the number of positions. -/
@[simp] theorem size_afterAll (b : Buffer) (ps : List Patch) : (b.afterAll ps).size = b.size := by
  induction ps generalizing b with
  | nil => rfl
  | cons p ps ih =>
    show ((b.after p).afterAll ps).size = b.size
    rw [ih, size_after]

/-! ### Outside the range -/

/-- Reading a range depends on the cells in it only. -/
theorem slice_congr {b b' : Buffer} (hsize : b.size = b'.size) {c d : Nat}
    (h : ∀ i, c ≤ i → i < d → b.cells[i]? = b'.cells[i]?) : b.slice c d = b'.slice c d := by
  have hfits : b.Fits c d ↔ b'.Fits c d := by rw [Fits, Fits, hsize]
  by_cases hf : b.Fits c d
  · have hcells : (b.cells.drop c).take (d - c) = (b'.cells.drop c).take (d - c) := by
      refine List.ext_getElem? fun i => ?_
      rw [List.getElem?_take, List.getElem?_take, List.getElem?_drop, List.getElem?_drop]
      by_cases hi : i < d - c
      · rw [if_pos hi, if_pos hi, h (c + i) (by omega) (by omega)]
      · rw [if_neg hi, if_neg hi]
    rw [slice_of_fits hf, slice_of_fits (hfits.1 hf), hcells]
  · rw [slice_of_not_fits hf, slice_of_not_fits (mt hfits.2 hf), hsize]

/-- **What lies outside the range is read as before.** -/
theorem slice_replace_of_disjoint {b b' : Buffer} {start stop : Nat} {t : List Char}
    (hlt : start < stop) (h : b.replace start stop t = .ok b') {c d : Nat}
    (hdisjoint : ∀ i, c ≤ i → i < d → i < start ∨ stop ≤ i) : b'.slice c d = b.slice c d := by
  by_cases hfits : b.Fits start stop
  · rw [replace_of_fits hfits] at h
    cases h
    refine slice_congr (size_patched b _) fun i hc hd => ?_
    have hcell : Patch.onCell ⟨start, stop, t⟩ i = id := by
      funext cell
      have h₁ : ¬ start = stop := by omega
      have h₂ : ¬ i = start := by
        have := hdisjoint i hc hd
        omega
      have h₃ : ¬ (start < i ∧ i < stop) := by
        have := hdisjoint i hc hd
        omega
      simp only [Patch.onCell, if_neg h₁, if_neg h₂, if_neg h₃, id]
    rw [patched, List.getElem?_mapIdx, hcell, Option.map_id, id]
  · rw [replace_of_not_fits hfits] at h
    cases h

/-! ### Around the range -/

/-- What waits in front of the first of some cells. -/
def lead : List Cell → List Char
  | [] => []
  | cell :: _ => cell.before

/-- Cells contribute what waits in front of the first of them and what reading them gives. -/
theorem content_eq_lead_inside (M : List Cell) : M.flatMap Cell.content = lead M ++ inside M := by
  cases M with
  | nil => rfl
  | cons cell rest => rw [List.flatMap_cons, Cell.content, lead, inside, List.append_assoc]

theorem inside_append {M : List Cell} (hM : M ≠ []) (Z : List Cell) :
    inside (M ++ Z) = inside M ++ Z.flatMap Cell.content := by
  cases M with
  | nil => exact absurd rfl hM
  | cons cell rest =>
    rw [List.cons_append, inside, inside, List.flatMap_append, List.append_assoc]

/-- What is in front of a range when it is read from the first of the cells `A` on. -/
def insideBefore (A M : List Cell) : List Char :=
  match A with
  | [] => []
  | _ :: _ => inside A ++ lead M

theorem inside_around (A : List Cell) {M : List Cell} (hM : M ≠ []) (Z : List Cell) :
    inside (A ++ M ++ Z) = insideBefore A M ++ inside M ++ Z.flatMap Cell.content := by
  cases A with
  | nil => rw [List.nil_append, inside_append hM, insideBefore, List.nil_append]
  | cons cell rest =>
    rw [List.append_assoc, inside_append (List.cons_ne_nil cell rest), List.flatMap_append,
      content_eq_lead_inside M, insideBefore]
    simp only [List.append_assoc]

theorem lead_overwrite (t : List Char) (n : Nat) (M : List Cell) :
    lead (overwrite t n M) = lead M := by
  cases M with
  | nil => rfl
  | cons cell rest => rfl

theorem insideBefore_overwrite (A : List Cell) (t : List Char) (n : Nat) (M : List Cell) :
    insideBefore A (overwrite t n M) = insideBefore A M := by
  cases A with
  | nil => rfl
  | cons cell rest => rw [insideBefore, insideBefore, lead_overwrite]

/-- Behind a replacement the cells of the range read as the new text. -/
theorem inside_overwrite {M : List Cell} (hM : M ≠ []) (t : List Char) :
    inside (overwrite t (M.length - 1) M) = t := by
  cases M with
  | nil => exact absurd rfl hM
  | cons cell rest =>
    have hempty : (List.replicate rest.length ({} : Cell)).flatMap Cell.content = [] := by
      simp [Cell.content, List.flatMap_eq_nil_iff]
    simp only [overwrite, List.length_cons, Nat.add_sub_cancel, Nat.min_self, List.drop_length,
      List.append_nil, inside, hempty]

theorem overwrite_ne_nil {M : List Cell} (hM : M ≠ []) (t : List Char) (n : Nat) :
    overwrite t n M ≠ [] := by
  intro h
  have hlen := length_overwrite t n M
  rw [h, List.length_nil] at hlen
  exact hM (List.length_eq_zero_iff.1 hlen.symm)

/-- The cells around a range. -/
theorem exists_cells {b : Buffer} {start stop : Nat} (h : b.Fits start stop) :
    ∃ A M Z, b.cells = A ++ M ++ Z ∧ A.length = start ∧ A.length + M.length = stop := by
  obtain ⟨hle, hstop⟩ := h
  rw [size] at hstop
  refine ⟨b.cells.take start, (b.cells.drop start).take (stop - start), b.cells.drop stop, ?_, ?_,
    ?_⟩
  · have hdrop : b.cells.drop stop = (b.cells.drop start).drop (stop - start) := by
      rw [List.drop_drop, Nat.add_sub_cancel' hle]
    rw [List.append_assoc, hdrop, List.take_append_drop, List.take_append_drop]
  · rw [List.length_take]
    omega
  · rw [List.length_take, List.length_take, List.length_drop]
    omega

variable {b b' : Buffer} {start stop : Nat} {t old : List Char}

/-- The cells around a range that is not empty, before a call and behind it. -/
theorem exists_cells_replace (hlt : start < stop) (h : b.replace start stop t = .ok b') :
    ∃ A M Z, M ≠ [] ∧ A.length = start ∧ A.length + M.length = stop ∧ b.cells = A ++ M ++ Z ∧
      b.slice start stop = .ok (inside M) ∧
      b' = ⟨A ++ overwrite t (M.length - 1) M ++ Z, b.tail⟩ := by
  by_cases hfits : b.Fits start stop
  · obtain ⟨A, M, Z, hcells, hA, hM⟩ := exists_cells hfits
    have hM0 : M ≠ [] := List.length_pos_iff.1 (by omega)
    have hreplace := replace_cells A hM0 Z b.tail t
    have hslice := slice_cells A M Z b.tail
    rw [← hcells, hM, hA] at hreplace hslice
    exact ⟨A, M, Z, hM0, hA, hM, hcells, hslice, Except.ok.inj (h.symm.trans hreplace)⟩
  · rw [replace_of_not_fits hfits] at h
    cases h

/-- The cells of a range that encloses the cells `M`. -/
theorem take_drop_around (A M Z : List Cell) {c d : Nat} (hc : c ≤ A.length)
    (hd : A.length + M.length ≤ d) :
    ((A ++ M ++ Z).drop c).take (d - c)
      = A.drop c ++ M ++ Z.take (d - (A.length + M.length)) := by
  have hlen : (A.drop c ++ M).length = A.length + M.length - c := by
    rw [List.length_append, List.length_drop]
    omega
  have hrest : d - c - (A.length + M.length - c) = d - (A.length + M.length) := by omega
  have hle : A.length + M.length - c ≤ d - c := by omega
  rw [List.append_assoc, List.drop_append_of_le_length hc, ← List.append_assoc, List.take_append,
    hlen, hrest, List.take_of_length_le (by rw [hlen]; exact hle)]

/-- A range reads as the text that was put there. -/
theorem slice_replace_self (hlt : start < stop) (h : b.replace start stop t = .ok b') :
    b'.slice start stop = .ok t := by
  obtain ⟨A, M, Z, hM, rfl, rfl, -, -, rfl⟩ := exists_cells_replace hlt h
  have hslice := slice_cells A (overwrite t (M.length - 1) M) Z b.tail
  rw [length_overwrite, inside_overwrite hM] at hslice
  exact hslice

/-- **What encloses the range changes in the range only.** -/
theorem exists_slice_around (hlt : start < stop) (h : b.replace start stop t = .ok b')
    (hold : b.slice start stop = .ok old) {c d : Nat} (hc : c ≤ start) (hd : stop ≤ d)
    (hsize : d ≤ b.size) :
    ∃ P S, b.slice c d = .ok (P ++ old ++ S) ∧ b'.slice c d = .ok (P ++ t ++ S) := by
  obtain ⟨A, M, Z, hM, rfl, rfl, hcells, hslice, rfl⟩ := exists_cells_replace hlt h
  obtain rfl : inside M = old := Except.ok.inj (hslice.symm.trans hold)
  have hM' := overwrite_ne_nil hM t (M.length - 1)
  have hlen := length_overwrite t (M.length - 1) M
  have hfits : b.Fits c d := ⟨by omega, hsize⟩
  have hfits' : (Buffer.mk (A ++ overwrite t (M.length - 1) M ++ Z) b.tail).Fits c d := by
    refine ⟨by omega, ?_⟩
    rw [size, hcells] at hsize
    simpa only [size, List.length_append, hlen] using hsize
  refine ⟨insideBefore (A.drop c) M, (Z.take (d - (A.length + M.length))).flatMap Cell.content,
    ?_, ?_⟩
  · rw [slice_of_fits hfits, hcells, take_drop_around A M Z hc hd, inside_around _ hM]
  · rw [slice_of_fits hfits', take_drop_around A _ Z hc (by rw [hlen]; exact hd), hlen,
      inside_around _ hM', insideBefore_overwrite, inside_overwrite hM]

/-- **The whole text changes in the range only.** -/
theorem exists_text_around (hlt : start < stop) (h : b.replace start stop t = .ok b')
    (hold : b.slice start stop = .ok old) :
    ∃ P S, b.text = P ++ old ++ S ∧ b'.text = P ++ t ++ S := by
  obtain ⟨A, M, Z, hM, rfl, rfl, hcells, hslice, rfl⟩ := exists_cells_replace hlt h
  obtain rfl : inside M = old := Except.ok.inj (hslice.symm.trans hold)
  refine ⟨A.flatMap Cell.content ++ lead M, Z.flatMap Cell.content ++ b.tail, ?_, ?_⟩
  · rw [text, hcells, List.flatMap_append, List.flatMap_append, content_eq_lead_inside M]
    simp only [List.append_assoc]
  · rw [text, List.flatMap_append, List.flatMap_append,
      content_eq_lead_inside (overwrite t (M.length - 1) M), lead_overwrite, inside_overwrite hM]
    simp only [List.append_assoc]

/-! ### Every state -/

/-- The states of a buffer that started with a text: it is behind some calls, which may have
failed. -/
def Reached (s : List Char) (b : Buffer) : Prop := ∃ history, b = (ofText s).afterAll history

theorem Reached.size_eq {s : List Char} (h : b.Reached s) : b.size = s.length := by
  obtain ⟨history, rfl⟩ := h
  rw [size_afterAll, size_ofText]

theorem not_fits_iff {s : List Char} (h : b.Reached s) :
    ¬ b.Fits start stop ↔ stop < start ∨ s.length < stop := by
  rw [Fits, h.size_eq]
  omega

theorem replace_eq_error_iff : (∃ e, b.replace start stop t = .error e) ↔ ¬ b.Fits start stop := by
  by_cases h : b.Fits start stop
  · rw [replace_of_fits h]
    exact iff_of_false (fun ⟨_, he⟩ => nomatch he) fun hn => hn h
  · rw [replace_of_not_fits h]
    exact iff_of_true ⟨_, rfl⟩ h

theorem slice_eq_error_iff : (∃ e, b.slice start stop = .error e) ↔ ¬ b.Fits start stop := by
  by_cases h : b.Fits start stop
  · rw [slice_of_fits h]
    exact iff_of_false (fun ⟨_, he⟩ => nomatch he) fun hn => hn h
  · rw [slice_of_not_fits h]
    exact iff_of_true ⟨_, rfl⟩ h

/-- The second buffer is the first one with the text of a range exchanged. -/
structure Exchanged (start stop : Nat) (old new : List Char) (b b' : Buffer) : Prop where
  /-- The whole text changes in one place, from the old text to the new one. -/
  whole : ∃ P S, b.text = P ++ old ++ S ∧ b'.text = P ++ new ++ S
  /-- The range is read as the new text. -/
  range : b'.slice start stop = .ok new
  /-- A range without a position in common is read as before. -/
  disjoint : ∀ c d, (∀ i, c ≤ i → i < d → i < start ∨ stop ≤ i) → b'.slice c d = b.slice c d
  /-- A range around it changes in one place, from the old text to the new one. -/
  around : ∀ c d, c ≤ start → stop ≤ d → d ≤ b.size →
    ∃ P S, b.slice c d = .ok (P ++ old ++ S) ∧ b'.slice c d = .ok (P ++ new ++ S)

theorem exchanged_of_replace (hlt : start < stop) (h : b.replace start stop t = .ok b')
    (hold : b.slice start stop = .ok old) : Exchanged start stop old t b b' where
  whole := exists_text_around hlt h hold
  range := slice_replace_self hlt h
  disjoint := fun _ _ => slice_replace_of_disjoint hlt h
  around := fun _ _ => exists_slice_around hlt h hold

/-- **A patch changes exactly its range**, in every state behind any calls.  A call fails if and
only if its range does not fit, and then changes nothing; no call changes the number of positions.
A call on a range that is not empty exchanges the text of the range, and putting back what is there
changes neither the text nor what is read outside the range or around it. -/
theorem replace_changes_range {s : List Char} (h : b.Reached s) (start stop : Nat)
    (t : List Char) :
    b.size = s.length ∧ (b.after ⟨start, stop, t⟩).size = s.length ∧
    ((∃ e, b.replace start stop t = .error e) ↔ stop < start ∨ s.length < stop) ∧
    ((∃ e, b.slice start stop = .error e) ↔ stop < start ∨ s.length < stop) ∧
    (∀ (σ : Type) (notes : σ) (e : RangeError) (d : Desk σ),
      Edit.replace start stop t ⟨b, notes⟩ = .error e d → d = ⟨b, notes⟩) ∧
    (start < stop → stop ≤ s.length → ∃ old, b.slice start stop = .ok old ∧
      (∃ b', b.replace start stop t = .ok b' ∧ Exchanged start stop old t b b') ∧
      ∃ b', b.replace start stop old = .ok b' ∧ b'.text = b.text ∧
        ∀ c d, (∀ i, c ≤ i → i < d → i < start ∨ stop ≤ i) ∨ (c ≤ start ∧ stop ≤ d) →
          b'.slice c d = b.slice c d) := by
  refine ⟨h.size_eq, by rw [size_after, h.size_eq], replace_eq_error_iff.trans (not_fits_iff h),
    slice_eq_error_iff.trans (not_fits_iff h), ?_, ?_⟩
  · intro σ notes e d hrun
    unfold Edit.replace at hrun
    split at hrun
    · cases hrun
    · cases hrun
      rfl
  · intro hlt hstop
    have hfits : b.Fits start stop := ⟨Nat.le_of_lt hlt, by rw [h.size_eq]; exact hstop⟩
    have hslice := slice_of_fits hfits
    refine ⟨_, hslice, ⟨_, replace_of_fits hfits t,
      exchanged_of_replace hlt (replace_of_fits hfits t) hslice⟩, ?_⟩
    have hback := replace_of_fits hfits (inside ((b.cells.drop start).take (stop - start)))
    have hex := exchanged_of_replace hlt hback hslice
    refine ⟨_, hback, ?_, ?_⟩
    · obtain ⟨P, S, htext, htext'⟩ := hex.whole
      rw [htext, htext']
    · rintro c d (hdisjoint | ⟨hc, hd⟩)
      · exact hex.disjoint c d hdisjoint
      · by_cases hsize : d ≤ b.size
        · obtain ⟨P, S, hread, hread'⟩ := hex.around c d hc hd hsize
          rw [hread, hread']
        · rw [slice_of_not_fits fun hf => hsize hf.2,
            slice_of_not_fits fun hf => hsize (size_patched b _ ▸ hf.2), size_patched]

/-- `abcdef` behind calls of which the third overlaps the first, the second and the last insert into
what the first has emptied, and the fourth fails. -/
def wornBuffer : Buffer :=
  (ofText ['a', 'b', 'c', 'd', 'e', 'f']).afterAll
    [⟨1, 4, ['X', 'Y']⟩, ⟨2, 2, ['i']⟩, ⟨3, 5, ['Q']⟩, ⟨4, 2, ['?']⟩, ⟨2, 2, ['j']⟩]

/-- The range starts in a cell that the first call has emptied, behind the insertions made there. -/
theorem replace_changes_range_worn :
    wornBuffer.text = ['a', 'X', 'Y', 'i', 'j', 'Q', 'f'] ∧
    ∃ old, wornBuffer.slice 2 5 = .ok old ∧ ∃ b', wornBuffer.replace 2 5 ['T'] = .ok b' ∧
      Exchanged 2 5 old ['T'] wornBuffer b' := by
  have h : wornBuffer.Reached ['a', 'b', 'c', 'd', 'e', 'f'] := ⟨_, rfl⟩
  obtain ⟨-, -, -, -, -, hframe⟩ := replace_changes_range h 2 5 ['T']
  obtain ⟨old, hold, hnew, -⟩ := hframe (by decide) (by decide)
  exact ⟨by decide, old, hold, hnew⟩

end Buffer

end ComponentCompiler
