import ComponentCompiler.Buffer

/-!
# Editing a range of cells

The cells of a buffer around a range are written `A ++ M ++ Z`: those in front of it, those of it
and those behind it.  Reading the range reads `M` alone, and replacing it changes `M` alone, to
cells that are as many as before.  Where no insertion waits in `M`, what reading gives is all that
the cells contribute to the text, and after a replacement that is the new text.

## Main definitions

* `segment` — the characters of a text between two positions.
* `Shows cells cs` — the cells hold no insertion, and their texts together are `cs`.

## Main results

* `slice_cells`, `replace_cells` — reading and replacing the range `M`.
* `Shows.slice`, `Shows.overwrite` — what they mean where no insertion waits.
* `slice_ofText`, `text_replace_ofText` — what they mean on a text that is still untouched.
-/

namespace ComponentCompiler

/-- The characters of a text from one position up to another. -/
def segment (cs : List Char) (start stop : Nat) : List Char := (cs.take stop).drop start

theorem length_segment {cs : List Char} {stop : Nat} (h : stop ≤ cs.length) (start : Nat) :
    (segment cs start stop).length = stop - start := by
  rw [segment, List.length_drop, List.length_take, Nat.min_eq_left h]

theorem getElem?_of_head?_segment {cs : List Char} {start stop : Nat} {x : Char}
    (h : (segment cs start stop).head? = some x) : cs[start]? = some x := by
  rw [segment, List.head?_drop] at h
  rw [List.getElem?_take] at h
  split at h
  · exact h
  · cases h

/-- A segment is cut in two at any position inside it. -/
theorem segment_append_segment (cs : List Char) {start mid stop : Nat} (h₁ : start ≤ mid)
    (h₂ : mid ≤ stop) : segment cs start mid ++ segment cs mid stop = segment cs start stop := by
  have hmid : cs.take mid = (cs.take stop).take mid := by
    rw [List.take_take, Nat.min_eq_left h₂]
  have hdrop : (cs.take stop).drop mid = ((cs.take stop).drop start).drop (mid - start) := by
    rw [List.drop_drop, Nat.add_sub_cancel' h₁]
  rw [segment, segment, segment, hmid, hdrop, List.drop_take, List.take_append_drop]

theorem take_append_segment (cs : List Char) {start stop : Nat} (h : start ≤ stop) :
    cs.take start ++ segment cs start stop = cs.take stop := by
  have := segment_append_segment cs (Nat.zero_le start) h
  simpa [segment] using this

namespace Buffer

/-! ### Replacing and reading -/

@[simp] theorem length_overwrite (t : List Char) (n : Nat) (cells : List Cell) :
    (overwrite t n cells).length = cells.length := by
  cases cells with
  | nil => rfl
  | cons cell rest =>
    simp only [overwrite, List.length_cons, List.length_append, List.length_replicate,
      List.length_drop]
    omega

/-- A replacement that ends with the cells `M` leaves the cells behind them alone. -/
theorem overwrite_append (t : List Char) {M : List Cell} (hM : M ≠ []) (Z : List Cell) :
    overwrite t (M.length - 1) (M ++ Z) = overwrite t (M.length - 1) M ++ Z := by
  cases M with
  | nil => exact absurd rfl hM
  | cons cell rest =>
    have hmin : min rest.length (rest ++ Z).length = rest.length := by
      rw [List.length_append]
      omega
    simp only [List.cons_append, overwrite, List.length_cons, Nat.add_sub_cancel, hmin,
      List.drop_left, Nat.min_self, List.drop_length, List.append_nil]

theorem fits_cells (A M Z : List Cell) (tail : List Char) :
    (Buffer.mk (A ++ M ++ Z) tail).Fits A.length (A.length + M.length) := by
  refine ⟨Nat.le_add_right _ _, ?_⟩
  simp only [size, List.length_append]
  omega

/-- Replacing the range of the cells `M` changes these cells alone. -/
theorem replace_cells (A : List Cell) {M : List Cell} (hM : M ≠ []) (Z : List Cell)
    (tail t : List Char) :
    (Buffer.mk (A ++ M ++ Z) tail).replace A.length (A.length + M.length) t
      = .ok ⟨A ++ overwrite t (M.length - 1) M ++ Z, tail⟩ := by
  have hpos : 0 < M.length := List.length_pos_iff.2 hM
  have hne : A.length ≠ A.length + M.length := by omega
  have hlen : A.length + M.length - A.length - 1 = M.length - 1 := by omega
  rw [replace, if_pos (fits_cells A M Z tail), if_neg hne, hlen]
  simp only [List.append_assoc, List.take_left, List.drop_left, overwrite_append t hM]

/-- Reading the range of the cells `M` reads these cells alone. -/
theorem slice_cells (A M Z : List Cell) (tail : List Char) :
    (Buffer.mk (A ++ M ++ Z) tail).slice A.length (A.length + M.length) = .ok (inside M) := by
  rw [slice, if_pos (fits_cells A M Z tail), Nat.add_sub_cancel_left]
  simp only [List.append_assoc, List.drop_left, List.take_left]

/-! ### Cells without insertions -/

/-- The cells hold no insertion, and their texts together are `cs`. -/
def Shows (cells : List Cell) (cs : List Char) : Prop :=
  (∀ cell ∈ cells, cell.before = []) ∧ cells.flatMap Cell.content = cs

/-- Untouched characters show themselves. -/
theorem shows_ofChar (cs : List Char) : Shows (cs.map Cell.ofChar) cs := by
  constructor
  · intro cell h
    obtain ⟨c, -, rfl⟩ := List.mem_map.1 h
    rfl
  · have := text_ofText cs
    simpa [text, ofText] using this

theorem Shows.append {M N : List Cell} {cs ds : List Char} (h : Shows M cs) (h' : Shows N ds) :
    Shows (M ++ N) (cs ++ ds) := by
  refine ⟨fun cell hc => ?_, ?_⟩
  · rcases List.mem_append.1 hc with hc | hc
    · exact h.1 cell hc
    · exact h'.1 cell hc
  · rw [List.flatMap_append, h.2, h'.2]

theorem Shows.inside_eq {M : List Cell} {cs : List Char} (h : Shows M cs) : inside M = cs := by
  rw [← h.2]
  cases M with
  | nil => rfl
  | cons cell rest =>
    have hcell : cell.before = [] := h.1 cell List.mem_cons_self
    simp [inside, Cell.content, hcell]

/-- Reading cells without insertions gives all they show. -/
theorem Shows.slice {M : List Cell} {cs : List Char} (h : Shows M cs) (A Z : List Cell)
    (tail : List Char) :
    (Buffer.mk (A ++ M ++ Z) tail).slice A.length (A.length + M.length) = .ok cs := by
  rw [slice_cells, h.inside_eq]

/-- Behind a replacement the cells show the new text. -/
theorem Shows.overwrite {M : List Cell} {cs : List Char} (h : Shows M cs) (hM : M ≠ [])
    (t : List Char) : Shows (overwrite t (M.length - 1) M) t := by
  cases M with
  | nil => exact absurd rfl hM
  | cons cell rest =>
    have hcell : cell.before = [] := h.1 cell List.mem_cons_self
    have hempty : ∀ n, (List.replicate n ({} : Cell)).flatMap Cell.content = [] := by
      intro n
      simp [Cell.content, List.flatMap_eq_nil_iff]
    simp only [Buffer.overwrite, List.length_cons, Nat.add_sub_cancel, Nat.min_self,
      List.drop_length, List.append_nil]
    refine ⟨fun c hc => ?_, ?_⟩
    · rcases List.mem_cons.1 hc with rfl | hc
      · exact hcell
      · rw [List.eq_of_mem_replicate hc]
    · rw [List.flatMap_cons, hempty, List.append_nil, Cell.content, hcell, List.nil_append]

/-! ### Untouched texts -/

/-- The cells of an untouched text around a range. -/
theorem ofText_eq_cells (cs : List Char) {start stop : Nat} (h : start ≤ stop) :
    ofText cs = ⟨(cs.take start).map Cell.ofChar ++ (segment cs start stop).map Cell.ofChar
      ++ (cs.drop stop).map Cell.ofChar, []⟩ := by
  rw [ofText, ← List.map_append, ← List.map_append, take_append_segment cs h, List.take_append_drop]

/-- What reading a range of an untouched text gives. -/
theorem slice_ofText {cs t : List Char} {start stop : Nat} :
    (ofText cs).slice start stop = .ok t ↔
      (ofText cs).Fits start stop ∧ segment cs start stop = t := by
  by_cases h : (ofText cs).Fits start stop
  · have hcells : ((cs.map Cell.ofChar).drop start).take (stop - start)
        = (segment cs start stop).map Cell.ofChar := by
      rw [segment, List.drop_take, ← List.map_drop, ← List.map_take]
    rw [slice, if_pos h, ofText, hcells, (shows_ofChar _).inside_eq, Except.ok.injEq]
    exact (and_iff_right h).symm
  · rw [slice, if_neg h]
    refine iff_of_false (fun h' => ?_) fun h' => h h'.1
    cases h'

/-- Replacing a range of an untouched text. -/
theorem text_replace_ofText {cs t : List Char} {start stop : Nat} (h : start < stop)
    (hstop : stop ≤ cs.length) :
    ∃ b, (ofText cs).replace start stop t = .ok b ∧
      b.text = cs.take start ++ t ++ cs.drop stop := by
  have hle : start ≤ stop := Nat.le_of_lt h
  have hA : ((cs.take start).map Cell.ofChar).length = start := by
    rw [List.length_map, List.length_take, Nat.min_eq_left (Nat.le_trans hle hstop)]
  have hM : ((segment cs start stop).map Cell.ofChar).length = stop - start := by
    rw [List.length_map, length_segment hstop]
  have hM0 : (segment cs start stop).map Cell.ofChar ≠ [] := List.length_pos_iff.1 (by omega)
  have hreplace := replace_cells ((cs.take start).map Cell.ofChar) hM0
    ((cs.drop stop).map Cell.ofChar) [] t
  rw [← ofText_eq_cells cs hle, hA, hM, Nat.add_sub_cancel' hle] at hreplace
  refine ⟨_, hreplace, ?_⟩
  have hshows := ((shows_ofChar _).overwrite hM0 t)
  rw [hM] at hshows
  rw [text, List.append_nil]
  exact (((shows_ofChar _).append hshows).append (shows_ofChar _)).2

end Buffer

end ComponentCompiler
