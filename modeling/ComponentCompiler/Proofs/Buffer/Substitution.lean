import ComponentCompiler.Proofs.Buffer.Frame
import Mathlib.Data.List.Induction
import Mathlib.Data.List.Pairwise

/-!
# Patches apart from each other

Patches whose ranges do not reach into each other amount to one substitution.  The text they lead
to is said here without buffers, by one pass over the original text (`Patch.substitute`): at each
position the insertions made there are written in the order of the calls, and then the text of the
range that starts there, whose positions are passed over, or else the character itself.

The order of the calls therefore matters for the insertions at one position only.  The reason is
that each cell has its own history: what became of it depends on the insertions at its position and
on the one range that holds it (`Patch.settled`).

## Main definitions

* `Patch.Apart` — neither range reaches into the other.
* `Patch.substitute` — the pass over the text.
* `Buffer.replaceAll` — calls one after another, all of which succeed.
* `Patch.settled` — what becomes of a cell.

## Main results

* `foldl_onCell` — the history of a cell.
* `pass_eq_content` — the pass writes what the cells hold.
* `replaceAll_eq_substitute` — patches that are apart amount to the substitution, in any order.
-/

namespace ComponentCompiler

theorem Cell.insert_nil (cell : Cell) : cell.insert [] = cell := by
  rw [Cell.insert, List.append_nil]

namespace Patch

/-- Neither range reaches into the other.  Ranges that are not empty have no position in common; an
empty one may stand at either end of another range, and at the same place as another empty one. -/
def Apart (p q : Patch) : Prop := p.stop ≤ q.start ∨ q.stop ≤ p.start

instance (p q : Patch) : Decidable (p.Apart q) := inferInstanceAs (Decidable (_ ∨ _))

instance : Std.Symm Apart := ⟨fun _ _ => Or.symm⟩

/-- The patch is an insertion at a position. -/
def insertsAt (i : Nat) (p : Patch) : Bool := p.start == i && p.stop == i

/-- The range of the patch starts at a position and holds it. -/
def startsAt (i : Nat) (p : Patch) : Bool := p.start == i && decide (i < p.stop)

/-- The range of the patch holds a position. -/
def covers (i : Nat) (p : Patch) : Bool := decide (p.start ≤ i) && decide (i < p.stop)

/-- The texts inserted at a position, in the order of the calls. -/
def insertedAt (ps : List Patch) (i : Nat) : List Char :=
  (ps.filter (insertsAt i)).flatMap Patch.text

/-- The pass over a text from a position on.  The next `skip` positions belong to the range that
was met last. -/
def pass (ps : List Patch) : Nat → Nat → List Char → List Char
  | i, _, [] => insertedAt ps i
  | i, skip + 1, _ :: cs => pass ps (i + 1) skip cs
  | i, 0, c :: cs =>
      insertedAt ps i ++ match ps.find? (startsAt i) with
        | some p => p.text ++ pass ps (i + 1) (p.stop - i - 1) cs
        | none => c :: pass ps (i + 1) 0 cs

/-- A text with all patches made at once, in one pass from left to right. -/
def substitute (ps : List Patch) (s : List Char) : List Char := pass ps 0 0 s

/-! ### The history of a cell -/

/-- What becomes of the cell of a character at a position. -/
def settled (ps : List Patch) (i : Nat) (c : Char) : Cell where
  before := insertedAt ps i
  text := match ps.find? (covers i) with
    | some p => if p.start = i then p.text else []
    | none => [c]

theorem insertsAt_iff {p : Patch} {i : Nat} : p.insertsAt i ↔ p.start = i ∧ p.stop = i := by
  simp [insertsAt]

theorem startsAt_iff {p : Patch} {i : Nat} : p.startsAt i ↔ p.start = i ∧ i < p.stop := by
  simp [startsAt]

theorem covers_iff {p : Patch} {i : Nat} : p.covers i ↔ p.start ≤ i ∧ i < p.stop := by
  simp [covers]

theorem insertedAt_append (ps qs : List Patch) (i : Nat) :
    insertedAt (ps ++ qs) i = insertedAt ps i ++ insertedAt qs i := by
  rw [insertedAt, List.filter_append, List.flatMap_append]
  rfl

theorem insertedAt_eq_nil {ps : List Patch} {i : Nat} (h : ∀ p ∈ ps, ¬ p.insertsAt i) :
    insertedAt ps i = [] := by
  rw [insertedAt, List.filter_eq_nil_iff.2 h, List.flatMap_nil]

theorem insertedAt_singleton (p : Patch) (i : Nat) :
    insertedAt [p] i = if p.insertsAt i then p.text else [] := by
  by_cases h : p.insertsAt i
  · rw [insertedAt, List.filter_cons_of_pos h, if_pos h, List.filter_nil, List.flatMap_singleton]
  · rw [insertedAt_eq_nil (List.forall_mem_singleton.2 h), if_neg h]

/-- A further patch that does not hold the position can only insert there. -/
theorem settled_concat_of_not_covers {p : Patch} {i : Nat} (h : ¬ p.covers i) (ps : List Patch)
    (c : Char) :
    settled (ps ++ [p]) i c = (settled ps i c).insert (if p.insertsAt i then p.text else []) := by
  have hfind : (ps ++ [p]).find? (covers i) = ps.find? (covers i) := by
    rw [List.find?_append, List.find?_singleton, if_neg h, Option.or_none]
  simp only [settled, hfind, insertedAt_append, insertedAt_singleton, Cell.insert]

/-- A further patch that holds the position decides what stands there, if no other one does. -/
theorem settled_concat_of_covers {p : Patch} {i : Nat} (h : p.covers i) {ps : List Patch}
    (hps : ∀ q ∈ ps, ¬ q.covers i) (c : Char) :
    settled (ps ++ [p]) i c = ⟨insertedAt ps i, if p.start = i then p.text else []⟩ := by
  have hfind : (ps ++ [p]).find? (covers i) = some p := by
    rw [List.find?_append, List.find?_singleton, if_pos h, List.find?_eq_none.2 hps, Option.none_or]
  have hno : ¬ p.insertsAt i := by
    rw [covers_iff] at h
    rw [insertsAt_iff]
    omega
  simp only [settled, hfind, insertedAt_append, insertedAt_singleton, if_neg hno, List.append_nil]

/-- An insertion is not apart from a range that it lies inside. -/
theorem not_insertsAt_of_inside {p q : Patch} (h : q.Apart p) {i : Nat} (hstart : p.start < i)
    (hstop : i < p.stop) : ¬ q.insertsAt i := by
  intro hq
  rw [insertsAt_iff] at hq
  have : q.stop ≤ p.start ∨ p.stop ≤ q.start := h
  omega

/-- **The history of a cell** under patches that are apart. -/
theorem foldl_onCell {ps : List Patch} (hle : ∀ p ∈ ps, p.start ≤ p.stop)
    (hapart : ps.Pairwise Apart) (i : Nat) (c : Char) :
    ps.foldl (fun cell p => p.onCell i cell) (Cell.ofChar c) = settled ps i c := by
  -- from the last call on, since that one acts on what the others have left
  induction ps using List.reverseRecOn with
  | nil => rfl
  | append_singleton ps p ih =>
    obtain ⟨hps, -, hp⟩ := List.pairwise_append.1 hapart
    have hqs : ∀ q ∈ ps, q.Apart p := fun q hq => hp q hq p (List.mem_singleton_self p)
    have hpp : p.start ≤ p.stop := hle p (List.mem_append_right _ (List.mem_singleton_self p))
    rw [List.foldl_append, List.foldl_cons, List.foldl_nil,
      ih (fun q hq => hle q (List.mem_append_left _ hq)) hps, onCell]
    by_cases hcovers : p.covers i
    · have hother : ∀ q ∈ ps, ¬ q.covers i := by
        intro q hq hqi
        rw [covers_iff] at hcovers hqi
        have : q.stop ≤ p.start ∨ p.stop ≤ q.start := hqs q hq
        omega
      rw [settled_concat_of_covers hcovers hother]
      rw [covers_iff] at hcovers
      have hne : p.start ≠ p.stop := by omega
      rw [if_neg hne]
      by_cases hi : i = p.start
      · rw [if_pos hi, if_pos hi.symm]
        rfl
      · -- the range also clears what waits in front of the cell, but nothing was inserted there
        have hnone : insertedAt ps i = [] := insertedAt_eq_nil fun q hq =>
          not_insertsAt_of_inside (hqs q hq) (by omega) hcovers.2
        rw [if_neg hi, if_pos (by omega), if_neg (Ne.symm hi), hnone]
    · rw [settled_concat_of_not_covers hcovers]
      rw [covers_iff] at hcovers
      by_cases heq : p.start = p.stop
      · rw [if_pos heq]
        by_cases hi : i = p.start
        · rw [if_pos hi, if_pos (insertsAt_iff.2 (by omega))]
        · have hno : ¬ p.insertsAt i := fun h => hi (insertsAt_iff.1 h).1.symm
          rw [if_neg hi, if_neg hno, Cell.insert_nil]
      · have hno : ¬ p.insertsAt i := fun h => by
          rw [insertsAt_iff] at h
          omega
        rw [if_neg heq, if_neg (by omega), if_neg (by omega), if_neg hno, Cell.insert_nil]

/-! ### The pass -/

variable {ps qs : List Patch}

/-- At most one range holds a position. -/
theorem eq_of_covers (hapart : ps.Pairwise Apart) {p q : Patch} (hp : p ∈ ps) (hq : q ∈ ps)
    {i : Nat} (hpi : p.covers i) (hqi : q.covers i) : p = q := by
  by_cases hne : p = q
  · exact hne
  · have hpq : p.stop ≤ q.start ∨ q.stop ≤ p.start := hapart.forall hp hq hne
    rw [covers_iff] at hpi hqi
    omega

theorem find?_covers (hapart : ps.Pairwise Apart) {p : Patch} (hp : p ∈ ps) {i : Nat}
    (hpi : p.covers i) : ps.find? (covers i) = some p := by
  cases hfind : ps.find? (covers i) with
  | none => exact absurd hpi (List.find?_eq_none.1 hfind p hp)
  | some q =>
    rw [eq_of_covers hapart hp (List.mem_of_find?_eq_some hfind) hpi (List.find?_some hfind)]

theorem content_settled_of_covers (hapart : ps.Pairwise Apart) {p : Patch} (hp : p ∈ ps) {i : Nat}
    (hpi : p.covers i) (c : Char) :
    (settled ps i c).content = insertedAt ps i ++ if p.start = i then p.text else [] := by
  simp only [settled, find?_covers hapart hp hpi, Cell.content]

theorem content_settled_of_forall_not_covers {i : Nat} (h : ∀ p ∈ ps, ¬ p.covers i) (c : Char) :
    (settled ps i c).content = insertedAt ps i ++ [c] := by
  simp only [settled, List.find?_eq_none.2 h, Cell.content]

/-- The positions from `i` on that are held by ranges starting before `i` are the next `skip`
ones. -/
def Reaches (ps : List Patch) (i skip : Nat) : Prop :=
  ∀ j, i ≤ j → (j < i + skip ↔ ∃ p ∈ ps, p.start < i ∧ j < p.stop)

theorem reaches_zero (ps : List Patch) : Reaches ps 0 0 := by
  intro j _
  constructor
  · intro h
    omega
  · rintro ⟨p, -, h, -⟩
    omega

/-- Inside a range the pass goes on to its end. -/
theorem Reaches.inside (hapart : ps.Pairwise Apart) {i skip : Nat}
    (h : Reaches ps i (skip + 1)) : Reaches ps (i + 1) skip := by
  obtain ⟨p, hp, hstart, hstop⟩ := (h i (Nat.le_refl i)).1 (by omega)
  intro j hj
  constructor
  · intro hskip
    obtain ⟨q, hq, hqi, hqj⟩ := (h j (by omega)).1 (by omega)
    exact ⟨q, hq, by omega, hqj⟩
  · rintro ⟨q, hq, hqi, hqj⟩
    -- a range that starts here would have this position in common with the one around it
    have hlt : q.start < i := by
      by_cases heq : q.start = i
      · have hpq := eq_of_covers hapart hp hq (covers_iff.2 ⟨by omega, hstop⟩)
          (covers_iff.2 ⟨Nat.le_of_eq heq, by omega⟩)
        rw [hpq] at hstart
        omega
      · omega
    have := (h j (by omega)).2 ⟨q, hq, hlt, hqj⟩
    omega

/-- Outside all ranges the pass goes on to the next position, if no range starts here. -/
theorem Reaches.outside {i : Nat} (h : Reaches ps i 0) (hno : ∀ p ∈ ps, ¬ p.startsAt i) :
    Reaches ps (i + 1) 0 := by
  intro j hj
  constructor
  · intro hskip
    omega
  · rintro ⟨q, hq, hqi, hqj⟩
    have hne : q.start ≠ i := fun heq => hno q hq (startsAt_iff.2 ⟨heq, by omega⟩)
    have := (h j (by omega)).2 ⟨q, hq, by omega, hqj⟩
    omega

/-- Where a range starts the pass goes on inside it. -/
theorem Reaches.enter (hapart : ps.Pairwise Apart) {i : Nat} (h : Reaches ps i 0) {p : Patch}
    (hp : p ∈ ps) (hpi : p.startsAt i) : Reaches ps (i + 1) (p.stop - i - 1) := by
  rw [startsAt_iff] at hpi
  intro j hj
  constructor
  · intro hskip
    exact ⟨p, hp, by omega, by omega⟩
  · rintro ⟨q, hq, hqi, hqj⟩
    have hstart : q.start = i := by
      by_cases hlt : q.start < i
      · have := (h j (by omega)).2 ⟨q, hq, hlt, hqj⟩
        omega
      · omega
    have hpq := eq_of_covers hapart hp hq (covers_iff.2 ⟨by omega, hpi.2⟩)
      (covers_iff.2 ⟨by omega, by omega⟩)
    rw [hpq]
    omega

/-- **The pass writes what the cells hold.** -/
theorem pass_eq_content (hapart : ps.Pairwise Apart) (cs : List Char) (i skip : Nat)
    (h : Reaches ps i skip) :
    pass ps i skip cs = (cs.mapIdx fun j c => settled ps (i + j) c).flatMap Cell.content
      ++ insertedAt ps (i + cs.length) := by
  induction cs generalizing i skip with
  | nil => cases skip <;> rfl
  | cons c cs ih =>
    have hnext : ∀ skip, Reaches ps (i + 1) skip →
        (cs.mapIdx fun j c => settled ps (i + (j + 1)) c).flatMap Cell.content
          ++ insertedAt ps (i + (cs.length + 1)) = pass ps (i + 1) skip cs := by
      intro skip hskip
      rw [ih (i + 1) skip hskip]
      simp only [Nat.add_assoc, Nat.add_comm 1]
    rw [List.mapIdx_cons, List.flatMap_cons, List.length_cons, List.append_assoc, Nat.add_zero]
    cases skip with
    | succ skip =>
      -- inside a range, where the cell is empty
      obtain ⟨p, hp, hstart, hstop⟩ := (h i (Nat.le_refl i)).1 (by omega)
      have hnone : insertedAt ps i = [] := insertedAt_eq_nil fun q hq hqi => by
        by_cases hqp : q = p
        · rw [hqp, insertsAt_iff] at hqi
          omega
        · exact not_insertsAt_of_inside (hapart.forall hq hp hqp) hstart hstop hqi
      rw [content_settled_of_covers hapart hp (covers_iff.2 ⟨Nat.le_of_lt hstart, hstop⟩), hnone,
        if_neg (Nat.ne_of_lt hstart), List.append_nil, List.nil_append,
        hnext skip (h.inside hapart), pass]
    | zero =>
      have hcovers : ∀ p ∈ ps, p.covers i → p.startsAt i := by
        intro p hp hpi
        rw [covers_iff] at hpi
        have hge : ¬ p.start < i := fun hlt => by
          have := (h i (Nat.le_refl i)).2 ⟨p, hp, hlt, hpi.2⟩
          omega
        exact startsAt_iff.2 ⟨by omega, hpi.2⟩
      cases hfind : ps.find? (startsAt i) with
      | none =>
        have hno := List.find?_eq_none.1 hfind
        rw [content_settled_of_forall_not_covers fun p hp hpi => hno p hp (hcovers p hp hpi),
          hnext 0 (h.outside hno), pass, hfind, List.append_assoc]
        rfl
      | some p =>
        have hp : p ∈ ps := List.mem_of_find?_eq_some hfind
        have hpi : p.startsAt i := List.find?_some hfind
        obtain ⟨hstart, hstop⟩ := startsAt_iff.1 hpi
        rw [content_settled_of_covers hapart hp (covers_iff.2 ⟨Nat.le_of_eq hstart, hstop⟩),
          if_pos hstart, hnext _ (h.enter hapart hp hpi), pass, hfind, List.append_assoc]

end Patch

/-! ### Calls one after another -/

namespace Buffer

open Patch

/-- The buffer behind calls that all succeed; the error of the first one that fails. -/
def replaceAll (b : Buffer) (ps : List Patch) : Except RangeError Buffer :=
  ps.foldlM (fun b p => b.replace p.start p.stop p.text) b

/-- Calls that fit succeed, and each cell has its own history. -/
theorem replaceAll_of_fits {b : Buffer} {ps : List Patch}
    (h : ∀ p ∈ ps, b.Fits p.start p.stop) :
    b.replaceAll ps = .ok
      ⟨b.cells.mapIdx fun i cell => ps.foldl (fun cell p => p.onCell i cell) cell,
      ps.foldl (fun tail p => p.onTail b.size tail) b.tail⟩ := by
  induction ps generalizing b with
  | nil =>
    have hcells : (b.cells.mapIdx fun _ cell => cell) = b.cells :=
      List.ext_getElem? fun i => by rw [List.getElem?_mapIdx, Option.map_id']
    simp only [List.foldl_nil, hcells]
    rfl
  | cons p ps ih =>
    have hp : b.replace p.start p.stop p.text = .ok (b.patched p) :=
      replace_of_fits (h p List.mem_cons_self) p.text
    have hps : ∀ q ∈ ps, (b.patched p).Fits q.start q.stop := by
      intro q hq
      rw [Fits, size_patched]
      exact h q (List.mem_cons_of_mem p hq)
    rw [replaceAll, List.foldlM_cons, hp]
    show (b.patched p).replaceAll ps = _
    rw [ih hps, size_patched, patched, List.mapIdx_mapIdx]
    rfl

theorem foldl_onTail (ps : List Patch) (size : Nat) (tail : List Char) :
    ps.foldl (fun tail p => p.onTail size tail) tail = tail ++ insertedAt ps size := by
  induction ps generalizing tail with
  | nil => exact (List.append_nil tail).symm
  | cons p ps ih =>
    have hp : p.onTail size tail = tail ++ insertedAt [p] size := by
      rw [onTail, insertedAt_singleton]
      by_cases h : p.insertsAt size
      · obtain ⟨hstart, hstop⟩ := insertsAt_iff.1 h
        rw [if_pos h, if_pos ⟨hstart.trans hstop.symm, hstart⟩]
      · have hno : ¬ (p.start = p.stop ∧ p.start = size) := fun h' =>
          h (insertsAt_iff.2 ⟨h'.2, h'.1.symm.trans h'.2⟩)
        rw [if_neg h, if_neg hno, List.append_nil]
    rw [List.foldl_cons, ih, hp, List.append_assoc, ← insertedAt_append]
    rfl

/-- Patches that are apart, on an untouched text: every cell is settled. -/
theorem replaceAll_ofText {s : List Char} {ps : List Patch}
    (hfits : ∀ p ∈ ps, p.start ≤ p.stop ∧ p.stop ≤ s.length) (hapart : ps.Pairwise Apart) :
    (ofText s).replaceAll ps = .ok ⟨s.mapIdx (settled ps), insertedAt ps s.length⟩ := by
  have hcells :
      ((ofText s).cells.mapIdx fun i cell => ps.foldl (fun cell p => p.onCell i cell) cell)
        = s.mapIdx (settled ps) := by
    refine List.ext_getElem? fun i => ?_
    rw [ofText, List.getElem?_mapIdx, List.getElem?_mapIdx, List.getElem?_map, Option.map_map]
    congr 1
    funext c
    exact foldl_onCell (fun p hp => (hfits p hp).1) hapart i c
  have hsize : ∀ p ∈ ps, (ofText s).Fits p.start p.stop := by
    intro p hp
    rw [Fits, size_ofText]
    exact hfits p hp
  rw [replaceAll_of_fits hsize, hcells, foldl_onTail, size_ofText]
  rfl

/-- The order of the calls matters for the insertions at one position only. -/
theorem settled_perm {ps qs : List Patch} (hapart : ps.Pairwise Apart) (hperm : qs.Perm ps)
    (hins : ∀ i, qs.filter (insertsAt i) = ps.filter (insertsAt i)) (i : Nat) (c : Char) :
    settled qs i c = settled ps i c := by
  have hapart' : qs.Pairwise Apart := (hperm.pairwise_iff Or.symm).2 hapart
  have hfind : qs.find? (covers i) = ps.find? (covers i) := by
    cases h : ps.find? (covers i) with
    | none =>
      rw [List.find?_eq_none] at h ⊢
      exact fun p hp => h p (hperm.mem_iff.1 hp)
    | some p =>
      exact find?_covers hapart' (hperm.mem_iff.2 (List.mem_of_find?_eq_some h)) (List.find?_some h)
  simp only [settled, insertedAt, hins, hfind]

/-- **Patches apart from each other commute and amount to one substitution.**  On an untouched text
such calls succeed in any order and lead to the text of the pass; two orders that agree on the
insertions at each position lead to the same text, and every range is read the same. -/
theorem replaceAll_eq_substitute {s : List Char} {ps : List Patch}
    (hfits : ∀ p ∈ ps, p.start ≤ p.stop ∧ p.stop ≤ s.length) (hapart : ps.Pairwise Apart) :
    ∃ b, (ofText s).replaceAll ps = .ok b ∧ b.text = substitute ps s ∧
      ∀ qs, qs.Perm ps → (∀ i, qs.filter (insertsAt i) = ps.filter (insertsAt i)) →
        ∃ b', (ofText s).replaceAll qs = .ok b' ∧ b'.text = b.text ∧
          ∀ c d, b'.slice c d = b.slice c d := by
  refine ⟨_, replaceAll_ofText hfits hapart, ?_, ?_⟩
  · have hpass := pass_eq_content hapart s 0 0 (reaches_zero ps)
    simp only [Nat.zero_add] at hpass
    rw [substitute, hpass]
    rfl
  · intro qs hperm hins
    have hsettled : settled qs = settled ps :=
      funext fun i => funext fun c => settled_perm hapart hperm hins i c
    have hinserted : insertedAt qs s.length = insertedAt ps s.length := by
      rw [insertedAt, hins, insertedAt]
    have hqs := replaceAll_ofText (fun p hp => hfits p (hperm.mem_iff.1 hp))
      ((hperm.pairwise_iff Or.symm).2 hapart)
    rw [hsettled, hinserted] at hqs
    exact ⟨_, hqs, rfl, fun _ _ => rfl⟩

/-- Two insertions at the start of a range and one at its end, a range next to it, and an insertion
at the end of the text. -/
def touchingPatches : List Patch :=
  [⟨1, 1, ['p']⟩, ⟨3, 4, ['R']⟩, ⟨1, 3, ['L', 'L']⟩, ⟨5, 5, ['!']⟩, ⟨1, 1, ['q']⟩, ⟨3, 3, ['m']⟩]

/-- The patches in two orders that agree on the insertions at each position. -/
theorem replaceAll_eq_substitute_touching :
    touchingPatches.Pairwise Apart ∧
    substitute touchingPatches ['a', 'b', 'c', 'd', 'e']
      = ['a', 'p', 'q', 'L', 'L', 'm', 'R', 'e', '!'] ∧
    ∃ b, (ofText ['a', 'b', 'c', 'd', 'e']).replaceAll touchingPatches = .ok b ∧
      b.text = substitute touchingPatches ['a', 'b', 'c', 'd', 'e'] ∧
      ∃ b', (ofText ['a', 'b', 'c', 'd', 'e']).replaceAll
          [⟨1, 3, ['L', 'L']⟩, ⟨1, 1, ['p']⟩, ⟨1, 1, ['q']⟩, ⟨5, 5, ['!']⟩, ⟨3, 3, ['m']⟩,
            ⟨3, 4, ['R']⟩] = .ok b' ∧ b'.text = b.text ∧ ∀ c d, b'.slice c d = b.slice c d := by
  have hapart : touchingPatches.Pairwise Apart := by decide
  obtain ⟨b, hb, htext, hperm⟩ :=
    replaceAll_eq_substitute (s := ['a', 'b', 'c', 'd', 'e']) (by decide) hapart
  refine ⟨hapart, by decide, b, hb, htext, hperm _ (by decide) fun i => ?_⟩
  by_cases h : i = 1 ∨ i = 3 ∨ i = 5
  · rcases h with rfl | rfl | rfl <;> decide
  · rw [not_or, not_or] at h
    simp [touchingPatches, insertsAt, Ne.symm h.1, Ne.symm h.2.1, Ne.symm h.2.2]

end Buffer

end ComponentCompiler
