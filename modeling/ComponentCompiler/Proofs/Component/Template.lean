import ComponentCompiler.Component.Template
import ComponentCompiler.Proofs.Text.Insertion
import Mathlib.Data.List.DropRight
import Mathlib.Data.List.Infix

/-!
# Where the template goes

The field with the template goes behind the first brace of every line that starts the export, and
nothing else changes.  The braces are found by looking at the text as a whole: what stands between
a brace and the line end before it must start with the words of the export and hold neither another
brace nor one of the further line ends.

The scan reads the text once from left to right.  Its invariant is that it stands before the first
brace of a line that starts the export exactly if the line read so far holds no brace and no further
line end, and the line as a whole starts with the words of the export.

## Main definitions

* `lastLine` — the line in which a text ends.
* `IsExportBrace`, `exportBraces` — the braces behind which the field goes.

## Main results

* `insertTemplate_eq_insertAll` — **the field goes behind these braces, and nothing else changes**.
-/

namespace ComponentCompiler

open Text (insertText insertAll insertAll_cons)

/-- The characters that end a line. -/
def isHardLineEnd (c : Char) : Bool := c == '\n' || c == '\r'

/-- What stands behind the last line end of a text. -/
def lastLine (cs : List Char) : List Char := cs.rtakeWhile fun c => !isHardLineEnd c

/-- A part of a line in which the first brace is still to come. -/
def BeforeBrace (line : List Char) : Prop := ∀ c ∈ line, c ≠ '{' ∧ isSoftLineEnd c = false

instance (line : List Char) : Decidable (BeforeBrace line) := List.decidableBAll _ line

/-- At this position stands the first brace of a line that starts the export. -/
def IsExportBrace (cs : List Char) (i : Nat) : Prop :=
  cs[i]? = some '{' ∧ exportKeyword <+: lastLine (cs.take i) ∧ BeforeBrace (lastLine (cs.take i))

instance (cs : List Char) (i : Nat) : Decidable (IsExportBrace cs i) :=
  inferInstanceAs (Decidable (_ ∧ _ ∧ _))

/-- The first braces of the lines that start the export. -/
def exportBraces (cs : List Char) : List Nat :=
  (List.range cs.length).filter fun i => IsExportBrace cs i

theorem lt_of_mem_exportBraces {cs : List Char} {i : Nat} (h : i ∈ exportBraces cs) :
    i < cs.length := List.mem_range.1 (List.mem_filter.1 h).1

/-! ### Lines -/

theorem lastLine_concat (cs : List Char) (c : Char) :
    lastLine (cs ++ [c]) = if isHardLineEnd c then [] else lastLine cs ++ [c] := by
  rw [lastLine, List.rtakeWhile_concat]
  cases isHardLineEnd c <;> rfl

theorem beforeBrace_concat {line : List Char} {c : Char} :
    BeforeBrace (line ++ [c]) ↔ BeforeBrace line ∧ c ≠ '{' ∧ isSoftLineEnd c = false := by
  simp only [BeforeBrace, List.mem_append, List.mem_singleton]
  constructor
  · intro h
    exact ⟨fun d hd => h d (.inl hd), h c (.inr rfl)⟩
  · rintro ⟨h, hc⟩ d (hd | rfl)
    · exact h d hd
    · exact hc

/-- A character that is none of the words of the export does not make a line start with them. -/
theorem keyword_prefix_append_cons {d : Char} (hd : d ∉ exportKeyword) {line cs : List Char} :
    exportKeyword <+: line ++ d :: cs ↔ exportKeyword <+: line := by
  constructor
  · intro h
    have hfront : line ++ [d] <+: line ++ d :: cs :=
      (List.prefix_append_right_inj line).2 (List.prefix_append [d] cs)
    rcases List.prefix_or_prefix_of_prefix h hfront with h | h
    · rcases List.prefix_concat_iff.1 h with h | h
      · exact absurd (h ▸ List.mem_append_right line List.mem_cons_self) hd
      · exact h
    · exact absurd (h.subset (List.mem_append_right line List.mem_cons_self)) hd
  · exact fun h => h.trans (List.prefix_append line _)

theorem not_keyword_cons {c : Char} (hc : c ≠ 'e') (cs : List Char) :
    ¬ exportKeyword <+: c :: cs := by
  intro h
  exact hc (List.cons_prefix_cons.1 (show 'e' :: exportKeyword.tail <+: c :: cs from h)).1.symm

/-! ### The scan -/

/-- The line read so far can still be the start of the export, and its first brace is to come. -/
def OpensExport (line rest : List Char) : Prop :=
  BeforeBrace line ∧ exportKeyword <+: line ++ rest

theorem settle_start_eq_before {cs : List Char} :
    LinePlace.start.settle cs = .before ↔ exportKeyword <+: cs := by
  have hstart : LinePlace.start.settle cs
      = if exportKeyword.isPrefixOf cs then LinePlace.before else .rest := rfl
  rw [hstart, ← List.isPrefixOf_iff_prefix]
  split
  · next h => simp [h]
  · next h => simp [h]

theorem opensExport_nil {cs : List Char} : OpensExport [] cs ↔ exportKeyword <+: cs := by
  simp [OpensExport, BeforeBrace]

/-- A place that is settled stays so. -/
theorem settle_settle (p : LinePlace) (cs ds : List Char) :
    (p.settle cs).settle ds = p.settle cs := by
  cases p with
  | start =>
    have hstart : LinePlace.start.settle cs
        = if exportKeyword.isPrefixOf cs then LinePlace.before else .rest := rfl
    rw [hstart]
    split <;> rfl
  | before => rfl
  | rest => rfl

/-- One character further in a line: nothing changes, unless the character is its first brace. -/
theorem opensExport_concat {line cs : List Char} {c : Char} (hc : isSoftLineEnd c = false)
    (hbrace : c = '{' → ¬ OpensExport line (c :: cs)) :
    OpensExport (line ++ [c]) cs ↔ OpensExport line (c :: cs) := by
  simp only [OpensExport, beforeBrace_concat, List.append_assoc, List.singleton_append]
  constructor
  · rintro ⟨⟨hline, -⟩, hkey⟩
    exact ⟨hline, hkey⟩
  · rintro ⟨hline, hkey⟩
    exact ⟨⟨hline, fun h => hbrace h ⟨hline, hkey⟩, hc⟩, hkey⟩

/-- The place behind a character. -/
def LinePlace.next (p : LinePlace) (c : Char) (cs : List Char) : LinePlace :=
  if c == '\n' then .start
  else if c == '\r' then (if cs.head? == some '\n' then .rest else .start)
  else if isSoftLineEnd c then .rest
  else if p.settle (c :: cs) == .before && c == '{' then .rest
  else p.settle (c :: cs)

/-- The scan copies each character, and puts the field behind a brace that it waits for. -/
theorem insertInExport_cons (field : List Char) (p : LinePlace) (c : Char) (cs : List Char) :
    insertInExport field p (c :: cs)
      = c :: ((if c = '{' ∧ p.settle (c :: cs) = .before then field else [])
        ++ insertInExport field (p.next c cs) cs) := by
  by_cases hbrace : c = '{' ∧ p.settle (c :: cs) = .before
  · obtain ⟨rfl, hp⟩ := hbrace
    rw [if_pos ⟨rfl, hp⟩, insertInExport, LinePlace.next, hp]
    rfl
  · have hwait : (p.settle (c :: cs) == .before && c == '{') = false := by
      rw [Bool.and_eq_false_iff, beq_eq_false_iff_ne, beq_eq_false_iff_ne]
      by_cases hc : c = '{'
      · exact .inl fun hp => hbrace ⟨hc, hp⟩
      · exact .inr hc
    rw [if_neg hbrace, insertInExport, LinePlace.next, hwait]
    by_cases hn : (c == '\n') = true
    · simp only [hn, if_true, List.nil_append]
    · by_cases hr : (c == '\r') = true
      · simp only [hn, hr, if_true, if_false, Bool.false_eq_true, List.nil_append]
      · by_cases hs : isSoftLineEnd c = true
        · simp only [hn, hr, hs, if_true, if_false, Bool.false_eq_true, List.nil_append]
        · simp only [hn, hr, hs, if_false, Bool.false_eq_true, List.nil_append]

/-- The invariant of the scan is kept by every character. -/
theorem settle_next {p : LinePlace} {front cs : List Char} {c : Char}
    (h : p.settle (c :: cs) = .before ↔ OpensExport (lastLine front) (c :: cs)) :
    (p.next c cs).settle cs = .before ↔ OpensExport (lastLine (front ++ [c])) cs := by
  rw [lastLine_concat]
  by_cases hn : c = '\n'
  · subst hn
    exact settle_start_eq_before.trans opensExport_nil.symm
  by_cases hr : c = '\r'
  · subst hr
    rw [if_pos (show isHardLineEnd '\r' = true from rfl), opensExport_nil]
    -- a line feed behind the return belongs to the same line end, and starts no export either
    by_cases hhead : cs.head? = some '\n'
    · obtain ⟨ds, rfl⟩ : ∃ ds, cs = '\n' :: ds := by
        cases cs with
        | nil => cases hhead
        | cons d ds => exact ⟨ds, by rw [Option.some.inj hhead]⟩
      exact iff_of_false nofun (not_keyword_cons (by decide) ds)
    · have hnext : p.next '\r' cs = .start := by
        rw [LinePlace.next, if_neg (by decide), if_pos (by decide), if_neg (by simpa using hhead)]
      rw [hnext]
      exact settle_start_eq_before
  have hhard : isHardLineEnd c = false := by simp [isHardLineEnd, hn, hr]
  rw [if_neg (by simp [hhard])]
  by_cases hs : isSoftLineEnd c = true
  · have hnext : p.next c cs = .rest := by simp [LinePlace.next, hn, hr, hs]
    rw [hnext]
    refine iff_of_false nofun fun hopen => ?_
    have := (beforeBrace_concat.1 hopen.1).2.2
    rw [hs] at this
    cases this
  by_cases hbrace : c = '{' ∧ p.settle (c :: cs) = .before
  · obtain ⟨rfl, hp⟩ := hbrace
    have hnext : p.next '{' cs = .rest := by
      rw [LinePlace.next, hp]
      rfl
    rw [hnext]
    exact iff_of_false nofun fun hopen => (beforeBrace_concat.1 hopen.1).2.1 rfl
  · have hwait : ¬ (p.settle (c :: cs) = .before ∧ c = '{') := fun ⟨hp, hc⟩ => hbrace ⟨hc, hp⟩
    have hnext : p.next c cs = p.settle (c :: cs) := by
      simp only [LinePlace.next, beq_iff_eq, hn, hr, hs, hwait, if_false, Bool.and_eq_true,
        Bool.false_eq_true]
    rw [hnext, settle_settle, h]
    refine (opensExport_concat (by simpa using hs) fun hc hopen => ?_).symm
    exact hbrace ⟨hc, h.2 hopen⟩

/-! ### The braces of a text -/

/-- The braces in the rest of a text, by their positions in the rest. -/
def bracesBehind (front rest : List Char) : List Nat :=
  (List.range rest.length).filter fun i => IsExportBrace (front ++ rest) (front.length + i)

theorem isExportBrace_front {front cs : List Char} {c : Char} :
    IsExportBrace (front ++ c :: cs) (front.length + 0) ↔
      c = '{' ∧ OpensExport (lastLine front) (c :: cs) := by
  simp only [IsExportBrace, OpensExport, Nat.add_zero, List.getElem?_append_right (Nat.le_refl _),
    Nat.sub_self, List.getElem?_cons_zero, Option.some.injEq, List.take_left]
  constructor
  · rintro ⟨rfl, hkey, hline⟩
    exact ⟨rfl, hline, (keyword_prefix_append_cons (by decide)).2 hkey⟩
  · rintro ⟨rfl, hline, hkey⟩
    exact ⟨rfl, (keyword_prefix_append_cons (by decide)).1 hkey, hline⟩

theorem bracesBehind_cons (front : List Char) (c : Char) (cs : List Char) :
    bracesBehind front (c :: cs)
      = (if IsExportBrace (front ++ c :: cs) (front.length + 0) then [0] else [])
        ++ (bracesBehind (front ++ [c]) cs).map (· + 1) := by
  have hrest : ((List.range cs.length).map (· + 1)).filter
        (fun i => IsExportBrace (front ++ c :: cs) (front.length + i))
      = (bracesBehind (front ++ [c]) cs).map (· + 1) := by
    rw [List.filter_map, bracesBehind]
    congr 1
    refine List.filter_congr fun i _ => ?_
    simp only [Function.comp_apply, List.append_assoc, List.singleton_append, List.length_append,
      List.length_singleton, Nat.add_assoc, Nat.add_comm i 1]
  rw [bracesBehind, List.length_cons, List.range_succ_eq_map, List.filter_cons]
  rw [← hrest]
  simp only [decide_eq_true_eq]
  split <;> rfl

/-- The scan puts the field behind the braces in the rest of the text. -/
theorem insertInExport_eq_insertAll (field rest : List Char) {front : List Char} {p : LinePlace}
    (h : p.settle rest = .before ↔ OpensExport (lastLine front) rest) :
    insertInExport field p rest = insertAll field ((bracesBehind front rest).map (· + 1)) rest := by
  induction rest generalizing front p with
  | nil => rfl
  | cons c cs ih =>
    have hnext := ih (settle_next h)
    have hbrace : IsExportBrace (front ++ c :: cs) (front.length + 0) ↔
        c = '{' ∧ p.settle (c :: cs) = .before := by
      rw [isExportBrace_front, h]
    rw [insertInExport_cons, hnext, bracesBehind_cons, List.map_append]
    by_cases hc : c = '{' ∧ p.settle (c :: cs) = .before
    · rw [if_pos hc, if_pos (hbrace.2 hc)]
      show _ = insertText field 1
        (insertAll field (((bracesBehind (front ++ [c]) cs).map (· + 1)).map (· + 1)) (c :: cs))
      rw [insertAll_cons]
      rfl
    · rw [if_neg hc, if_neg (mt hbrace.1 hc), List.map_nil, List.nil_append, List.nil_append,
        insertAll_cons]

/-- **The field with the template goes behind the first brace of every line that starts the export,
and nothing else changes.** -/
theorem insertTemplate_eq_insertAll (script markup : List Char) :
    insertTemplate script markup
      = insertAll (templateField markup) ((exportBraces script).map (· + 1)) script := by
  have hbraces : bracesBehind [] script = exportBraces script := by
    simp only [bracesBehind, exportBraces, List.nil_append, List.length_nil, Nat.zero_add]
  rw [← hbraces]
  have hstart : LinePlace.start.settle script = .before ↔ OpensExport (lastLine []) script :=
    settle_start_eq_before.trans opensExport_nil.symm
  exact insertInExport_eq_insertAll _ script hstart

end ComponentCompiler
