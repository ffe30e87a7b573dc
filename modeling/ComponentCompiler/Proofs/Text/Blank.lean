import ComponentCompiler.Text.Blank

/-!
# Texts without blanks at their ends

Trimming leaves a text alone exactly when neither its first nor its last character is a blank.

## Main results

* `trim_eq_self_iff` — the texts that trimming leaves alone.
* `trim_trim` — trimming twice is trimming once.
* `trim_blank_cons` — a blank in front of such a text is all that trimming removes.
-/

namespace ComponentCompiler.Text

theorem trimStart_eq_self_iff (cs : List Char) :
    trimStart cs = cs ↔ ∀ c, cs.head? = some c → isBlank c = false := by
  cases cs with
  | nil => simp [trimStart]
  | cons c cs =>
    rw [trimStart, List.dropWhile_cons]
    by_cases hc : isBlank c = true
    · have hlen := (List.dropWhile_suffix (l := cs) isBlank).length_le
      constructor
      · intro h
        rw [if_pos hc] at h
        rw [h, List.length_cons] at hlen
        omega
      · intro h
        rw [h c rfl] at hc
        cases hc
    · simp [hc]

theorem trimEnd_eq_self_iff (cs : List Char) :
    trimEnd cs = cs ↔ ∀ c, cs.getLast? = some c → isBlank c = false := by
  have hrev : trimEnd cs = cs ↔ trimStart cs.reverse = cs.reverse := by
    rw [trimEnd, trimStart]
    constructor
    · intro h
      rw [← List.reverse_inj, List.reverse_reverse, h]
    · intro h
      rw [h, List.reverse_reverse]
  rw [hrev, trimStart_eq_self_iff, List.head?_reverse]

theorem trimStart_blank_cons {c : Char} (hc : isBlank c = true) (cs : List Char) :
    trimStart (c :: cs) = trimStart cs := by
  rw [trimStart, List.dropWhile_cons, if_pos hc]
  rfl

theorem trimEnd_concat_blank {c : Char} (hc : isBlank c = true) (cs : List Char) :
    trimEnd (cs ++ [c]) = trimEnd cs := by
  rw [trimEnd, List.reverse_concat, List.dropWhile_cons, if_pos hc]
  rfl

/-- A character that is no blank stays, and with it all that stands behind it. -/
theorem trimStart_append_cons {c : Char} (hc : isBlank c = false) (cs ds : List Char) :
    trimStart (cs ++ c :: ds) = trimStart cs ++ c :: ds := by
  rw [trimStart, trimStart, List.dropWhile_append]
  split
  · next hempty =>
    rw [List.isEmpty_iff.1 hempty, List.dropWhile_cons, if_neg (by simp [hc])]
    rfl
  · rfl

/-- A character that is no blank stays, and with it all that stands in front of it. -/
theorem trimEnd_append_cons {c : Char} (hc : isBlank c = false) (cs ds : List Char) :
    trimEnd (cs ++ c :: ds) = cs ++ c :: trimEnd ds := by
  have hstart := trimStart_append_cons hc ds.reverse cs.reverse
  rw [trimEnd, List.reverse_append, List.reverse_cons, List.append_assoc, List.singleton_append,
    ← trimStart, hstart]
  simp [trimEnd, trimStart]

theorem length_trimStart_le (cs : List Char) : (trimStart cs).length ≤ cs.length :=
  (List.dropWhile_suffix isBlank).length_le

theorem length_trimEnd_le (cs : List Char) : (trimEnd cs).length ≤ cs.length := by
  have := length_trimStart_le cs.reverse
  rw [List.length_reverse] at this
  rwa [trimEnd, List.length_reverse]

/-- Trimming leaves a text alone exactly when it neither starts nor ends with a blank. -/
theorem trim_eq_self_iff (cs : List Char) :
    trim cs = cs ↔ (∀ c, cs.head? = some c → isBlank c = false) ∧
      ∀ c, cs.getLast? = some c → isBlank c = false := by
  rw [← trimStart_eq_self_iff, ← trimEnd_eq_self_iff]
  constructor
  · intro h
    -- trimming at the start alone already keeps the length, so it removes nothing
    have hstart : trimStart cs = cs := by
      refine (List.dropWhile_suffix isBlank).eq_of_length_le ?_
      have := length_trimEnd_le (trimStart cs)
      rw [← trim, h] at this
      exact this
    refine ⟨hstart, ?_⟩
    rw [trim, hstart] at h
    exact h
  · rintro ⟨hstart, hend⟩
    rw [trim, hstart, hend]

/-- Trimming at the end takes away nothing but blanks behind the text. -/
theorem exists_trimEnd_append (cs : List Char) :
    ∃ bs, cs = trimEnd cs ++ bs ∧ ∀ b ∈ bs, isBlank b = true := by
  refine ⟨(cs.reverse.takeWhile isBlank).reverse, ?_, fun b hb => ?_⟩
  · rw [trimEnd, ← List.reverse_append, List.takeWhile_append_dropWhile, List.reverse_reverse]
  · exact List.all_eq_true.1 List.all_takeWhile b (List.mem_reverse.1 hb)

/-- Trimming takes away nothing but blanks around the text. -/
theorem exists_blanks_trim (cs : List Char) :
    ∃ bs bs', cs = bs ++ (trim cs ++ bs') ∧ (∀ b ∈ bs, isBlank b = true) ∧
      ∀ b ∈ bs', isBlank b = true := by
  obtain ⟨bs', hend, hbs'⟩ := exists_trimEnd_append (trimStart cs)
  refine ⟨cs.takeWhile isBlank, bs', ?_, List.all_eq_true.1 List.all_takeWhile, hbs'⟩
  rw [trim, ← hend, trimStart, List.takeWhile_append_dropWhile]

/-- A trimmed text has no blanks left at its ends. -/
theorem trim_trim (cs : List Char) : trim (trim cs) = trim cs := by
  have hstart : ∀ c, (trimStart cs).head? = some c → isBlank c = false := by
    intro c hc
    have := List.head?_dropWhile_not isBlank cs
    rw [← trimStart, hc] at this
    simpa using this
  have hend : ∀ c, (trim cs).getLast? = some c → isBlank c = false := by
    intro c hc
    rw [trim, trimEnd, List.getLast?_reverse] at hc
    have := List.head?_dropWhile_not isBlank (trimStart cs).reverse
    rw [hc] at this
    simpa using this
  refine (trim_eq_self_iff _).2 ⟨fun c hc => hstart c ?_, hend⟩
  obtain ⟨bs, hbs, -⟩ := exists_trimEnd_append (trimStart cs)
  rw [hbs, ← trim, List.head?_append, hc]
  rfl

theorem mem_of_mem_trim {c : Char} {cs : List Char} (h : c ∈ trim cs) : c ∈ cs := by
  rw [trim, trimEnd, List.mem_reverse] at h
  have hstart := List.mem_reverse.1 ((List.dropWhile_sublist isBlank).subset h)
  exact (List.dropWhile_sublist isBlank).subset hstart

/-- A blank in front of a trimmed text is all that trimming removes. -/
theorem trim_blank_cons {c : Char} {cs : List Char} (hc : isBlank c = true)
    (h : trim cs = cs) : trim (c :: cs) = cs := by
  rw [trim, trimStart_blank_cons hc]
  exact h

end ComponentCompiler.Text
