import ComponentCompiler.Proofs.Style.Piece
import ComponentCompiler.Proofs.Text.Blank
import ComponentCompiler.Style.Printer
import ComponentCompiler.Style.Reader

/-!
# Watching for comments

Where comments are removed, a text is watched for the mark that opens one.  Backslashes outside
strings are not heeded there, so that a mark or a string may be seen where none was meant.  Be that
as it may, the same is seen without the blanks around the commas and the colon of a text: a blank
changes nothing that the comma or the colon beside it does not change as well.  So where nothing is
removed from a text, nothing is removed from its parts when they are trimmed and printed again.

## Main definitions

* `Watch`, `Watch.step`, `Watch.along` — watching a text for the mark of a comment.

## Main results

* `stripComments_eq_self_iff` — nothing is removed from a text exactly when no mark is seen in it.
* `stripComments_printSelectors`, `stripComments_trim_colon` — the same of selectors and of the two
  sides of a declaration, when they are printed.
-/

namespace ComponentCompiler.Style

open Text (trim isBlank)

/-! ### Watching -/

/-- Where watching for the mark of a comment stands. -/
inductive Watch where
  /-- Outside strings, perhaps behind a slash. -/
  | outside (slash : Bool)
  /-- In a string. -/
  | string (quote : Char)
  /-- In a string, behind a backslash. -/
  | escaped (quote : Char)

namespace Watch

/-- Watch one more character; `none` if it completes the mark of a comment. -/
def step : Watch → Char → Option Watch
  | .outside slash, c =>
      if slash && c == '*' then none
      else some (if isQuote c then .string c else .outside (c == '/'))
  | .string q, c =>
      some (if c == '\\' then .escaped q else if c == q then .outside false else .string q)
  | .escaped q, _ => some (.string q)

/-- Watch a text. -/
def along (w : Watch) (cs : List Char) : Option Watch := cs.foldlM step w

theorem along_nil (w : Watch) : w.along [] = some w := rfl

theorem along_cons (w : Watch) (c : Char) (cs : List Char) :
    w.along (c :: cs) = (w.step c).bind (·.along cs) := rfl

theorem along_append (w : Watch) (cs ds : List Char) :
    w.along (cs ++ ds) = (w.along cs).bind (·.along ds) := List.foldlM_append

theorem exists_along_of_append {w : Watch} {cs ds : List Char} (h : (w.along (cs ++ ds)).isSome) :
    ∃ w', w.along cs = some w' ∧ (w'.along ds).isSome := by
  rw [along_append] at h
  cases hcs : w.along cs with
  | none => rw [hcs] at h; cases h
  | some w' => rw [hcs] at h; exact ⟨w', rfl, h⟩

/-! ### What removing comments keeps -/

/-- Nothing is removed from the rest of a text. -/
def Keeps (cs : List Char) : Watch → Prop
  | .outside slash => (slash = true → cs.head? ≠ some '*') ∧ stripFrom .outside cs = cs
  | .string q => stripFrom (.string q) cs = cs
  | .escaped q => stripFrom (.string q) (cs.drop 1) = cs.drop 1

end Watch

theorem length_stripFrom_le (st : Strip) (cs : List Char) :
    (stripFrom st cs).length ≤ cs.length := by
  fun_induction stripFrom st cs <;> simp_all <;> omega

/-- From a text without the mark of a comment nothing is removed. -/
theorem stripFrom_of_no_mark {st : Strip} (hst : st ≠ .comment) {cs : List Char}
    (h : ¬ ['/', '*'] <:+: cs) : stripFrom st cs = cs := by
  have htail : ∀ {c : Char} {cs : List Char}, ¬ ['/', '*'] <:+: c :: cs → ¬ ['/', '*'] <:+: cs :=
    fun h hcs => h (hcs.trans (List.suffix_cons _ _).isInfix)
  fun_induction stripFrom st cs with
  | case1 cs => exact absurd ⟨[], cs, rfl⟩ h
  | case2 c cs _ ih =>
    rw [ih _ (htail h)]
    split <;> simp
  | case3 q c cs ih => rw [ih (by simp) (htail (htail h))]
  | case4 q c cs _ ih =>
    rw [ih _ (htail h)]
    split <;> simp
  | case5 => exact absurd rfl hst
  | case6 => exact absurd rfl hst
  | case7 => rfl

/-- The mark of a comment is removed, and any other character stays. -/
theorem stripFrom_outside_iff {c : Char} (hc : isQuote c = false) (cs : List Char) :
    stripFrom .outside (c :: cs) = c :: cs ↔
      (c = '/' → cs.head? ≠ some '*') ∧ stripFrom .outside cs = cs := by
  by_cases hmark : c = '/' ∧ cs.head? = some '*'
  · obtain ⟨rfl, hstar⟩ := hmark
    obtain ⟨ds, rfl⟩ := List.head?_eq_some_iff.1 hstar
    refine iff_of_false (fun h => ?_) fun h => h.1 rfl rfl
    have hlen := length_stripFrom_le .comment ds
    rw [stripFrom] at h
    rw [h, List.length_cons, List.length_cons] at hlen
    omega
  · rw [stripFrom, if_neg (by simp [hc]), List.cons.injEq]
    · exact ⟨fun h => ⟨fun hs hstar => hmark ⟨hs, hstar⟩, h.2⟩, fun h => ⟨rfl, h.2⟩⟩
    · rintro ds rfl rfl
      exact hmark ⟨rfl, rfl⟩

theorem stripFrom_quote_iff {q : Char} (hq : isQuote q = true) (cs : List Char) :
    stripFrom .outside (q :: cs) = q :: cs ↔ stripFrom (.string q) cs = cs := by
  rw [stripFrom, if_pos hq, List.cons.injEq]
  · exact and_iff_right rfl
  · exact fun _ hs => absurd hs (ne_of_class hq rfl)

theorem stripFrom_string_iff {q c : Char} (hc : c ≠ '\\') (cs : List Char) :
    stripFrom (.string q) (c :: cs) = c :: cs ↔
      stripFrom (if c == q then .outside else .string q) cs = cs := by
  rw [stripFrom, List.cons.injEq]
  · exact and_iff_right rfl
  · exact fun _ _ hb => absurd hb hc

theorem stripFrom_escape_iff (q : Char) (cs : List Char) :
    stripFrom (.string q) ('\\' :: cs) = '\\' :: cs ↔
      stripFrom (.string q) (cs.drop 1) = cs.drop 1 := by
  cases cs with
  | nil => simp [stripFrom]
  | cons c cs => simp [stripFrom]

/-- Nothing is removed from a text exactly when it is watched to its end. -/
theorem Watch.keeps_iff (w : Watch) (cs : List Char) : w.Keeps cs ↔ (w.along cs).isSome := by
  induction cs generalizing w with
  | nil => cases w <;> simp [Keeps, along_nil, stripFrom]
  | cons c cs ih =>
    cases w with
    | outside slash =>
      rw [along_cons, step]
      split
      · -- a mark of a comment is seen, and from there on something is removed
        next hmark =>
        simp only [Bool.and_eq_true, beq_iff_eq] at hmark
        exact iff_of_false (fun h => h.1 hmark.1 (by simp [hmark.2])) (by simp)
      · next hmark =>
        have hhead : slash = true → (c :: cs).head? ≠ some '*' := by simpa using hmark
        rw [Option.bind_some, ← ih, Keeps, and_iff_right hhead]
        cases hq : isQuote c with
        | true => exact stripFrom_quote_iff hq cs
        | false => simpa [Keeps] using stripFrom_outside_iff hq cs
    | string q =>
      rw [along_cons, step, Option.bind_some, ← ih]
      by_cases hb : c = '\\'
      · rw [hb]
        exact stripFrom_escape_iff q cs
      · have hstring : (c == '\\') = false := by simpa using hb
        rw [Keeps, stripFrom_string_iff hb, hstring]
        cases c == q with
        | true => simp [Keeps]
        | false => exact Iff.rfl
    | escaped q =>
      rw [along_cons, step, Option.bind_some, ← ih]
      exact Iff.rfl

/-- Nothing is removed from a text exactly when no mark of a comment is seen in it. -/
theorem stripComments_eq_self_iff {cs : List Char} :
    stripComments cs = cs ↔ ((Watch.outside false).along cs).isSome := by
  rw [← Watch.keeps_iff, Watch.Keeps]
  simp [stripComments]

/-! ### Blanks -/

namespace Watch

/-- Watching stands in a string only behind a quote. -/
def Proper : Watch → Prop
  | .outside _ => True
  | .string q => isQuote q = true
  | .escaped q => isQuote q = true

/-- Where watching stands behind a character that means nothing to it, such as a blank. -/
def rested : Watch → Watch
  | .outside _ => .outside false
  | .string q => .string q
  | .escaped q => .string q

theorem rested_rested (w : Watch) : w.rested.rested = w.rested := by cases w <;> rfl

theorem Proper.rested {w : Watch} (h : w.Proper) : w.rested.Proper := by
  cases w with
  | outside _ => trivial
  | string q => exact h
  | escaped q => exact h

theorem Proper.step {w w' : Watch} {c : Char} (h : w.Proper) (hstep : w.step c = some w') :
    w'.Proper := by
  cases w with
  | outside slash =>
    rw [Watch.step] at hstep
    split at hstep
    · cases hstep
    · obtain rfl := Option.some.inj hstep
      cases hq : isQuote c with
      | true => exact hq
      | false => trivial
  | string q =>
    obtain rfl := Option.some.inj hstep
    split
    · exact h
    · split
      · trivial
      · exact h
  | escaped q =>
    obtain rfl := Option.some.inj hstep
    exact h

theorem Proper.along {w w' : Watch} {cs : List Char} (h : w.Proper)
    (halong : w.along cs = some w') :
    w'.Proper := by
  induction cs generalizing w with
  | nil =>
    obtain rfl := Option.some.inj halong
    exact h
  | cons c cs ih =>
    obtain ⟨w₁, hstep, halong⟩ := Option.bind_eq_some_iff.1 halong
    exact ih (h.step hstep) halong

/-- A character that means nothing where comments are removed. -/
def Idle (c : Char) : Prop := isQuote c = false ∧ c ≠ '\\' ∧ c ≠ '/' ∧ c ≠ '*'

instance (c : Char) : Decidable (Idle c) := inferInstanceAs (Decidable (_ ∧ _))

theorem idle_of_isBlank {c : Char} (h : isBlank c = true) : Idle c :=
  ⟨isQuote_eq_false_of_class h (by decide) (by decide), ne_of_class h (by decide),
    ne_of_class h (by decide), ne_of_class h (by decide)⟩

theorem step_idle {w : Watch} (hw : w.Proper) {c : Char} (hc : Idle c) :
    w.step c = some w.rested := by
  obtain ⟨hq, hb, hs, ha⟩ := hc
  cases w with
  | outside slash => simp [step, rested, hq, hs, ha]
  | string q =>
    have hne : c ≠ q := (ne_of_class hw hq).symm
    simp [step, rested, hb, hne]
  | escaped q => rfl

theorem along_cons_idle {w : Watch} (hw : w.Proper) {c : Char} (hc : Idle c) (cs : List Char) :
    w.along (c :: cs) = w.rested.along cs := by
  rw [along_cons, step_idle hw hc]
  rfl

/-- Blanks behind a character that means nothing are not seen. -/
theorem along_blanks {w : Watch} (hw : w.Proper) {bs : List Char}
    (hbs : ∀ b ∈ bs, isBlank b = true) (cs : List Char) :
    w.rested.along (bs ++ cs) = w.rested.along cs := by
  induction bs with
  | nil => rfl
  | cons b bs ih =>
    obtain ⟨hb, hbs⟩ := List.forall_mem_cons.1 hbs
    rw [List.cons_append, along_cons_idle hw.rested (idle_of_isBlank hb), rested_rested, ih hbs]

/-- Blanks in front of a character that means nothing are not seen. -/
theorem along_blanks_idle {w : Watch} (hw : w.Proper) {bs : List Char}
    (hbs : ∀ b ∈ bs, isBlank b = true) {c : Char} (hc : Idle c) (cs : List Char) :
    w.along (bs ++ c :: cs) = w.along (c :: cs) := by
  cases bs with
  | nil => rfl
  | cons b bs =>
    obtain ⟨hb, hbs⟩ := List.forall_mem_cons.1 hbs
    rw [List.cons_append, along_cons_idle hw (idle_of_isBlank hb), along_blanks hw hbs,
      along_cons_idle hw.rested hc, along_cons_idle hw hc, rested_rested]

/-- Between characters that mean nothing, the blanks around a text are not seen. -/
theorem along_trim_idle {w : Watch} (hw : w.Proper) (cs : List Char) {c : Char} (hc : Idle c)
    (ds : List Char) : w.rested.along (trim cs ++ c :: ds) = w.rested.along (cs ++ c :: ds) := by
  obtain ⟨bs, bs', hcs, hbs, hbs'⟩ := Text.exists_blanks_trim cs
  have hcut : cs ++ c :: ds = bs ++ (trim cs ++ (bs' ++ c :: ds)) := by
    rw [← List.append_assoc (trim cs), ← List.append_assoc bs, ← hcs]
  rw [hcut, along_blanks hw hbs, along_append, along_append]
  cases halong : w.rested.along (trim cs) with
  | none => rfl
  | some w' => exact (along_blanks_idle (hw.rested.along halong) hbs' hc ds).symm

theorem isSome_along_trim {w : Watch} (hw : w.Proper) {cs : List Char}
    (h : (w.rested.along cs).isSome) : (w.rested.along (trim cs)).isSome := by
  obtain ⟨bs, bs', hcs, hbs, -⟩ := Text.exists_blanks_trim cs
  rw [hcs, along_blanks hw hbs] at h
  obtain ⟨w', halong, -⟩ := exists_along_of_append h
  rw [halong]
  rfl

end Watch

/-! ### Declarations -/

/-- Nothing is removed from a declaration without the blanks around its colon. -/
theorem stripComments_trim_colon {s t : List Char}
    (h : stripComments (s ++ ':' :: t) = s ++ ':' :: t) :
    stripComments (trim s ++ ':' :: trim t) = trim s ++ ':' :: trim t := by
  have hproper : (Watch.outside false).Proper := trivial
  rw [stripComments_eq_self_iff] at h ⊢
  have htrim := Watch.along_trim_idle hproper s (show Watch.Idle ':' by decide) t
  rw [Watch.rested] at htrim
  rw [← htrim] at h
  obtain ⟨w, halong, h⟩ := Watch.exists_along_of_append h
  have hw := hproper.along halong
  rw [Watch.along_cons_idle hw (by decide)] at h
  rw [Watch.along_append, halong, Option.bind_some, Watch.along_cons_idle hw (by decide)]
  exact Watch.isSome_along_trim hw h

/-! ### Selectors -/

theorem cutSelectors_ne_nil (quote : Option Char) (depth : Nat) (read cs : List Char) :
    cutSelectors quote depth read cs ≠ [] := by
  fun_induction cutSelectors quote depth read cs <;> simp_all

/-- Between the selectors stand the commas that they were cut at. -/
theorem intercalate_cutSelectors (quote : Option Char) (depth : Nat) (read cs : List Char) :
    [','].intercalate (cutSelectors quote depth read cs) = read.reverse ++ cs := by
  fun_induction cutSelectors quote depth read cs with
  | case6 depth read c cs _ _ _ _ hc ih =>
    simp only [Bool.and_eq_true, beq_iff_eq] at hc
    rw [List.intercalate_cons_of_ne_nil (cutSelectors_ne_nil none 0 [] cs), ih, hc.1]
    simp
  | case8 => simp
  -- in the other cases characters go over to the selector under way
  | _ => simp_all

/-- The selectors that are kept: trimmed, and none of them empty. -/
def keptSelectors (css : List (List Char)) : List (List Char) :=
  (css.map trim).filter fun cs => !cs.isEmpty

theorem map_toList_splitSelectors (cs : List Char) :
    (splitSelectors cs).map String.toList
      = keptSelectors (cutSelectors none 0 [] (stripComments cs)) := by
  rw [splitSelectors, keptSelectors]
  generalize (cutSelectors none 0 [] (stripComments cs)).map trim = css
  induction css with
  | nil => rfl
  | cons cs css ih =>
    cases cs with
    | nil => exact ih
    | cons c cs => simpa using ih

namespace Watch

/-- One more selector in front of others. -/
theorem isSome_along_cons {w w' : Watch} (hw : w.Proper) {cs : List Char} {css : List (List Char)}
    (halong : w.rested.along (trim cs) = some w')
    (h : (w'.rested.along ([','].intercalate (keptSelectors css))).isSome) :
    (w.rested.along ([','].intercalate (keptSelectors (cs :: css)))).isSome := by
  rw [keptSelectors, List.map_cons, List.filter_cons, ← keptSelectors]
  split
  · by_cases hnil : keptSelectors css = []
    · rw [hnil, List.intercalate_singleton, halong]
      rfl
    · rw [List.intercalate_cons_of_ne_nil hnil, List.append_assoc, along_append, halong,
        Option.bind_some, List.singleton_append,
        along_cons_idle (hw.rested.along halong) (by decide)]
      exact h
  · next hempty =>
    -- with nothing in front of it the comma goes too
    have hnil : trim cs = [] := by simpa using hempty
    rw [hnil, along_nil] at halong
    rwa [← Option.some.inj halong, rested_rested] at h

/-- No mark is seen in selectors that are trimmed and joined again. -/
theorem isSome_along_keptSelectors {css : List (List Char)} {w : Watch} (hw : w.Proper)
    (h : (w.rested.along ([','].intercalate css)).isSome) :
    (w.rested.along ([','].intercalate (keptSelectors css))).isSome := by
  induction css generalizing w with
  | nil => rfl
  | cons cs css ih =>
    cases css with
    | nil =>
      rw [List.intercalate_singleton] at h
      obtain ⟨w', halong⟩ := Option.isSome_iff_exists.1 (isSome_along_trim hw h)
      exact isSome_along_cons hw halong rfl
    | cons ds css =>
      have hcomma : Idle ',' := by decide
      rw [List.intercalate_cons_cons, List.append_assoc, List.singleton_append,
        ← along_trim_idle hw cs hcomma] at h
      obtain ⟨w', halong, h⟩ := exists_along_of_append h
      have hw' := hw.rested.along halong
      rw [along_cons_idle hw' hcomma] at h
      exact isSome_along_cons hw halong (ih hw' h)

end Watch

/-- Nothing is removed from the selectors in front of a block when they are printed. -/
theorem stripComments_printSelectors {cs : List Char}
    (h : stripComments (stripComments cs) = stripComments cs) :
    stripComments (printSelectors (splitSelectors cs)) = printSelectors (splitSelectors cs) := by
  have hcut := intercalate_cutSelectors none 0 [] (stripComments cs)
  rw [List.reverse_nil, List.nil_append] at hcut
  rw [stripComments_eq_self_iff, ← hcut] at h
  rw [stripComments_eq_self_iff, printSelectors, map_toList_splitSelectors]
  exact Watch.isSome_along_keptSelectors (w := .outside false) trivial h

end ComponentCompiler.Style
