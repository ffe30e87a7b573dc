import ComponentCompiler.Proofs.Style.ByteScan

/-!
# What components look like

The text of a component tells its kind: a combinator starts with a blank or with a symbol, a pseudo
component with a colon, and nothing else does.  A combinator is blanks with at most one symbol among
them, and it takes all the blanks there are, so that what follows it never starts with one.

## Main definitions

* `OpensJoin` — texts that start as combinators do.
* `IsJoin` — blanks with at most one symbol among them.

## Main results

* `tokenize_canonical` — the components of a selector are all of its text, and each looks like its
  kind; and they are read from the bytes of the selector without going astray.
-/

namespace ComponentCompiler.Style

open Text (isPlainBlank)

/-- A text that starts with a blank or with the symbol of a combinator. -/
def OpensJoin (cs : List Char) : Prop :=
  (∃ c ∈ cs.head?, isPlainBlank c = true) ∨
    ['>'] <+: cs ∨ ['+'] <+: cs ∨ ['~'] <+: cs ∨ ['|', '|'] <+: cs

/-- Blanks with at most one symbol of a combinator among them. -/
def IsJoin (cs : List Char) : Prop :=
  ∃ before symbol behind, cs = before ++ symbol ++ behind ∧
    symbol ∈ [[], ['>'], ['+'], ['~'], ['|', '|']] ∧
    ∀ c ∈ before ++ behind, isPlainBlank c = true

theorem IsJoin.cons {c : Char} {cs : List Char} (hc : isPlainBlank c = true) (h : IsJoin cs) :
    IsJoin (c :: cs) := by
  obtain ⟨before, symbol, behind, rfl, hsymbol, hblank⟩ := h
  exact ⟨c :: before, symbol, behind, rfl, hsymbol, List.forall_mem_cons.2 ⟨hc, hblank⟩⟩

/-! ### Combinators -/

/-- Without a symbol, only blanks are taken. -/
theorem isPlainBlank_takeCombinator (cs : List Char) :
    ∀ c ∈ (takeCombinator false cs).text, isPlainBlank c = true := by
  generalize hb : false = symbol
  fun_induction takeCombinator symbol cs with
  | case4 symbol c cs _ hc ih => exact List.forall_mem_cons.2 ⟨hc, ih hb⟩
  | case5 symbol c cs _ _ hsymbol => simp [← hb] at hsymbol
  | case2 => cases hb
  | _ => simp

theorem isJoin_takeCombinator (cs : List Char) : IsJoin (takeCombinator true cs).text := by
  generalize hb : true = symbol
  fun_induction takeCombinator symbol cs with
  | case1 => exact ⟨[], [], [], rfl, by simp, by simp⟩
  | case2 cs =>
    exact ⟨[], ['|', '|'], _, rfl, by simp, isPlainBlank_takeCombinator cs⟩
  | case3 symbol cs hsymbol => exact absurd hb.symm hsymbol
  | case4 symbol c cs _ hc ih => exact (ih hb).cons hc
  | case5 symbol c cs _ _ hsymbol =>
    refine ⟨[], [c], _, rfl, ?_, isPlainBlank_takeCombinator cs⟩
    simpa [or_assoc] using (Bool.and_eq_true_iff.1 hsymbol).2
  | case6 => exact ⟨[], [], [], rfl, by simp, by simp⟩

/-- All blanks are taken. -/
theorem head?_rest_takeCombinator (symbol : Bool) (cs : List Char) :
    ∀ c ∈ (takeCombinator symbol cs).rest.head?, isPlainBlank c = false := by
  fun_induction takeCombinator symbol cs with
  | case1 => simp
  | case2 cs ih => exact ih
  | case3 => simp [isPlainBlank]
  | case4 symbol c cs _ _ ih => exact ih
  | case5 symbol c cs _ _ _ ih => exact ih
  | case6 symbol c cs _ hc => simpa using hc

/-! ### The kind of a component -/

/-- A component starts as combinators do just when one is read. -/
theorem opensJoin_iff {c : Char} {cs : List Char} {t : Taken}
    (h : (takeComponent c cs).2 = .ok t) :
    OpensJoin (c :: t.text) ↔ startsCombinator c cs = true := by
  have hall : t.text ++ t.rest = cs := all_of_takeComponent h
  rw [startsCombinator_iff]
  unfold OpensJoin
  constructor
  · rintro (⟨d, hd, hblank⟩ | hmark)
    · obtain rfl : c = d := Option.some.inj hd
      exact .inl (.inl hblank)
    simp only [List.cons_prefix_cons, List.nil_prefix, and_true] at hmark
    rcases hmark with rfl | rfl | rfl | ⟨rfl, hbar⟩
    · simp
    · simp
    · simp
    · -- the second bar is part of the component, so it stands in the text as well
      obtain ⟨ds, hds⟩ := hbar
      exact .inr ⟨rfl, by rw [← hall, ← hds]; rfl⟩
  · rintro ((hblank | rfl | rfl | rfl) | ⟨rfl, hbar⟩)
    · exact .inl ⟨c, rfl, hblank⟩
    · simp
    · simp
    · simp
    · obtain ⟨ds, rfl⟩ := List.head?_eq_some_iff.1 hbar
      obtain rfl : (takeCombinator false ds).after ['|'] = t := Except.ok.inj h
      simp [Taken.after]

theorem isJoin_takeComponent {c : Char} {cs : List Char} {t : Taken}
    (h : (takeComponent c cs).2 = .ok t) (hstart : startsCombinator c cs = true) :
    IsJoin (c :: t.text) ∧ ∀ d ∈ t.rest.head?, isPlainBlank d = false := by
  rw [takeComponent_of_combinator hstart] at h
  obtain rfl : takeJoin c cs = t := Except.ok.inj h
  have hjoin := takeCombinator_join hstart
  have hshape := isJoin_takeCombinator (c :: cs)
  have hrest := head?_rest_takeCombinator true (c :: cs)
  rw [hjoin] at hshape hrest
  exact ⟨hshape, hrest⟩

/-- A component looks like its kind. -/
theorem shape_takeComponent {c : Char} {cs : List Char} {t : Taken}
    (h : (takeComponent c cs).2 = .ok t) :
    ((takeComponent c cs).1 = .combinator ↔ OpensJoin (c :: t.text)) ∧
      ((takeComponent c cs).1 = .combinator → IsJoin (c :: t.text)) ∧
      ((takeComponent c cs).1 = .pseudo ↔ [':'] <+: c :: t.text) ∧
      ((takeComponent c cs).1 = .simple ↔ ¬ OpensJoin (c :: t.text) ∧ ¬ [':'] <+: c :: t.text) := by
  have hcolon : [':'] <+: c :: t.text ↔ c = ':' := by
    simp [List.cons_prefix_cons, eq_comm]
  rw [opensJoin_iff h, hcolon, takeComponent_kind]
  cases hstart : startsCombinator c cs with
  | true =>
    have hc : c ≠ ':' := by
      rintro rfl
      simp [startsCombinator, isPlainBlank] at hstart
    simp [hc, (isJoin_takeComponent h hstart).1]
  | false => by_cases hc : c = ':' <;> simp [hc]

theorem head?_text_of_components {cs : List Char} {k : Component} {ks : List Component}
    (h : components cs = .ok (k :: ks)) : k.text.head? = cs.head? := by
  cases cs with
  | nil => simp [components] at h
  | cons c cs =>
    obtain ⟨t, ls, -, -, hks⟩ := components_cons_eq_ok h
    rw [(List.cons.inj hks).1]
    rfl

/-- What follows a combinator does not start with a blank. -/
theorem head?_text_behind {cs : List Char} {front back : List Component} {k l : Component}
    (h : components cs = .ok (front ++ k :: l :: back)) (hk : k.kind = .combinator) :
    ∀ c ∈ l.text.head?, isPlainBlank c = false := by
  have hks := components_textAll_of_append h
  generalize Component.textAll (k :: l :: back) = ds at hks
  cases ds with
  | nil => simp [components] at hks
  | cons c ds =>
    obtain ⟨t, ls, ht, hrest, hcons⟩ := components_cons_eq_ok hks
    obtain ⟨rfl, rfl⟩ := List.cons.inj hcons
    rw [head?_text_of_components hrest]
    exact (isJoin_takeComponent ht ((opensJoin_iff ht).1 ((shape_takeComponent ht).1.1 hk))).2

theorem components_of_tokenize {selector : String} {ks : List Component}
    (h : tokenize selector = .ok ks) : components selector.toList = .ok ks := by
  unfold tokenize at h
  cases hc : components selector.toList with
  | error e =>
    rw [hc] at h
    cases h
  | ok ls =>
    rw [hc] at h
    rw [← Except.ok.inj h]

/-- Taking a selector apart loses nothing, and tells every component by its text: the components
together are the selector, none is empty, and each looks like its kind.  Reading the bytes of any
selector, well formed or not, gives these components or the fault, and never a breach. -/
theorem tokenize_canonical (selector : String) :
    (∀ b, scan selector ≠ .error (.breach b)) ∧
      scan selector = (components selector.toList).mapError .fault ∧
      ∀ ks, tokenize selector = .ok ks →
        Component.textAll ks = selector.toList ∧
        (∀ k ∈ ks, k.text ≠ [] ∧
          (k.kind = .combinator ↔ OpensJoin k.text) ∧ (k.kind = .combinator → IsJoin k.text) ∧
          (k.kind = .pseudo ↔ [':'] <+: k.text) ∧
          (k.kind = .simple ↔ ¬ OpensJoin k.text ∧ ¬ [':'] <+: k.text)) ∧
        ∀ front k l back, ks = front ++ k :: l :: back → k.kind = .combinator →
          ∀ c ∈ l.text.head?, isPlainBlank c = false := by
  refine ⟨scan_ne_breach selector, scan_eq selector, fun ks hks => ?_⟩
  have hcomponents := components_of_tokenize hks
  refine ⟨textAll_components hcomponents, ?_, ?_⟩
  · exact forall_mem_components
      (fun c cs t ht => ⟨List.cons_ne_nil c t.text, shape_takeComponent ht⟩) hcomponents
  · rintro front k l back rfl hk
    exact head?_text_behind hcomponents hk

/-- A selector with an escape in front of a character of two bytes, and one that ends with a
backslash in an open group. -/
theorem tokenize_canonical_escaped :
    scan "a\\é  ||\t:b(\"\\ü)\")" = .ok [⟨.simple, "a\\é".toList⟩, ⟨.combinator, "  ||\t".toList⟩,
        ⟨.pseudo, ":b(\"\\ü)\")".toList⟩] ∧
      IsJoin "  ||\t".toList ∧
      scan "[é\\" = .error (.fault (.unbalanced '[')) := by
  have hks : tokenize "a\\é  ||\t:b(\"\\ü)\")" = .ok [⟨.simple, "a\\é".toList⟩,
      ⟨.combinator, "  ||\t".toList⟩, ⟨.pseudo, ":b(\"\\ü)\")".toList⟩] := by
    decide +kernel
  obtain ⟨-, hscan, hshape⟩ := tokenize_canonical "a\\é  ||\t:b(\"\\ü)\")"
  have hjoin := (hshape _ hks).2.1 ⟨.combinator, "  ||\t".toList⟩ (by simp)
  refine ⟨?_, hjoin.2.2.1 rfl, ?_⟩
  · rw [hscan, components_of_tokenize hks]
    rfl
  · rw [(tokenize_canonical _).2.1]
    decide +kernel

end ComponentCompiler.Style
