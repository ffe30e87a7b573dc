import ComponentCompiler.Proofs.Style.Piece
import ComponentCompiler.Style.Selector

/-!
# The components of a selector

A selector is taken apart from the left, and where a component ends depends on what follows: a name
goes on with every character that may be part of it, a bar belongs to a name unless a second one
follows, and a combinator takes the blanks around it.  What a reader sees of the text behind its
component is little, though: the first character, and whether two bars stand there.  Another text
that looks the same there, or that starts with an opening bracket, may follow in its place.

## Main definitions

* `endsEscaping` — texts that end with a backslash which escapes nothing.
* `componentReader` — how a component is taken that is no combinator, by its first character.
* `Exchange rest rest'` — `rest'` may follow a component in place of `rest`.
* `SelfContained front read` — what `read` takes behind `front` does not depend on what follows.

## Main results

* `textAll_components` — the components of a selector are all of its text.
* `selfContained_componentReader` — components are self-contained.
* `components_exchange` — components stay what they are in front of an opening bracket.
-/

namespace ComponentCompiler.Style

open Text (isPlainBlank)

/-! ### Taking a selector apart -/

theorem components_cons_eq_ok {c : Char} {cs : List Char} {ks : List Component}
    (h : components (c :: cs) = .ok ks) : ∃ t ls, (takeComponent c cs).2 = .ok t ∧
      components t.rest = .ok ls ∧ ks = ⟨(takeComponent c cs).1, c :: t.text⟩ :: ls := by
  rw [components] at h
  split at h
  · cases h
  · next t ht =>
    cases hrest : components t.rest with
    | error e =>
      rw [hrest] at h
      cases h
    | ok ls =>
      rw [hrest] at h
      exact ⟨t, ls, ht, hrest, (Except.ok.inj h).symm⟩

theorem components_cons {c : Char} {cs : List Char} {k : ComponentKind} {t : Taken}
    (h : takeComponent c cs = (k, .ok t)) :
    components (c :: cs) = (components t.rest).map (⟨k, c :: t.text⟩ :: ·) := by
  rw [components]
  split
  · next e he =>
    rw [h] at he
    cases he
  · next u hu =>
    have htaken := hu
    rw [h] at htaken
    obtain rfl := Except.ok.inj htaken
    change (components t.rest).map (⟨(takeComponent c cs).1, c :: t.text⟩ :: ·) = _
    rw [h]

@[simp] theorem textAll_nil : Component.textAll [] = [] := rfl

@[simp] theorem textAll_cons (k : Component) (ks : List Component) :
    Component.textAll (k :: ks) = k.text ++ Component.textAll ks := rfl

@[simp] theorem textAll_append (ks ls : List Component) :
    Component.textAll (ks ++ ls) = Component.textAll ks ++ Component.textAll ls :=
  List.flatMap_append

/-- The components of a selector, one after the other, are its text. -/
theorem textAll_components {cs : List Char} {ks : List Component} (h : components cs = .ok ks) :
    Component.textAll ks = cs := by
  induction ks generalizing cs with
  | nil =>
    cases cs with
    | nil => rfl
    | cons c cs =>
      obtain ⟨t, ls, -, -, hks⟩ := components_cons_eq_ok h
      cases hks
  | cons k ks ih =>
    cases cs with
    | nil => simp [components] at h
    | cons c cs =>
      obtain ⟨t, ls, ht, hrest, hks⟩ := components_cons_eq_ok h
      obtain ⟨rfl, rfl⟩ := List.cons.inj hks
      rw [textAll_cons, ih hrest]
      exact congrArg (c :: ·) (all_of_takeComponent ht)

/-- How a component is taken that is no combinator: its kind, and the reader of what stands behind
its first character. -/
def componentReader (c : Char) : ComponentKind × (List Char → Except ComponentFault Taken) :=
  if c == '[' then (.simple, takeGroup '[' ']' none 0)
  else if c == '(' then (.simple, takeGroup '(' ')' none 0)
  else if c == ')' then (.simple, fun _ => .error (.unbalanced '('))
  else if c == ']' then (.simple, fun _ => .error (.unbalanced '['))
  else if isQuote c then (.simple, takeString c)
  else if c == ':' then (.pseudo, takePseudo)
  else if c == '.' || c == '#' then (.simple, fun cs => .ok (takeIdent cs))
  else if c == '*' || c == '&' then (.simple, fun cs => .ok ⟨[], cs⟩)
  else (.simple, fun cs => .ok (takeName c cs))

theorem takeComponent_of_combinator {c : Char} {cs : List Char}
    (h : startsCombinator c cs = true) :
    takeComponent c cs = (.combinator, .ok (takeJoin c cs)) := by
  rw [takeComponent, if_pos h]

theorem takeComponent_of_reader {c : Char} {cs : List Char} (h : startsCombinator c cs = false) :
    takeComponent c cs = ((componentReader c).1, (componentReader c).2 cs) := by
  change _ = (fun r : ComponentKind × (List Char → Except ComponentFault Taken) => (r.1, r.2 cs))
    (componentReader c)
  rw [takeComponent, if_neg (by simp [h])]
  simp only [componentReader, apply_ite
    (fun r : ComponentKind × (List Char → Except ComponentFault Taken) => (r.1, r.2 cs))]

/-- What is true of every component that is taken is true of all components of a selector. -/
theorem forall_mem_components {p : Component → Prop}
    (h : ∀ c cs t, (takeComponent c cs).2 = .ok t → p ⟨(takeComponent c cs).1, c :: t.text⟩)
    {cs : List Char} {ks : List Component} (hks : components cs = .ok ks) : ∀ k ∈ ks, p k := by
  induction ks generalizing cs with
  | nil => simp
  | cons k ks ih =>
    cases cs with
    | nil => simp [components] at hks
    | cons c cs =>
      obtain ⟨t, ls, ht, hrest, hcons⟩ := components_cons_eq_ok hks
      obtain ⟨rfl, rfl⟩ := List.cons.inj hcons
      exact List.forall_mem_cons.2 ⟨h c cs t ht, ih hrest⟩

/-- Behind its first components, a selector has the others. -/
theorem components_textAll_of_append {ks ls : List Component} {cs : List Char}
    (h : components cs = .ok (ks ++ ls)) : components (Component.textAll ls) = .ok ls := by
  induction ks generalizing cs with
  | nil =>
    rw [List.nil_append] at h
    rw [textAll_components h, h]
  | cons k ks ih =>
    cases cs with
    | nil => simp [components] at h
    | cons c cs =>
      obtain ⟨t, ls', -, hrest, hks⟩ := components_cons_eq_ok h
      rw [List.cons_append] at hks
      obtain ⟨-, rfl⟩ := List.cons.inj hks
      exact ih hrest

/-! ### Kinds -/

theorem kind_componentReader (c : Char) :
    (componentReader c).1 = if c = ':' then .pseudo else .simple := by
  by_cases hc : c = ':'
  · subst hc
    rfl
  · rw [if_neg hc]
    simp only [componentReader, apply_ite Prod.fst, beq_false_of_ne hc, Bool.false_eq_true,
      if_false, ite_self]

theorem takeComponent_kind (c : Char) (cs : List Char) :
    (takeComponent c cs).1
      = if startsCombinator c cs then .combinator else if c = ':' then .pseudo else .simple := by
  cases hstart : startsCombinator c cs with
  | true => rw [takeComponent_of_combinator hstart, if_pos rfl]
  | false =>
    rw [takeComponent_of_reader hstart, kind_componentReader, if_neg Bool.false_ne_true]

/-- A pseudo component starts with a colon. -/
theorem head?_of_pseudo {cs : List Char} {ks : List Component} (h : components cs = .ok ks) :
    ∀ k ∈ ks, k.kind = .pseudo → k.text.head? = some ':' := by
  refine forall_mem_components (fun c cs t _ hkind => ?_) h
  rw [takeComponent_kind] at hkind
  split at hkind
  · cases hkind
  split at hkind
  · next hc => rw [hc]; rfl
  · cases hkind

/-! ### Backslashes at the end -/

/-- Whether a text ends with a backslash that escapes nothing. -/
def endsEscaping : List Char → Bool
  | [] => false
  | ['\\'] => true
  | '\\' :: _ :: cs => endsEscaping cs
  | _ :: cs => endsEscaping cs

theorem endsEscaping_cons {c : Char} (hc : c ≠ '\\') (cs : List Char) :
    endsEscaping (c :: cs) = endsEscaping cs := by
  rw [endsEscaping]
  · exact fun h => absurd h hc
  · exact fun _ _ h => absurd h hc

/-- A character that neither escapes the next one nor is a backslash at the end is no backslash. -/
theorem ne_backslash_of_alone {c : Char} {cs : List Char} (h : c = '\\' → cs = [] → False)
    (h' : ∀ d ds, c = '\\' → cs = d :: ds → False) : c ≠ '\\' := by
  rintro rfl
  cases cs with
  | nil => exact h rfl rfl
  | cons d ds => exact h' d ds rfl rfl

/-- Behind a text that escapes nothing at its end, escapes are read as before. -/
theorem endsEscaping_append {cs : List Char} (h : endsEscaping cs = false) (ds : List Char) :
    endsEscaping (cs ++ ds) = endsEscaping ds := by
  fun_induction endsEscaping cs with
  | case1 => rfl
  | case2 => cases h
  | case3 c cs ih => exact ih h
  | case4 c cs h₁ h₂ ih =>
    rw [List.cons_append, endsEscaping_cons (ne_backslash_of_alone h₁ h₂), ih h]

/-! ### What may follow a component -/

/-- The text `rest'` may follow a component in place of `rest`: it starts with an opening bracket,
or it looks like `rest`. -/
inductive Exchange : List Char → List Char → Prop
  /-- An opening bracket ends every component in front of it. -/
  | bracket {rest : List Char} (ds : List Char) : Exchange rest ('[' :: ds)
  /-- The first character is the same, and two bars stand there in both or in neither. -/
  | alike (c : Char) {cs ds : List Char}
      (h : c = '|' → (cs.head? = some '|' ↔ ds.head? = some '|')) : Exchange (c :: cs) (c :: ds)

/-- A text in front makes two texts alike, unless the first of them starts with a bar. -/
theorem exchange_append (cs : List Char) {rest : List Char} (h : rest.head? ≠ some '|')
    (ds : List Char) : Exchange (cs ++ rest) (cs ++ '[' :: ds) := by
  cases cs with
  | nil => exact .bracket ds
  | cons c cs =>
    refine .alike c fun _ => ?_
    cases cs with
    | nil => simpa using h
    | cons d cs => exact Iff.rfl

/-- What a reader takes behind `front` is taken again when another text follows, and leaves no
escape open if anything follows. -/
structure SelfContained (front : List Char) (read : List Char → Except ComponentFault Taken) :
    Prop where
  /-- Only at the end of the whole text may a backslash be left with nothing to escape. -/
  escape : ∀ {cs : List Char} {t : Taken}, read cs = .ok t → t.rest ≠ [] →
    endsEscaping (front ++ t.text) = false
  /-- The same is taken when another text follows. -/
  again : ∀ {cs : List Char} {t : Taken}, read cs = .ok t →
    endsEscaping (front ++ t.text) = false → ∀ {rest : List Char}, Exchange t.rest rest →
      read (t.text ++ rest) = .ok ⟨t.text, rest⟩

/-! ### Names and combinators -/

theorem ne_backslash_of_isIdentChar {c : Char} (h : (c == '|' || isIdentChar c) = true) :
    c ≠ '\\' := ne_of_class (p := fun c => c == '|' || isIdentChar c) h (by decide)

theorem endsEscaping_takeIdent (cs : List Char) (h : (takeIdent cs).rest ≠ []) :
    endsEscaping (takeIdent cs).text = false := by
  fun_induction takeIdent cs with
  | case1 => rfl
  | case2 => exact absurd rfl h
  | case3 c cs ih => exact ih h
  | case4 => rfl
  | case5 c cs _ _ _ hc ih =>
    rw [Taken.after, List.singleton_append, endsEscaping_cons (ne_backslash_of_isIdentChar hc)]
    exact ih h
  | case6 => rfl

/-- What follows starts as before, or with the opening bracket. -/
theorem head?_of_exchange {rest rest' : List Char} (h : Exchange rest rest') {c : Char}
    (hc : c ≠ '[') (cs : List Char) (hhead : (cs ++ rest').head? = some c) :
    (cs ++ rest).head? = some c := by
  cases cs with
  | nil =>
    cases h with
    | bracket ds => exact absurd (Option.some.inj hhead).symm hc
    | alike d _ => exact hhead
  | cons d cs => exact hhead

theorem takeIdent_cons {c : Char} (hc : c ≠ '\\') {cs : List Char}
    (hbar : ∀ ds, c = '|' → cs = '|' :: ds → False) :
    takeIdent (c :: cs)
      = if c == '|' || isIdentChar c then (takeIdent cs).after [c] else ⟨[], c :: cs⟩ := by
  rw [takeIdent]
  · exact fun h => absurd h hc
  · exact fun _ _ h => absurd h hc
  · exact hbar

theorem takeIdent_bracket (ds : List Char) : takeIdent ('[' :: ds) = ⟨[], '[' :: ds⟩ := rfl

/-- A name is taken again as long as it does not end with a backslash. -/
theorem takeIdent_again (cs : List Char) (h : endsEscaping (takeIdent cs).text = false)
    {rest : List Char} (hrest : Exchange (takeIdent cs).rest rest) :
    takeIdent ((takeIdent cs).text ++ rest) = ⟨(takeIdent cs).text, rest⟩ := by
  fun_induction takeIdent cs with
  | case1 =>
    cases hrest
    exact takeIdent_bracket _
  | case2 => cases h
  | case3 c cs ih =>
    change takeIdent ('\\' :: c :: ((takeIdent cs).text ++ rest)) = _
    rw [takeIdent, ih h hrest]
    rfl
  | case4 cs =>
    cases hrest with
    | bracket ds => exact takeIdent_bracket ds
    | alike _ hbar =>
      obtain ⟨ds, rfl⟩ := List.head?_eq_some_iff.1 ((hbar rfl).1 rfl)
      rfl
  | case5 c cs h₁ h₂ h₃ hc ih =>
    have hb := ne_backslash_of_isIdentChar hc
    have htail : endsEscaping (takeIdent cs).text = false := by
      rw [← endsEscaping_cons hb]
      exact h
    change takeIdent (c :: ((takeIdent cs).text ++ rest)) = _
    rw [takeIdent_cons hb, if_pos hc, ih htail hrest]
    · rfl
    · -- a bar that stood alone still does
      intro ds hbar hds
      have hhead := head?_of_exchange hrest (c := '|') (by decide) (takeIdent cs).text
        (by rw [hds]; rfl)
      have hcs : cs.head? = some '|' := by
        rw [← hhead]
        exact congrArg List.head? (all_takeIdent cs).symm
      obtain ⟨es, rfl⟩ := List.head?_eq_some_iff.1 hcs
      exact h₃ es hbar rfl
  | case6 c cs h₁ h₂ h₃ hc =>
    cases hrest with
    | bracket ds => exact takeIdent_bracket ds
    | alike _ hbar =>
      have hb := ne_backslash_of_alone h₁ h₂
      rw [List.nil_append, takeIdent_cons hb, if_neg hc]
      rintro _ rfl
      exact absurd rfl hc

/-- The text of a combinator holds no backslash. -/
theorem endsEscaping_takeCombinator (symbol : Bool) (cs : List Char) :
    endsEscaping (takeCombinator symbol cs).text = false := by
  fun_induction takeCombinator symbol cs with
  | case2 cs ih =>
    rw [Taken.after, List.cons_append, endsEscaping_cons (by decide), List.singleton_append,
      endsEscaping_cons (by decide), ih]
  | case4 _ c cs _ hc ih =>
    rw [Taken.after, List.singleton_append, endsEscaping_cons (ne_of_class hc (by decide)), ih]
  | case5 _ c cs _ _ hc ih =>
    rw [Taken.after, List.singleton_append, endsEscaping_cons _ _, ih]
    rintro rfl
    simp at hc
  | _ => rfl

theorem takeCombinator_bracket (symbol : Bool) (ds : List Char) :
    takeCombinator symbol ('[' :: ds) = ⟨[], '[' :: ds⟩ := by
  cases symbol <;> rfl

/-- A combinator is taken again. -/
theorem takeCombinator_again (symbol : Bool) (cs : List Char) {rest : List Char}
    (hrest : Exchange (takeCombinator symbol cs).rest rest) :
    takeCombinator symbol ((takeCombinator symbol cs).text ++ rest)
      = ⟨(takeCombinator symbol cs).text, rest⟩ := by
  fun_induction takeCombinator symbol cs with
  | case1 =>
    cases hrest
    exact takeCombinator_bracket _ _
  | case2 cs ih =>
    change takeCombinator true ('|' :: '|' :: ((takeCombinator false cs).text ++ rest)) = _
    rw [takeCombinator, if_pos rfl, ih hrest]
    rfl
  | case3 symbol cs hsymbol =>
    cases hrest with
    | bracket ds => exact takeCombinator_bracket _ ds
    | alike _ hbar =>
      obtain ⟨ds, rfl⟩ := List.head?_eq_some_iff.1 ((hbar rfl).1 rfl)
      rw [List.nil_append, takeCombinator, if_neg hsymbol]
  | case4 symbol c cs h₁ hc ih =>
    change takeCombinator symbol (c :: ((takeCombinator symbol cs).text ++ rest)) = _
    rw [takeCombinator, if_pos hc, ih hrest]
    · rfl
    · exact fun _ h => absurd h (ne_of_class hc (by decide))
  | case5 symbol c cs h₁ hblank hc ih =>
    change takeCombinator symbol (c :: ((takeCombinator false cs).text ++ rest)) = _
    rw [takeCombinator, if_neg hblank, if_pos hc, ih hrest]
    · rfl
    · rintro _ rfl
      simp at hc
  | case6 symbol c cs h₁ hblank hc =>
    cases hrest with
    | bracket ds => exact takeCombinator_bracket _ ds
    | alike _ hbar =>
      -- a bar that was left alone has no second bar behind it now either
      rw [List.nil_append, takeCombinator, if_neg hblank, if_neg hc]
      rintro ds rfl rfl
      obtain ⟨es, rfl⟩ := List.head?_eq_some_iff.1 ((hbar rfl).2 rfl)
      exact h₁ es rfl rfl

/-! ### Strings and groups -/

theorem map_after_eq_ok {x : Except ComponentFault Taken} {cs : List Char} {t : Taken}
    (h : x.map (.after cs) = .ok t) : ∃ u, x = .ok u ∧ t = u.after cs := by
  cases x with
  | error e => cases h
  | ok u => exact ⟨u, rfl, (Except.ok.inj h).symm⟩

theorem map_after_eq_error {x : Except ComponentFault Taken} {cs : List Char} {e : ComponentFault}
    (h : x.map (Taken.after cs) = .error e) : x = .error e := by
  cases x with
  | error e' => exact h
  | ok u => cases h

theorem takeString_cons {q c : Char} (hc : c ≠ '\\') (cs : List Char) :
    takeString q (c :: cs)
      = if c == q then .ok ⟨[c], cs⟩ else (takeString q cs).map (.after [c]) := by
  rw [takeString]
  exact fun _ _ h => absurd h hc

theorem takeString_backslash {q : Char} (hq : q ≠ '\\') :
    takeString q ['\\'] = .error .unterminatedString := by
  simp [takeString, hq.symm, Except.map]

/-- A reader that stops at a closing mark is self-contained, whatever follows. -/
theorem selfContained_of_closing {read : List Char → Except ComponentFault Taken}
    (h : ∀ {cs : List Char} {t : Taken}, read cs = .ok t →
      endsEscaping t.text = false ∧ ∀ rest, read (t.text ++ rest) = .ok ⟨t.text, rest⟩) :
    SelfContained [] read where
  escape ht _ := (h ht).1
  again ht _ _ _ := (h ht).2 _

/-- A string is taken again in front of any text. -/
theorem takeString_again {q : Char} (hq : q ≠ '\\') {cs : List Char} {t : Taken}
    (h : takeString q cs = .ok t) :
    endsEscaping t.text = false ∧ ∀ rest, takeString q (t.text ++ rest) = .ok ⟨t.text, rest⟩ := by
  -- the recursion of `endsEscaping` goes over an escape as a whole, as the reader does
  fun_induction endsEscaping cs generalizing t with
  | case1 => cases h
  | case2 =>
    rw [takeString_backslash hq] at h
    cases h
  | case3 c cs ih =>
    obtain ⟨u, hu, rfl⟩ := map_after_eq_ok h
    obtain ⟨hescape, hagain⟩ := ih hu
    refine ⟨hescape, fun rest => ?_⟩
    change takeString q ('\\' :: c :: (u.text ++ rest)) = _
    rw [takeString, hagain rest]
    rfl
  | case4 c cs h₁ h₂ ih =>
    have hc := ne_backslash_of_alone h₁ h₂
    rw [takeString_cons hc] at h
    split at h
    · next hclose =>
      obtain rfl := Except.ok.inj h
      refine ⟨endsEscaping_cons hc [], fun rest => ?_⟩
      rw [List.singleton_append, takeString_cons hc, if_pos hclose]
    · next hclose =>
      obtain ⟨u, hu, rfl⟩ := map_after_eq_ok h
      obtain ⟨hescape, hagain⟩ := ih hu
      refine ⟨(endsEscaping_cons hc u.text).trans hescape, fun rest => ?_⟩
      change takeString q (c :: (u.text ++ rest)) = _
      rw [takeString_cons hc, if_neg hclose, hagain rest]
      rfl

theorem selfContained_takeString {q : Char} (hq : q ≠ '\\') :
    SelfContained [] (takeString q) :=
  selfContained_of_closing (takeString_again hq)

/-- Where a group stands behind a character: the string that reading stands in and the number of
further open groups, or nothing if the character ends the group. -/
def groupStep (opening closing : Char) (quote : Option Char) (depth : Nat) (c : Char) :
    Option (Option Char × Nat) :=
  match quote with
  | some q => some (if c == q then none else some q, depth)
  | none =>
      if isQuote c then some (some c, depth)
      else if c == opening then some (none, depth + 1)
      else if c == closing then
        match depth with
        | 0 => none
        | d + 1 => some (none, d)
      else some (none, depth)

theorem takeGroup_cons {opening closing c : Char} {cs : List Char}
    (hesc : ∀ d ds, c = '\\' → cs = d :: ds → False) (quote : Option Char) (depth : Nat) :
    takeGroup opening closing quote depth (c :: cs)
      = (groupStep opening closing quote depth c).elim (.ok ⟨[c], cs⟩) fun st =>
        (takeGroup opening closing st.1 st.2 cs).map (.after [c]) := by
  cases quote with
  | some q =>
    rw [takeGroup.eq_2 _ _ _ _ _ _ hesc]
    rfl
  | none =>
    cases depth with
    | zero =>
      rw [takeGroup.eq_3 _ _ _ _ hesc, groupStep]
      repeat' split
      all_goals simp_all
    | succ d =>
      rw [takeGroup.eq_4 _ _ _ _ _ hesc, groupStep]
      repeat' split
      all_goals simp_all

/-- A group ends with its closing bracket. -/
theorem eq_closing_of_groupStep {opening closing c : Char} {quote : Option Char} {depth : Nat}
    (h : groupStep opening closing quote depth c = none) : c = closing := by
  unfold groupStep at h
  repeat' split at h
  all_goals simp_all

theorem takeGroup_backslash {opening closing : Char} (hclosing : closing ≠ '\\')
    (quote : Option Char) (depth : Nat) (t : Taken) :
    takeGroup opening closing quote depth ['\\'] ≠ .ok t := by
  rw [takeGroup_cons (by simp)]
  cases hstep : groupStep opening closing quote depth '\\' with
  | none => exact absurd (eq_closing_of_groupStep hstep).symm hclosing
  | some st =>
    rw [Option.elim_some]
    intro h
    obtain ⟨u, hu, -⟩ := map_after_eq_ok h
    cases hu

/-- A group is taken again in front of any text. -/
theorem takeGroup_again {opening closing : Char} (hclosing : closing ≠ '\\') {cs : List Char}
    {quote : Option Char} {depth : Nat} {t : Taken}
    (h : takeGroup opening closing quote depth cs = .ok t) :
    endsEscaping t.text = false ∧
      ∀ rest, takeGroup opening closing quote depth (t.text ++ rest) = .ok ⟨t.text, rest⟩ := by
  fun_induction endsEscaping cs generalizing quote depth t with
  | case1 => cases h
  | case2 => exact absurd h (takeGroup_backslash hclosing quote depth t)
  | case3 c cs ih =>
    rw [takeGroup] at h
    obtain ⟨u, hu, rfl⟩ := map_after_eq_ok h
    obtain ⟨hescape, hagain⟩ := ih hu
    refine ⟨hescape, fun rest => ?_⟩
    change takeGroup opening closing quote depth ('\\' :: c :: (u.text ++ rest)) = _
    rw [takeGroup, hagain rest]
    rfl
  | case4 c cs h₁ h₂ ih =>
    have hc := ne_backslash_of_alone h₁ h₂
    rw [takeGroup_cons h₂] at h
    -- a character ends the group or takes it to another standpoint, with or without a text behind
    cases hstep : groupStep opening closing quote depth c with
    | none =>
      rw [hstep] at h
      obtain rfl := Except.ok.inj h
      refine ⟨endsEscaping_cons hc [], fun rest => ?_⟩
      rw [List.singleton_append, takeGroup_cons (fun _ _ h => absurd h hc), hstep]
      rfl
    | some st =>
      rw [hstep] at h
      obtain ⟨u, hu, rfl⟩ := map_after_eq_ok h
      obtain ⟨hescape, hagain⟩ := ih hu
      refine ⟨(endsEscaping_cons hc u.text).trans hescape, fun rest => ?_⟩
      change takeGroup opening closing quote depth (c :: (u.text ++ rest)) = _
      rw [takeGroup_cons (fun _ _ h => absurd h hc), hstep, Option.elim_some, hagain rest]
      rfl

theorem selfContained_takeGroup {opening closing : Char} (hclosing : closing ≠ '\\') :
    SelfContained [] (takeGroup opening closing none 0) :=
  selfContained_of_closing (takeGroup_again hclosing)

/-! ### Pseudo components -/

theorem takeArguments_of_head? {cs : List Char} (h : cs.head? ≠ some '(') :
    takeArguments cs = .ok ⟨[], cs⟩ := by
  rw [takeArguments]
  rintro ds rfl
  exact h rfl

theorem takeCall_of_ok {cs : List Char} {t u : Taken} (ht : takeIdent cs = t)
    (hu : takeArguments t.rest = .ok u) : takeCall cs = .ok (u.after t.text) := by
  rw [takeCall, ht, hu]
  rfl

theorem selfContained_takeCall : SelfContained [] takeCall := by
  have hgroup : SelfContained [] (takeGroup '(' ')' none 0) := selfContained_takeGroup (by decide)
  constructor
  · intro cs t h hne
    obtain ⟨u, hu, rfl⟩ := map_after_eq_ok h
    have hident : (takeIdent cs).rest ≠ [] := by
      intro hnil
      rw [hnil] at hu
      obtain rfl := Except.ok.inj hu
      exact hne rfl
    refine (endsEscaping_append (endsEscaping_takeIdent cs hident) u.text).trans ?_
    unfold takeArguments at hu
    split at hu
    · obtain ⟨v, hv, rfl⟩ := map_after_eq_ok hu
      exact (endsEscaping_cons (by decide) v.text).trans (hgroup.escape hv hne)
    · obtain rfl := Except.ok.inj hu
      rfl
  · intro cs t h hescape rest hrest
    obtain ⟨u, hu, rfl⟩ := map_after_eq_ok h
    have htext : (u.after (takeIdent cs).text).text ++ rest
        = (takeIdent cs).text ++ (u.text ++ rest) := List.append_assoc ..
    rw [htext]
    by_cases hopen : (takeIdent cs).rest.head? = some '('
    · -- the name is followed by the same bracket, and the group by another text
      obtain ⟨ds, hds⟩ := List.head?_eq_some_iff.1 hopen
      rw [hds] at hu
      obtain ⟨v, hv, rfl⟩ := map_after_eq_ok hu
      have hident := endsEscaping_takeIdent cs (by simp [hds])
      have hinside : endsEscaping v.text = false := by
        rw [← endsEscaping_cons (c := '(') (by decide), ← endsEscaping_append hident]
        exact hescape
      have hsame : Exchange (takeIdent cs).rest ('(' :: (v.text ++ rest)) := by
        rw [hds]
        exact .alike '(' (by simp)
      have hname := takeIdent_again cs hident hsame
      have hargs : takeArguments ('(' :: (v.text ++ rest)) = .ok ⟨'(' :: v.text, rest⟩ := by
        rw [takeArguments, hgroup.again hv hinside hrest]
        rfl
      exact takeCall_of_ok hname hargs
    · rw [takeArguments_of_head? hopen] at hu
      obtain rfl := Except.ok.inj hu
      have hname := takeIdent_again cs (by simpa [Taken.after] using hescape) hrest
      have hargs : takeArguments rest = .ok ⟨[], rest⟩ :=
        takeArguments_of_head? fun h => hopen (head?_of_exchange hrest (by decide) [] h)
      exact takeCall_of_ok hname hargs

theorem takePseudo_of_head? {cs : List Char} (h : cs.head? ≠ some ':') :
    takePseudo cs = takeCall cs := by
  rw [takePseudo]
  rintro ds rfl
  exact h rfl

theorem selfContained_takePseudo : SelfContained [] takePseudo := by
  constructor
  · intro cs t h hne
    unfold takePseudo at h
    split at h
    · obtain ⟨u, hu, rfl⟩ := map_after_eq_ok h
      exact (endsEscaping_cons (by decide) u.text).trans (selfContained_takeCall.escape hu hne)
    · exact selfContained_takeCall.escape h hne
  · intro cs t h hescape rest hrest
    by_cases hcolon : cs.head? = some ':'
    · obtain ⟨ds, rfl⟩ := List.head?_eq_some_iff.1 hcolon
      obtain ⟨u, hu, rfl⟩ := map_after_eq_ok h
      have hinside : endsEscaping u.text = false := by
        rw [← endsEscaping_cons (c := ':') (by decide)]
        exact hescape
      change (takeCall (u.text ++ rest)).map (Taken.after [':']) = _
      rw [selfContained_takeCall.again hu hinside hrest]
      rfl
    · -- a second colon cannot come from what follows either
      rw [takePseudo_of_head? hcolon] at h
      rw [takePseudo_of_head?]
      · exact selfContained_takeCall.again h hescape hrest
      · intro hhead
        apply hcolon
        rw [← all_of_takeCall h]
        exact head?_of_exchange hrest (by decide) t.text hhead

/-! ### Components -/

theorem SelfContained.behind {read : List Char → Except ComponentFault Taken}
    (h : SelfContained [] read) {c : Char} (hc : c ≠ '\\') : SelfContained [c] read := by
  constructor
  · intro cs t ht hne
    exact (endsEscaping_cons hc t.text).trans (h.escape ht hne)
  · intro cs t ht hescape rest hrest
    exact h.again ht ((endsEscaping_cons hc t.text).symm.trans hescape) hrest

theorem selfContained_takeIdent : SelfContained [] fun cs => .ok (takeIdent cs) := by
  constructor
  · rintro cs t ⟨⟩ hne
    exact endsEscaping_takeIdent cs hne
  · rintro cs t ⟨⟩ hescape rest hrest
    exact congrArg Except.ok (takeIdent_again cs hescape hrest)

theorem selfContained_none {c : Char} (hc : c ≠ '\\') :
    SelfContained [c] fun cs => .ok ⟨[], cs⟩ := by
  constructor
  · rintro cs t ⟨⟩ -
    exact endsEscaping_cons hc []
  · rintro cs t ⟨⟩ - rest -
    rfl

theorem selfContained_error (front : List Char) (e : ComponentFault) :
    SelfContained front fun _ => .error e := by
  constructor
  · rintro cs t ⟨⟩
  · rintro cs t ⟨⟩

theorem takeName_of_ne {c : Char} (hc : c ≠ '\\') (cs : List Char) :
    takeName c cs = if c == '|' || isIdentChar c then takeIdent cs else ⟨[], cs⟩ := by
  rw [takeName]
  · exact fun _ _ h => absurd h hc
  · exact fun h => absurd h hc

/-- The first character of a component belongs to its name, or it is a component of its own. -/
theorem takeIdent_eq_takeName {c : Char} {cs : List Char} (h : startsCombinator c cs = false) :
    takeIdent (c :: cs) = (takeName c cs).after [c] ∨
      takeIdent (c :: cs) = ⟨[], c :: cs⟩ ∧ takeName c cs = ⟨[], cs⟩ := by
  by_cases hc : c = '\\'
  · subst hc
    cases cs with
    | nil => exact .inl rfl
    | cons d ds => exact .inl rfl
  · have hbar : ∀ ds, c = '|' → cs = '|' :: ds → False := by
      rintro ds rfl rfl
      cases h
    rw [takeIdent_cons hc hbar, takeName_of_ne hc]
    split
    · exact .inl rfl
    · exact .inr ⟨rfl, rfl⟩

theorem selfContained_takeName (c : Char) : SelfContained [c] fun cs => .ok (takeName c cs) := by
  by_cases hb : c = '\\'
  · subst hb
    constructor
    · rintro (_ | ⟨d, cs⟩) t ⟨⟩ hne
      · exact absurd rfl hne
      · exact endsEscaping_takeIdent cs hne
    · rintro (_ | ⟨d, cs⟩) t ⟨⟩ hescape rest hrest
      · cases hescape
      · change Except.ok ((takeIdent ((takeIdent cs).text ++ rest)).after [d]) = _
        rw [takeIdent_again cs hescape hrest]
        rfl
  · have hname : (fun cs => Except.ok (takeName c cs)) = fun cs =>
        if c == '|' || isIdentChar c then (.ok (takeIdent cs) : Except ComponentFault Taken)
        else .ok ⟨[], cs⟩ := by
      funext cs
      rw [takeName_of_ne hb]
      split <;> rfl
    rw [hname]
    split
    · exact selfContained_takeIdent.behind hb
    · exact selfContained_none hb

/-- A component that is no combinator is self-contained. -/
theorem selfContained_componentReader (c : Char) : SelfContained [c] (componentReader c).2 := by
  have hne : ∀ {d : Char}, (c == d) = true → d ≠ '\\' → c ≠ '\\' := by
    rintro d hd hne rfl
    exact hne (by simpa using hd : '\\' = d).symm
  unfold componentReader
  split
  · next h => exact (selfContained_takeGroup (by decide)).behind (hne h (by decide))
  split
  · next h => exact (selfContained_takeGroup (by decide)).behind (hne h (by decide))
  split
  · exact selfContained_error _ _
  split
  · exact selfContained_error _ _
  split
  · next h =>
    have hc := ne_backslash_of_isQuote h
    exact (selfContained_takeString hc).behind hc
  split
  · next h => exact selfContained_takePseudo.behind (hne h (by decide))
  split
  · next h =>
    refine selfContained_takeIdent.behind ?_
    rintro rfl
    simp at h
  split
  · next h =>
    refine selfContained_none ?_
    rintro rfl
    simp at h
  · exact selfContained_takeName c

theorem startsCombinator_iff {c : Char} {cs : List Char} :
    startsCombinator c cs = true ↔
      (isPlainBlank c = true ∨ c = '>' ∨ c = '+' ∨ c = '~') ∨ c = '|' ∧ cs.head? = some '|' := by
  simp [startsCombinator, or_assoc]

theorem takeJoin_of_ne {c : Char} (hc : c ≠ '|') (cs : List Char) :
    takeJoin c cs = takeCombinator (isPlainBlank c) cs := by
  rw [takeJoin]
  exact fun _ _ h => absurd h hc

/-- A combinator is what the reader of blanks and a symbol takes from its first character on. -/
theorem takeCombinator_join {c : Char} {cs : List Char} (h : startsCombinator c cs = true) :
    takeCombinator true (c :: cs) = (takeJoin c cs).after [c] := by
  rcases startsCombinator_iff.1 h with (hblank | rfl | rfl | rfl) | ⟨rfl, hbar⟩
  · have hc : c ≠ '|' := by
      rintro rfl
      cases hblank
    rw [takeJoin_of_ne hc, takeCombinator, if_pos hblank, hblank]
    exact fun _ h => absurd h hc
  · rfl
  · rfl
  · rfl
  · obtain ⟨ds, rfl⟩ := List.head?_eq_some_iff.1 hbar
    rfl

/-- A combinator is taken again behind its first character. -/
theorem takeJoin_again {c : Char} {cs : List Char} (h : startsCombinator c cs = true)
    {rest : List Char} (hrest : Exchange (takeJoin c cs).rest rest) :
    startsCombinator c ((takeJoin c cs).text ++ rest) = true ∧
      takeJoin c ((takeJoin c cs).text ++ rest) = ⟨(takeJoin c cs).text, rest⟩ := by
  rcases startsCombinator_iff.1 h with hc | ⟨rfl, hbar⟩
  · have hne : c ≠ '|' := by
      rintro rfl
      simp [isPlainBlank] at hc
    rw [takeJoin_of_ne hne] at hrest ⊢
    rw [takeJoin_of_ne hne]
    exact ⟨startsCombinator_iff.2 (.inl hc), takeCombinator_again _ _ hrest⟩
  · obtain ⟨ds, rfl⟩ := List.head?_eq_some_iff.1 hbar
    refine ⟨rfl, ?_⟩
    change (takeCombinator false ((takeCombinator false ds).text ++ rest)).after ['|'] = _
    rw [takeCombinator_again false ds hrest]
    rfl

theorem endsEscaping_takeJoin {c : Char} {cs : List Char} (h : startsCombinator c cs = true) :
    endsEscaping (c :: (takeJoin c cs).text) = false := by
  have hc : c ≠ '\\' := by
    rintro rfl
    simp [startsCombinator, isPlainBlank] at h
  rw [endsEscaping_cons hc]
  unfold takeJoin
  split
  · next d ds =>
    obtain rfl : d = '|' := by simpa [startsCombinator, isPlainBlank] using h
    exact (endsEscaping_cons (by decide) _).trans (endsEscaping_takeCombinator false ds)
  · exact endsEscaping_takeCombinator _ _

/-- Only at the end of the whole text may a component end with a backslash that escapes nothing. -/
theorem endsEscaping_takeComponent {c : Char} {cs : List Char} {t : Taken}
    (h : (takeComponent c cs).2 = .ok t) (hne : t.rest ≠ []) :
    endsEscaping (c :: t.text) = false := by
  cases hstart : startsCombinator c cs with
  | true =>
    rw [takeComponent_of_combinator hstart] at h
    obtain rfl := Except.ok.inj h
    exact endsEscaping_takeJoin hstart
  | false =>
    rw [takeComponent_of_reader hstart] at h
    exact (selfContained_componentReader c).escape h hne

/-- A component is taken again when another text follows it. -/
theorem takeComponent_again {c : Char} {cs : List Char} {t : Taken}
    (h : (takeComponent c cs).2 = .ok t) (hescape : endsEscaping (c :: t.text) = false)
    {rest : List Char} (hrest : Exchange t.rest rest) :
    takeComponent c (t.text ++ rest) = ((takeComponent c cs).1, .ok ⟨t.text, rest⟩) := by
  have hall := all_of_takeComponent h
  cases hstart : startsCombinator c cs with
  | true =>
    rw [takeComponent_of_combinator hstart] at h ⊢
    obtain rfl := Except.ok.inj h
    obtain ⟨hstart', hjoin⟩ := takeJoin_again hstart hrest
    rw [takeComponent_of_combinator hstart', hjoin]
  | false =>
    -- a bar with no second one behind it gets none
    have hstart' : startsCombinator c (t.text ++ rest) = false := by
      by_contra hcomb
      rw [Bool.not_eq_false, startsCombinator_iff] at hcomb
      refine absurd ?_ (Bool.eq_false_iff.1 hstart)
      refine startsCombinator_iff.2 (hcomb.imp_right fun hbar => ⟨hbar.1, ?_⟩)
      rw [← hall]
      exact head?_of_exchange hrest (by decide) t.text hbar.2
    rw [takeComponent_of_reader hstart] at h ⊢
    rw [takeComponent_of_reader hstart', (selfContained_componentReader c).again h hescape hrest]

/-- Components stay what they are when an opening bracket follows them. -/
theorem components_exchange {ks ls : List Component}
    (h : components (Component.textAll ks ++ Component.textAll ls) = .ok (ks ++ ls))
    (hbar : (Component.textAll ls).head? ≠ some '|')
    (hescape : endsEscaping (Component.textAll ks ++ Component.textAll ls) = false)
    (ds : List Char) :
    components (Component.textAll ks ++ '[' :: ds)
      = (components ('[' :: ds)).map (ks ++ ·) := by
  induction ks with
  | nil => cases hds : components ('[' :: ds) <;> simp [hds, Except.map]
  | cons k ks ih =>
    cases hall : Component.textAll (k :: ks) ++ Component.textAll ls with
    | nil =>
      rw [hall] at h
      simp [components] at h
    | cons c cs =>
      rw [hall] at h
      obtain ⟨t, ls', ht, hrest, hks⟩ := components_cons_eq_ok h
      rw [List.cons_append] at hks
      obtain ⟨rfl, rfl⟩ := List.cons.inj hks
      have htail := textAll_components hrest
      rw [textAll_append] at htail
      -- what follows the first component starts as before, or with the bracket
      have hexchange : Exchange t.rest (Component.textAll ks ++ '[' :: ds) := by
        rw [← htail]
        exact exchange_append _ hbar ds
      have hfirst : endsEscaping (c :: t.text) = false := by
        by_cases hnil : t.rest = []
        · rwa [textAll_cons, List.append_assoc, htail, hnil, List.append_nil] at hescape
        · exact endsEscaping_takeComponent ht hnil
      rw [textAll_cons, List.append_assoc, endsEscaping_append hfirst] at hescape
      have hagain := components_cons (takeComponent_again ht hfirst hexchange)
      rw [ih (htail ▸ hrest) hescape] at hagain
      rw [textAll_cons, List.append_assoc, List.cons_append, hagain]
      cases components ('[' :: ds) <;> rfl

end ComponentCompiler.Style
