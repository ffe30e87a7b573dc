import ComponentCompiler.Proofs.Component.Split

/-!
# The text of a tag

What an opening tag is read from.  The tag ends at an angle bracket, and what stands in front of it
is read alike whatever follows (`TagText.reads`).  A bracket stands inside a tag only in the value
of an attribute, and a slash stands in front of the last bracket only where the tag has no content
or where the last value has no quotes and ends with it.

## Main definitions

* `Shows text value` — the brackets and the last slash of a text are those of the value in it.
* `ReadsFrom read cs value rest text` — the text that a value is read from.
* `TagText t inside` — the tag `t` is read from its name, the text `inside` and a bracket.

## Main results

* `exists_tagText` — every tag that is read is read from such a text.
* `span_of_afterName?` — a name that stands in front of a delimiter is the name of the tag.
-/

namespace ComponentCompiler

open Text (isPlainBlank)

/-! ### Attributes -/

/-- Where a run ends, another text may follow that starts alike. -/
theorem span_exchange (p : Char → Bool) {cs more : List Char}
    (h : more.head? = (cs.dropWhile p).head?) :
    (cs.takeWhile p ++ more).takeWhile p = cs.takeWhile p ∧
      (cs.takeWhile p ++ more).dropWhile p = more := by
  apply span_append
  · exact List.all_eq_true.1 List.all_takeWhile
  · intro c hc
    have hnot := List.head?_dropWhile_not p cs
    rwa [← h, hc] at hnot

theorem head?_append_of_head?_eq {rest more : List Char} (h : more.head? = rest.head?)
    (text : List Char) : (text ++ more).head? = (text ++ rest).head? := by
  cases text with
  | nil => exact h
  | cons c text => rfl

theorem cutAt?_eq_some {stop : Char} {cs t r : List Char} (h : cutAt? stop cs = some (t, r)) :
    cs = t ++ stop :: r ∧ stop ∉ t := by
  induction cs generalizing t with
  | nil => cases h
  | cons c cs ih =>
    rw [cutAt?] at h
    split at h
    · next hc =>
      obtain ⟨rfl, rfl⟩ := Prod.mk.inj (Option.some.inj h)
      rw [eq_of_beq hc]
      exact ⟨rfl, List.not_mem_nil⟩
    · next hc =>
      obtain ⟨⟨t', r'⟩, hcut, heq⟩ := Option.map_eq_some_iff.1 h
      obtain ⟨rfl, rfl⟩ := Prod.mk.inj heq
      obtain ⟨rfl, hnot⟩ := ih hcut
      refine ⟨rfl, fun hmem => ?_⟩
      rcases List.mem_cons.1 hmem with rfl | hmem
      · exact hc (beq_self_eq_true _)
      · exact hnot hmem

theorem cutAt?_eq_none_iff {stop : Char} {cs : List Char} : cutAt? stop cs = none ↔ stop ∉ cs := by
  constructor
  · intro h hmem
    obtain ⟨front, back, rfl, hfront⟩ := List.eq_append_cons_of_mem hmem
    rw [cutAt?_append hfront] at h
    cases h
  · intro h
    cases hcut : cutAt? stop cs with
    | none => rfl
    | some tr =>
      rw [(cutAt?_eq_some hcut).1] at h
      exact absurd (List.mem_append_right _ List.mem_cons_self) h

/-- The brackets in a text are those in the value that is read from it, and so is a slash at its
end. -/
structure Shows (text value : List Char) : Prop where
  bracket : '>' ∈ text ↔ '>' ∈ value
  slash : text.getLast? = some '/' → value.getLast? = some '/' ∧ value <:+ text

theorem shows_nil : Shows [] [] := ⟨Iff.rfl, fun h => by cases h⟩

/-- Other characters in front change nothing. -/
theorem Shows.behind {text value : List Char} (h : Shows text value) (front : List Char)
    (hbracket : '>' ∉ front) (hslash : '/' ∉ front) : Shows (front ++ text) value where
  bracket := by simp [hbracket, h.bracket]
  slash hlast := by
    rw [List.getLast?_append] at hlast
    cases htext : text.getLast? with
    | none =>
      rw [htext, Option.none_or] at hlast
      exact absurd (List.mem_of_getLast? hlast) hslash
    | some c =>
      rw [htext, Option.some_or] at hlast
      obtain ⟨hvalue, hsuffix⟩ := h.slash (htext.trans hlast)
      exact ⟨hvalue, hsuffix.trans (List.suffix_append _ _)⟩

/-- The text in front of `rest` is what `read` takes a value from, also where another text follows
that starts alike. -/
structure ReadsFrom (read : List Char → Option (List Char × List Char))
    (cs value rest text : List Char) : Prop where
  eq_append : cs = text ++ rest
  again : ∀ more : List Char, more.head? = rest.head? → read (text ++ more) = some (value, more)
  shows : Shows text value

/-- The characters of a value without quotes. -/
def isBareChar (c : Char) : Bool := !(c == '>' || isPlainBlank c)

theorem attributeText?_bare {cs : List Char} (hdouble : cs.head? ≠ some '"')
    (hsingle : cs.head? ≠ some '\'') :
    attributeText? cs = some (cs.takeWhile isBareChar, cs.dropWhile isBareChar) := by
  unfold attributeText?
  split
  · exact absurd rfl hdouble
  · exact absurd rfl hsingle
  · rfl

theorem readsFrom_quoted {q : Char} (hq : q = '"' ∨ q = '\'') {value : List Char}
    (hfree : q ∉ value) (rest : List Char) :
    ReadsFrom attributeText? (q :: (value ++ q :: rest)) value rest (q :: value ++ [q]) where
  eq_append := by simp
  again more _ := by
    have hcut := cutAt?_append hfree more
    rcases hq with rfl | rfl <;> simpa [attributeText?] using hcut
  shows := by
    constructor
    · rcases hq with rfl | rfl <;> simp
    · intro hlast
      rw [List.getLast?_concat] at hlast
      rcases hq with rfl | rfl <;> cases hlast

/-- The text of a value: in quotes, or the value itself. -/
theorem exists_readsFrom_text {cs value rest : List Char}
    (h : attributeText? cs = some (value, rest)) :
    ∃ text, ReadsFrom attributeText? cs value rest text := by
  by_cases hdouble : cs.head? = some '"'
  · obtain ⟨r, rfl⟩ := List.head?_eq_some_iff.1 hdouble
    obtain ⟨rfl, hfree⟩ := cutAt?_eq_some h
    exact ⟨_, readsFrom_quoted (.inl rfl) hfree rest⟩
  by_cases hsingle : cs.head? = some '\''
  · obtain ⟨r, rfl⟩ := List.head?_eq_some_iff.1 hsingle
    obtain ⟨rfl, hfree⟩ := cutAt?_eq_some h
    exact ⟨_, readsFrom_quoted (.inr rfl) hfree rest⟩
  · rw [attributeText?_bare hdouble hsingle] at h
    obtain ⟨rfl, rfl⟩ := Prod.mk.inj (Option.some.inj h)
    refine ⟨_, List.takeWhile_append_dropWhile.symm, fun more hmore => ?_,
      Iff.rfl, fun hlast => ⟨hlast, List.suffix_rfl⟩⟩
    have hhead := head?_append_of_head?_eq hmore (cs.takeWhile isBareChar)
    rw [List.takeWhile_append_dropWhile] at hhead
    obtain ⟨htake, hdrop⟩ := span_exchange isBareChar hmore
    rw [attributeText?_bare (hhead ▸ hdouble) (hhead ▸ hsingle), htake, hdrop]

theorem not_mem_takeWhile {p : Char → Bool} {c : Char} (hc : p c = false) (cs : List Char) :
    c ∉ cs.takeWhile p := by
  intro hmem
  have := List.all_eq_true.1 List.all_takeWhile c hmem
  rw [hc] at this
  cases this

/-- What a reader passes over in front belongs to the text. -/
theorem ReadsFrom.behind {read : List Char → Option (List Char × List Char)}
    {cs value rest text : List Char} {p : Char → Bool}
    (h : ReadsFrom read (cs.dropWhile p) value rest text) (hbracket : p '>' = false)
    (hslash : p '/' = false) :
    ReadsFrom (fun ds => read (ds.dropWhile p)) cs value rest (cs.takeWhile p ++ text) where
  eq_append := by rw [List.append_assoc, ← h.eq_append, List.takeWhile_append_dropWhile]
  again more hmore := by
    have hhead := head?_append_of_head?_eq hmore text
    rw [← h.eq_append] at hhead
    rw [List.append_assoc, (span_exchange p hhead).2, h.again more hmore]
  shows := h.shows.behind _ (not_mem_takeWhile hbracket cs) (not_mem_takeWhile hslash cs)

/-- The text of a value behind the sign in front of it. -/
theorem exists_readsFrom_sign {cs value rest : List Char}
    (h : attributeValue? ('=' :: cs) = some (value, rest)) :
    ∃ text, ReadsFrom (fun ds => attributeValue? ('=' :: ds)) cs value rest text := by
  obtain ⟨text, htext⟩ := exists_readsFrom_text h
  exact ⟨_, htext.behind rfl rfl⟩

/-- The text of a value with the sign in front, if there is one. -/
theorem exists_readsFrom_value {cs value rest : List Char}
    (h : attributeValue? cs = some (value, rest)) :
    ∃ text, ReadsFrom attributeValue? cs value rest text := by
  by_cases hsign : cs.head? = some '='
  · obtain ⟨r, rfl⟩ := List.head?_eq_some_iff.1 hsign
    obtain ⟨text, htext⟩ := exists_readsFrom_sign h
    refine ⟨'=' :: text, ?_, htext.again, ?_⟩
    · rw [List.cons_append, ← htext.eq_append]
    · exact htext.shows.behind ['='] (by decide) (by decide)
  · have hnone : ∀ ds : List Char, ds.head? = cs.head? → attributeValue? ds = some ([], ds) := by
      intro ds hds
      unfold attributeValue?
      split
      · exact absurd hds.symm hsign
      · rfl
    rw [hnone cs rfl] at h
    obtain ⟨rfl, rfl⟩ := Prod.mk.inj (Option.some.inj h)
    exact ⟨[], rfl, hnone, shows_nil⟩

/-- The text of an attribute behind its first character. -/
theorem exists_attributeText {c : Char} {cs rest : List Char} {a : List Char × List Char}
    (h : attribute? c cs = some (a, rest)) (hbracket : c ≠ '>') (hslash : c ≠ '/') :
    ∃ text, cs = text ++ rest ∧ Shows (c :: text) a.2 ∧
      ∀ more : List Char, more.head? = rest.head? →
        attribute? c (text ++ more) = some (a, more) := by
  have hfront : '>' ∉ [c] ∧ '/' ∉ [c] := by
    simpa using ⟨hbracket.symm, hslash.symm⟩
  by_cases hsign : c = '='
  · subst hsign
    obtain ⟨⟨value, r⟩, hvalue, heq⟩ := Option.map_eq_some_iff.1 h
    obtain ⟨rfl, rfl⟩ := Prod.mk.inj heq
    obtain ⟨text, htext⟩ := exists_readsFrom_sign hvalue
    refine ⟨text, htext.eq_append, htext.shows.behind ['='] hfront.1 hfront.2, ?_⟩
    intro more hmore
    exact Option.map_eq_some_iff.2 ⟨_, htext.again more hmore, rfl⟩
  · have hunfold : ∀ ds, attribute? c ds
        = (attributeValue? ((ds.dropWhile isAttributeChar).dropWhile isGap)).map fun p =>
          ((c :: ds.takeWhile isAttributeChar, p.1), p.2) :=
      fun ds => if_neg (by simpa using hsign)
    rw [hunfold] at h
    obtain ⟨⟨value, r⟩, hvalue, heq⟩ := Option.map_eq_some_iff.1 h
    obtain ⟨rfl, rfl⟩ := Prod.mk.inj heq
    obtain ⟨text, htext⟩ := exists_readsFrom_value hvalue
    have hgap := htext.behind rfl rfl
    have hname := hgap.behind rfl rfl
    refine ⟨_, hname.eq_append, hname.shows.behind [c] hfront.1 hfront.2, ?_⟩
    intro more hmore
    -- the name ends where it ended before
    have hhead := head?_append_of_head?_eq hmore
      ((cs.dropWhile isAttributeChar).takeWhile isGap ++ text)
    rw [← hgap.eq_append] at hhead
    rw [hunfold, hname.again more hmore, List.append_assoc, (span_exchange _ hhead).1]
    rfl

/-! ### Tags -/

/-- A tag is read from its name, a text and a bracket, whatever stands behind it.  Brackets in the
text belong to values; a slash ends it if the tag has no content, or if it ends the last value and
that value stands without quotes. -/
structure TagText (t : OpenTag) (inside : List Char) : Prop where
  reads : ∀ more : List Char,
    openTag? (t.name ++ (inside ++ '>' :: more)) = some { t with rest := more }
  bracket : '>' ∈ inside ↔ ∃ a ∈ t.attributes, '>' ∈ a.2
  slash : inside.getLast? = some '/' ↔ t.selfClosing = true ∨
    ∃ a ∈ t.attributes.getLast?, a.2.getLast? = some '/' ∧ a.2 <:+ inside

/-- The attributes of a tag are read from a text and the bracket behind it. -/
structure AttributesText (name : List Char) (before behind : List (List Char × List Char))
    (selfClosing : Bool) (inside : List Char) : Prop where
  reads : ∀ more : List Char, readAttributes name before (inside ++ '>' :: more)
    = some ⟨name, before ++ behind, selfClosing, more⟩
  bracket : '>' ∈ inside ↔ ∃ a ∈ behind, '>' ∈ a.2
  slash : inside.getLast? = some '/' → selfClosing = true ∨
    ∃ a ∈ behind.getLast?, a.2.getLast? = some '/' ∧ a.2 <:+ inside
  closes : selfClosing = true → inside.getLast? = some '/'

/-- Attributes in front are read from a text in front. -/
theorem AttributesText.behind {name inside : List Char}
    {before as behind : List (List Char × List Char)} {selfClosing : Bool}
    (h : AttributesText name (before ++ as) behind selfClosing inside) (front : List Char)
    (hreads : ∀ more, readAttributes name before (front ++ (inside ++ '>' :: more))
      = readAttributes name (before ++ as) (inside ++ '>' :: more))
    (hbracket : '>' ∈ front ↔ ∃ a ∈ as, '>' ∈ a.2)
    (hslash : inside = [] → front.getLast? = some '/' →
      ∃ a ∈ (as ++ behind).getLast?, a.2.getLast? = some '/' ∧ a.2 <:+ front) :
    AttributesText name before (as ++ behind) selfClosing (front ++ inside) where
  reads more := by
    rw [List.append_assoc, hreads, h.reads, List.append_assoc]
  bracket := by
    simp only [List.mem_append, hbracket, h.bracket, or_and_right, exists_or]
  slash hlast := by
    rw [List.getLast?_append] at hlast
    cases hinside : inside.getLast? with
    | none =>
      obtain rfl := List.getLast?_eq_none_iff.1 hinside
      rw [hinside, Option.none_or] at hlast
      rw [List.append_nil]
      exact .inr (hslash rfl hlast)
    | some c =>
      rw [hinside, Option.some_or] at hlast
      rcases h.slash (hinside.trans hlast) with hself | ⟨a, ha, hvalue, hsuffix⟩
      · exact .inl hself
      · refine .inr ⟨a, ?_, hvalue, hsuffix.trans (List.suffix_append _ _)⟩
        rw [List.getLast?_append, ha, Option.some_or]
        rfl
  closes hself := by rw [List.getLast?_append, h.closes hself, Option.some_or]

/-- What ends a tag is read where it stands behind blanks. -/
theorem attributesText_blanks {name blanks : List Char} {before : List (List Char × List Char)}
    (hblanks : ∀ c ∈ blanks, isPlainBlank c = true) (selfClosing : Bool) :
    AttributesText name before [] selfClosing (blanks ++ if selfClosing then ['/'] else []) where
  reads more := by
    have hdrop : (blanks ++ (if selfClosing then ['/'] else []) ++ '>' :: more).dropWhile
        isPlainBlank = tagEnd selfClosing ++ more := by
      rw [List.append_assoc, List.dropWhile_append_of_pos hblanks]
      cases selfClosing <;> rfl
    rw [readAttributes_tagEnd hdrop, List.append_nil]
  bracket := by
    have hfree : '>' ∉ blanks := fun hmem => Bool.false_ne_true (hblanks _ hmem)
    cases selfClosing <;> simp [hfree]
  slash hlast := by
    cases selfClosing with
    | false =>
      rw [if_neg Bool.false_ne_true, List.append_nil] at hlast
      exact absurd (hblanks _ (List.mem_of_getLast? hlast)) (by decide)
    | true => exact .inl rfl
  closes hself := by rw [hself, if_pos rfl, List.getLast?_concat]

theorem eq_nil_of_attributesText {name : List Char} {before behind : List (List Char × List Char)}
    {selfClosing : Bool} (h : AttributesText name before behind selfClosing []) : behind = [] := by
  have hend : readAttributes name before ['>'] = some ⟨name, before, false, []⟩ :=
    readAttributes_tagEnd rfl
  have hattributes := congrArg OpenTag.attributes (Option.some.inj (hend.symm.trans (h.reads [])))
  exact List.self_eq_append_right.1 hattributes

section Front

variable {name blanks inside : List Char} {before behind : List (List Char × List Char)}
  {selfClosing : Bool}

/-- A slash inside a tag is passed over. -/
theorem AttributesText.slashed (h : AttributesText name before behind selfClosing inside)
    (hblanks : ∀ c ∈ blanks, isPlainBlank c = true)
    (hinside : ∀ more : List Char, (inside ++ '>' :: more).head? ≠ some '>') :
    AttributesText name before behind selfClosing (blanks ++ ['/'] ++ inside) := by
  have h' : AttributesText name (before ++ []) behind selfClosing inside := by
    rwa [List.append_nil]
  refine h'.behind (blanks ++ ['/']) (fun more => ?_) ?_ ?_
  · have hdrop : (blanks ++ ['/'] ++ (inside ++ '>' :: more)).dropWhile isPlainBlank
        = '/' :: (inside ++ '>' :: more) := by
      rw [List.append_assoc, List.dropWhile_append_of_pos hblanks]
      rfl
    rw [readAttributes_slash hdrop (hinside more), List.append_nil]
  · have hfree : '>' ∉ blanks := fun hmem => Bool.false_ne_true (hblanks _ hmem)
    simp [hfree]
  · rintro rfl
    exact absurd rfl (hinside [])

/-- An attribute is read in front of further ones. -/
theorem AttributesText.attribute {a : List Char × List Char} {c : Char} {text : List Char}
    (h : AttributesText name (before ++ [a]) behind selfClosing inside)
    (hblanks : ∀ d ∈ blanks, isPlainBlank d = true) (hblank : isPlainBlank c = false)
    (hbracket : c ≠ '>') (hslash : c ≠ '/') (hshows : Shows (c :: text) a.2)
    (hread : ∀ more : List Char,
      attribute? c (text ++ (inside ++ '>' :: more)) = some (a, inside ++ '>' :: more)) :
    AttributesText name before (a :: behind) selfClosing (blanks ++ c :: text ++ inside) := by
  have hfront : Shows (blanks ++ c :: text) a.2 :=
    hshows.behind blanks (fun hmem => Bool.false_ne_true (hblanks _ hmem))
      (fun hmem => Bool.false_ne_true (hblanks _ hmem))
  refine h.behind (blanks ++ c :: text) (fun more => ?_) ?_ ?_
  · have hdrop : (blanks ++ c :: text ++ (inside ++ '>' :: more)).dropWhile isPlainBlank
        = c :: (text ++ (inside ++ '>' :: more)) := by
      rw [List.append_assoc, List.dropWhile_append_of_pos hblanks, List.cons_append,
        List.dropWhile_cons_of_neg (by simp [hblank])]
    exact readAttributes_attribute hdrop hbracket hslash (hread more)
  · simp only [hfront.bracket, List.mem_singleton, exists_eq_left]
  · rintro rfl hlast
    obtain rfl := eq_nil_of_attributesText h
    exact ⟨a, rfl, hfront.slash hlast⟩

end Front

/-- Attributes are read from a text in front of a bracket. -/
theorem exists_attributesText {name cs : List Char} {before : List (List Char × List Char)}
    {t : OpenTag} (h : readAttributes name before cs = some t) :
    ∃ behind inside, AttributesText name before behind t.selfClosing inside ∧
      cs = inside ++ '>' :: t.rest ∧ t = ⟨name, before ++ behind, t.selfClosing, t.rest⟩ := by
  have hblanks : ∀ ds : List Char, ∀ c ∈ ds.takeWhile isPlainBlank, isPlainBlank c = true :=
    fun ds => List.all_eq_true.1 List.all_takeWhile
  have hcut : ∀ {ds r : List Char}, ds.dropWhile isPlainBlank = r →
      ds = ds.takeWhile isPlainBlank ++ r := by
    rintro ds _ rfl
    exact List.takeWhile_append_dropWhile.symm
  -- a reader looks at one character behind a value, and that is the same in front of any text
  have hhead : ∀ inside more : List Char,
      (inside ++ '>' :: more).head? = (inside ++ '>' :: t.rest).head? := by
    intro inside more
    exact head?_append_of_head?_eq (by rfl) inside
  fun_induction readAttributes name before cs with
  | case1 => cases h
  | case2 before cs r hr =>
    obtain rfl := Option.some.inj h
    refine ⟨[], _, attributesText_blanks (hblanks cs) false, ?_, by simp⟩
    simpa using hcut hr
  | case3 before cs r hr =>
    obtain rfl := Option.some.inj h
    refine ⟨[], _, attributesText_blanks (hblanks cs) true, ?_, by simp⟩
    simpa using hcut hr
  | case4 before cs r hne hr _ ih =>
    obtain ⟨behind, inside, htext, rfl, heq⟩ := ih h
    have hinside : ∀ more : List Char, (inside ++ '>' :: more).head? ≠ some '>' := by
      intro more hbracket
      rw [hhead inside more] at hbracket
      obtain ⟨r, hr⟩ := List.head?_eq_some_iff.1 hbracket
      exact hne r hr
    refine ⟨behind, _, htext.slashed (hblanks cs) hinside, ?_, heq⟩
    simpa using hcut hr
  | case5 => cases h
  | case6 before cs c r hbracket hends hslash hr a r' ha hlt ih =>
    obtain ⟨behind, inside, htext, rfl, heq⟩ := ih h
    have hblank := List.head?_dropWhile_not isPlainBlank cs
    rw [hr] at hblank
    obtain ⟨text, rfl, hshows, hagain⟩ := exists_attributeText ha hbracket hslash
    refine ⟨a :: behind, _, htext.attribute (hblanks cs) hblank hbracket hslash hshows
      fun more => hagain _ (hhead inside more), ?_, ?_⟩
    · simpa using hcut hr
    · simpa using heq

theorem openTag?_eq_some {cs : List Char} {t : OpenTag} :
    openTag? cs = some t ↔ ∃ c name, cs.takeWhile isTagNameChar = c :: name ∧ c.isAlpha = true ∧
      readAttributes (c :: name) [] (cs.dropWhile isTagNameChar) = some t := by
  unfold openTag?
  constructor
  · intro h
    split at h
    · cases h
    · next c name hname =>
      split at h
      · next halpha => exact ⟨c, name, hname, halpha, h⟩
      · cases h
  · rintro ⟨c, name, hname, halpha, h⟩
    rw [hname]
    exact (if_pos halpha).trans h

/-- The name of a tag is what stands in front of the first character that is in no name. -/
theorem name_of_openTag? {cs : List Char} {t : OpenTag} (h : openTag? cs = some t) :
    t.name = cs.takeWhile isTagNameChar ∧ ∃ c ∈ t.name.head?, c.isAlpha = true := by
  obtain ⟨c, name, hname, halpha, hread⟩ := openTag?_eq_some.1 h
  obtain ⟨attributes, inside, -, -, ht⟩ := exists_attributesText hread
  rw [ht, hname]
  exact ⟨rfl, c, rfl, halpha⟩

theorem isTagNameChar_of_openTag? {cs : List Char} {t : OpenTag} (h : openTag? cs = some t) :
    ∀ c ∈ t.name, isTagNameChar c = true := by
  rw [(name_of_openTag? h).1]
  exact List.all_eq_true.1 List.all_takeWhile

theorem name_ne_nil_of_openTag? {cs : List Char} {t : OpenTag} (h : openTag? cs = some t) :
    t.name ≠ [] := by
  obtain ⟨c, hc, -⟩ := (name_of_openTag? h).2
  intro hnil
  rw [hnil] at hc
  cases hc

/-- Every tag is read from its name and a text in front of a bracket. -/
theorem exists_tagText {cs : List Char} {t : OpenTag} (h : openTag? cs = some t) :
    ∃ inside, TagText t inside ∧ cs = t.name ++ (inside ++ '>' :: t.rest) := by
  obtain ⟨c, name, hname, halpha, hread⟩ := openTag?_eq_some.1 h
  obtain ⟨attributes, inside, htext, hdrop, ht⟩ := exists_attributesText hread
  rw [ht]
  refine ⟨inside, ⟨fun more => ?_, htext.bracket, fun hlast => htext.slash hlast, ?_⟩, ?_⟩
  · -- the name ends as before, since what follows it starts as before
    have hhead : (inside ++ '>' :: more).head? = (cs.dropWhile isTagNameChar).head? := by
      rw [hdrop]
      exact head?_append_of_head?_eq (by rfl) inside
    obtain ⟨htake, hdrop'⟩ := span_exchange isTagNameChar hhead
    rw [hname] at htake hdrop'
    exact openTag?_eq_some.2 ⟨c, name, htake, halpha, by rw [hdrop', htext.reads more]⟩
  · rintro (hself | ⟨a, -, hvalue, ds, hsuffix⟩)
    · exact htext.closes hself
    · rw [← hsuffix, List.getLast?_append, hvalue, Option.some_or]
  · rw [← hdrop, ← hname, List.takeWhile_append_dropWhile]

/-! ### Names -/

/-- Letters of both cases stand in names. -/
theorem isTagNameChar_toLower (c : Char) : isTagNameChar c.toLower = isTagNameChar c := by
  unfold Char.toLower
  split
  · next h =>
    have hupper : c.isUpper = true := decide_eq_true h
    have hval : (c.val + 32).toNat = c.val.toNat + 32 := by
      have hhigh : c.val.toNat ≤ 90 := h.2
      rw [UInt32.toNat_add, show (32 : UInt32).toNat = 32 from rfl]
      omega
    have hlower : ∀ hvalid, Char.isLower ⟨c.val + 32, hvalid⟩ = true := by
      intro hvalid
      refine Bool.and_eq_true_iff.2 ⟨decide_eq_true ?_, decide_eq_true ?_⟩
      all_goals
        apply UInt32.le_iff_toNat_le.2
        rw [hval]
      · exact Nat.add_le_add_right h.1 32
      · exact Nat.add_le_add_right h.2 32
    delta isTagNameChar Char.isAlphanum Char.isAlpha
    simp [hupper, hlower]
  · rfl

theorem isTagNameChar_of_spelling {name spelling : List Char}
    (hname : ∀ c ∈ name, isTagNameChar c = true) (h : lowerName spelling = lowerName name) :
    ∀ c ∈ spelling, isTagNameChar c = true := by
  intro c hc
  have hmem : c.toLower ∈ lowerName name := h ▸ List.mem_map_of_mem hc
  obtain ⟨d, hd, heq⟩ := List.mem_map.1 hmem
  rw [← isTagNameChar_toLower, ← heq, isTagNameChar_toLower]
  exact hname d hd

theorem isTagNameChar_of_isTagDelimiter {c : Char} (h : isTagDelimiter c = true) :
    isTagNameChar c = false := by
  simp only [isTagDelimiter, Bool.or_eq_true, beq_iff_eq] at h
  rcases h with ((((rfl | rfl) | rfl) | rfl) | rfl) | rfl <;> decide

/-- A name in front of a delimiter is all that the name of a tag is read from. -/
theorem span_of_afterName? {name cs r : List Char} (hname : ∀ c ∈ name, isTagNameChar c = true)
    (h : afterName? name cs = some r) :
    lowerName (cs.takeWhile isTagNameChar) = lowerName name ∧ cs.dropWhile isTagNameChar = r := by
  obtain ⟨spelling, c, rest, rfl, hspells, hdelim⟩ := startsName_of_afterName? h
  have hstop : ∀ d ∈ (c :: rest).head?, isTagNameChar d = false := by
    rintro d ⟨⟩
    exact isTagNameChar_of_isTagDelimiter hdelim
  obtain ⟨htake, hdrop⟩ := span_append (isTagNameChar_of_spelling hname hspells) hstop
  rw [htake, hdrop]
  rw [afterName?_spelling hspells hdelim] at h
  exact ⟨hspells, Option.some.inj h⟩

end ComponentCompiler
