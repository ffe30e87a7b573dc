import ComponentCompiler.Proofs.Component.Source

/-!
# Splitting what was written

The parts of a written component are found again.  A content that does not end its block is passed
over up to the closing tag, whatever follows it, because neither a name nor what delimits one can
reach into the bracket of the next tag.

## Main definitions

* `SourceItem.found` — the blocks found in a row of items.
* `Blocks.append` — the parts of one row of blocks followed by those of another.

## Main results

* `findClose_of_unclosing`, `findClose_of_balanced` — contents are passed over.
* `divide_renderAll` — the blocks of a written component are found in order.
* `split_renderAll` — **a written component is split into its parts**.
-/

namespace ComponentCompiler

/-! ### Names of tags -/

/-- Only letters change when they are put in lower case. -/
theorem eq_of_toLower_eq {c d : Char} (hd : d.toNat < 97) (h : c.toLower = d) : c = d := by
  unfold Char.toLower at h
  split at h
  · next hc =>
    have hlow : 65 ≤ c.val.toNat := hc.1
    have hhigh : c.val.toNat ≤ 90 := hc.2
    have hval : (c.val + 32).toNat = d.toNat := congrArg Char.toNat h
    rw [UInt32.toNat_add, show (32 : UInt32).toNat = 32 from rfl] at hval
    omega
  · exact h

/-- A character that is no letter stands in a name if it stands in any spelling of it. -/
theorem mem_of_spelling {name spelling : List Char} (h : lowerName spelling = lowerName name)
    {c : Char} (hc : c.toNat < 65) (hmem : c ∈ spelling) : c ∈ name := by
  have hlower : c.toLower = c := by
    unfold Char.toLower
    rw [dif_neg]
    rintro ⟨hlow, -⟩
    have : 65 ≤ c.toNat := hlow
    omega
  have : c ∈ lowerName name := by
    rw [← h]
    exact List.mem_map.2 ⟨c, hmem, hlower⟩
  obtain ⟨d, hd, hdc⟩ := List.mem_map.1 this
  rwa [← eq_of_toLower_eq (by omega) hdc]

theorem length_of_spelling {name spelling : List Char} (h : lowerName spelling = lowerName name) :
    spelling.length = name.length := by
  have := congrArg List.length h
  simpa [lowerName] using this

/-- A spelled name with a delimiter behind it is passed over. -/
theorem afterName?_spelling {name spelling : List Char} (h : lowerName spelling = lowerName name)
    {c : Char} (hc : isTagDelimiter c = true) (rest : List Char) :
    afterName? name (spelling ++ c :: rest) = some (c :: rest) := by
  rw [afterName?, ← length_of_spelling h, List.take_left, List.drop_left, h]
  simp [hc]

theorem startsName_of_afterName? {name cs rest : List Char} (h : afterName? name cs = some rest) :
    StartsName name cs := by
  unfold afterName? at h
  split at h
  · next hcond =>
    simp only [Bool.and_eq_true, beq_iff_eq] at hcond
    obtain ⟨hname, hdelim⟩ := hcond
    cases hdrop : cs.drop name.length with
    | nil => rw [hdrop] at hdelim; cases hdelim
    | cons c r =>
      rw [hdrop] at hdelim
      refine ⟨cs.take name.length, c, r, ?_, hname, hdelim⟩
      rw [← hdrop, List.take_append_drop]
  · cases h

theorem closingName?_eq_some {name cs r : List Char} (h : closingName? name cs = some r) :
    ∃ ds, cs = '/' :: ds ∧ afterName? name ds = some r := by
  unfold closingName? at h
  split at h
  · exact ⟨_, rfl, h⟩
  · cases h

theorem openingName?_eq_some {name cs r : List Char} {nested : Bool}
    (h : openingName? name nested cs = some r) : afterName? name cs = some r := by
  unfold openingName? at h
  split at h
  · exact h
  · cases h

/-- What does not hold a character ends before that character. -/
theorem exists_append_of_not_mem {x : Char} {p r cs rest : List Char} (hp : x ∉ p)
    (h : p ++ r = cs ++ x :: rest) : ∃ r', cs = p ++ r' := by
  rcases List.append_eq_append_iff.1 h with ⟨r', hcs, -⟩ | ⟨ds, hpd, hds⟩
  · exact ⟨r', hcs⟩
  · cases ds with
    | nil => exact ⟨[], by rw [hpd, List.append_nil, List.append_nil]⟩
    | cons d ds =>
      obtain ⟨rfl, -⟩ := List.cons.inj hds
      exact absurd (by rw [hpd]; simp) hp

/-- A name cannot reach into the bracket behind a text. -/
theorem StartsName.of_append {name cs rest : List Char} (hname : '<' ∉ name)
    (h : StartsName name (cs ++ '<' :: rest)) : StartsName name cs := by
  obtain ⟨spelling, c, r, heq, hspell, hc⟩ := h
  have hfree : '<' ∉ spelling ++ [c] := by
    intro hmem
    rcases List.mem_append.1 hmem with hmem | hmem
    · exact hname (mem_of_spelling hspell (by decide) hmem)
    · obtain rfl := List.mem_singleton.1 hmem
      cases hc
  obtain ⟨r', hcs⟩ := exists_append_of_not_mem (r := r) hfree (by rw [heq]; simp)
  exact ⟨spelling, c, r', by rw [hcs]; simp, hspell, hc⟩

theorem afterName?_eq_none {name cs : List Char} (hname : '<' ∉ name) (h : ¬ StartsName name cs)
    (rest : List Char) : afterName? name (cs ++ '<' :: rest) = none := by
  cases hafter : afterName? name (cs ++ '<' :: rest) with
  | none => rfl
  | some r => exact absurd ((startsName_of_afterName? hafter).of_append hname) h

theorem closingName?_eq_none {name : List Char} (hname : '<' ∉ name) (cs : List Char)
    (h : ∀ behind, cs = '/' :: behind → ¬ StartsName name behind) (rest : List Char) :
    closingName? name (cs ++ '<' :: rest) = none := by
  cases cs with
  | nil => rfl
  | cons c cs =>
    by_cases hc : c = '/'
    · subst hc
      exact afterName?_eq_none hname (h cs rfl) rest
    · rw [List.cons_append, closingName?]
      intro _ hslash
      exact absurd (List.cons.inj hslash).1 hc

/-! ### Passing over the content of a block -/

section Steps

variable {name cs r inside rest : List Char} {nested : Bool} {depth : Nat}

theorem findClose_char {c : Char} (hc : c ≠ '<') :
    findClose name nested depth (c :: cs) = findClose name nested depth cs := by
  rw [findClose, if_pos (by simpa using hc)]

/-- A bracket at which no tag of the name starts is passed over. -/
theorem findClose_skip (hclosing : closingName? name cs = none)
    (hopening : openingName? name nested cs = none) :
    findClose name nested depth ('<' :: cs) = findClose name nested depth cs := by
  have hc : (closingName? name cs).map (cutAt? '>') = none := by rw [hclosing]; rfl
  have ho : (openingName? name nested cs).map (cutAt? '>') = none := by rw [hopening]; rfl
  rw [findClose, if_neg (by simp)]
  split
  · next h => cases hc.symm.trans h
  · next h => cases hc.symm.trans h
  · split
    · next h => cases ho.symm.trans h
    · next h => cases ho.symm.trans h
    · rfl

/-- An opening tag of the name opens a further block, unless a slash ends it. -/
theorem findClose_opening (hclosing : closingName? name cs = none)
    (hopening : openingName? name nested cs = some r) (hcut : cutAt? '>' r = some (inside, rest)) :
    findClose name nested depth ('<' :: cs)
      = findClose name nested (if inside.getLast? == some '/' then depth else depth + 1) rest := by
  have hc : (closingName? name cs).map (cutAt? '>') = none := by rw [hclosing]; rfl
  have ho : (openingName? name nested cs).map (cutAt? '>') = some (some (inside, rest)) := by
    rw [hopening, Option.map_some, hcut]
  rw [findClose, if_neg (by simp)]
  split
  · next h => cases hc.symm.trans h
  · next h => cases hc.symm.trans h
  · split
    · next h => cases ho.symm.trans h
    · next h =>
      obtain ⟨rfl, rfl⟩ := Prod.mk.inj (Option.some.inj (Option.some.inj (ho.symm.trans h)))
      rfl
    · next h => cases ho.symm.trans h

/-- A closing tag of the name closes the innermost block, in the end the outermost one. -/
theorem findClose_closing (hclosing : closingName? name cs = some r)
    (hcut : cutAt? '>' r = some (inside, rest)) :
    findClose name nested depth ('<' :: cs)
      = match depth with
        | 0 => some ('<' :: cs, rest)
        | d + 1 => findClose name nested d rest := by
  have hc : (closingName? name cs).map (cutAt? '>') = some (some (inside, rest)) := by
    rw [hclosing, Option.map_some, hcut]
  rw [findClose, if_neg (by simp)]
  split
  · next h => cases hc.symm.trans h
  · next h =>
    obtain ⟨rfl, rfl⟩ := Prod.mk.inj (Option.some.inj (Option.some.inj (hc.symm.trans h)))
    rfl
  · next h => cases hc.symm.trans h

/-- A tag of the name that does not end leaves the block open. -/
theorem findClose_endless (h : closingName? name cs = some r ∨
      closingName? name cs = none ∧ openingName? name nested cs = some r)
    (hcut : cutAt? '>' r = none) : findClose name nested depth ('<' :: cs) = none := by
  rw [findClose, if_neg (by simp)]
  rcases h with hclosing | ⟨hclosing, hopening⟩
  · have hc : (closingName? name cs).map (cutAt? '>') = some none := by
      rw [hclosing, Option.map_some, hcut]
    split
    · rfl
    · next h => cases hc.symm.trans h
    · next h => cases hc.symm.trans h
  · have hc : (closingName? name cs).map (cutAt? '>') = none := by rw [hclosing]; rfl
    have ho : (openingName? name nested cs).map (cutAt? '>') = some none := by
      rw [hopening, Option.map_some, hcut]
    split
    · rfl
    · next h => cases hc.symm.trans h
    · split
      · rfl
      · next h => cases ho.symm.trans h
      · next h => cases ho.symm.trans h

/-- A text without a bracket is passed over. -/
theorem findClose_text {front : List Char} (h : '<' ∉ front) :
    findClose name nested depth (front ++ rest) = findClose name nested depth rest := by
  induction front with
  | nil => rfl
  | cons c front ih =>
    have hc : c ≠ '<' := fun hc => h (hc ▸ List.mem_cons_self)
    rw [List.cons_append, findClose_char hc, ih fun hmem => h (List.mem_cons_of_mem _ hmem)]

theorem findClose_of_not_mem (h : '<' ∉ cs) : findClose name nested depth cs = none := by
  rw [← List.append_nil cs, findClose_text h, findClose]

end Steps

/-- A tag of a name is recognised by it, and ends at its bracket. -/
theorem NamedTag.afterName?_render {name : List Char} (t : NamedTag name) (rest : List Char) :
    ∃ r, afterName? name (t.render ++ rest) = some r ∧ cutAt? '>' r = some (t.tail, rest) := by
  obtain ⟨spelling, tail, hspells, hdelimited, hfree⟩ := t
  have hrender : (NamedTag.mk spelling tail hspells hdelimited hfree).render ++ rest
      = spelling ++ (tail ++ '>' :: rest) := by
    simp [NamedTag.render]
  refine ⟨tail ++ '>' :: rest, ?_, cutAt?_append hfree rest⟩
  rw [hrender]
  cases tail with
  | nil => exact afterName?_spelling hspells rfl rest
  | cons c tail => exact afterName?_spelling hspells (hdelimited c rfl) (tail ++ '>' :: rest)

/-- What a name spells does not start with a slash. -/
theorem closingName?_render {name : List Char} (hne : name ≠ []) (hslash : '/' ∉ name)
    (t : NamedTag name) (rest : List Char) : closingName? name (t.render ++ rest) = none := by
  cases hspelling : t.spelling with
  | nil =>
    have hlength := length_of_spelling t.spells
    rw [hspelling] at hlength
    exact absurd (List.length_eq_zero_iff.1 hlength.symm) hne
  | cons c cs =>
    have hc : c ≠ '/' := by
      rintro rfl
      exact hslash (mem_of_spelling t.spells (by decide) (hspelling ▸ List.mem_cons_self))
    rw [NamedTag.render, hspelling, List.cons_append, List.cons_append, List.cons_append,
      closingName?]
    intro _ h
    exact absurd (List.cons.inj h).1 hc

/-- A text without a closing tag of its own is passed over. -/
theorem findClose_of_unclosing {name content : List Char} (hname : '<' ∉ name)
    (h : Unclosing name content) (depth : Nat) (rest : List Char) :
    findClose name false depth (content ++ '<' :: rest)
      = findClose name false depth ('<' :: rest) := by
  induction content with
  | nil => rfl
  | cons c cs ih =>
    have hcs : Unclosing name cs := fun before behind hb =>
      h (c :: before) behind (by rw [hb]; rfl)
    rw [List.cons_append]
    by_cases hc : c = '<'
    · subst hc
      have hclosing := closingName?_eq_none hname cs
        (fun behind hb => h [] behind (by rw [hb]; rfl)) rest
      rw [findClose_skip hclosing rfl, ih hcs]
    · rw [findClose_char hc, ih hcs]

/-- A text in which the tags of its own name come in pairs is passed over, whatever is open. -/
theorem findClose_of_balanced {name content : List Char} (hne : name ≠ []) (hname : '<' ∉ name)
    (hslash : '/' ∉ name) (h : Balanced name content) (depth : Nat) (rest : List Char) :
    findClose name true depth (content ++ '<' :: rest)
      = findClose name true depth ('<' :: rest) := by
  -- the depth is left open because what is inside a pair is passed over with one block more
  induction h generalizing depth rest with
  | nil => rfl
  | @char c cs hc _ ih =>
    rw [List.cons_append]
    by_cases hbracket : c = '<'
    · subst hbracket
      have hclosing := closingName?_eq_none hname cs
        (fun behind hb hstarts => hc (.inr ⟨behind, by rw [hb], hstarts⟩)) rest
      have hopening : openingName? name true (cs ++ '<' :: rest) = none :=
        afterName?_eq_none hname (fun hstarts => hc (.inl ⟨cs, rfl, hstarts⟩)) rest
      rw [findClose_skip hclosing hopening, ih]
    · rw [findClose_char hbracket, ih]
  | @empty t cs hlast _ ih =>
    obtain ⟨r, hafter, hcut⟩ := t.afterName?_render (cs ++ '<' :: rest)
    have hopening : openingName? name true (t.render ++ (cs ++ '<' :: rest)) = some r := hafter
    rw [List.cons_append, List.cons_append, List.append_assoc,
      findClose_opening (closingName?_render hne hslash t _) hopening hcut, hlast, ← ih depth rest]
    rfl
  | @pair t u inside cs hlast _ _ ihinside ihcs =>
    have htext : '<' :: t.render ++ inside ++ '<' :: '/' :: u.render ++ cs ++ '<' :: rest
        = '<' :: (t.render ++ (inside ++ '<' :: '/' :: (u.render ++ (cs ++ '<' :: rest)))) := by
      simp
    obtain ⟨r, hafter, hcut⟩ :=
      t.afterName?_render (inside ++ '<' :: '/' :: (u.render ++ (cs ++ '<' :: rest)))
    obtain ⟨r', hafter', hcut'⟩ := u.afterName?_render (cs ++ '<' :: rest)
    have hopening : openingName? name true (t.render ++
        (inside ++ '<' :: '/' :: (u.render ++ (cs ++ '<' :: rest)))) = some r := hafter
    have hclosing : closingName? name ('/' :: (u.render ++ (cs ++ '<' :: rest))) = some r' :=
      hafter'
    have hdepth : (if t.tail.getLast? == some '/' then depth else depth + 1) = depth + 1 :=
      if_neg (by simpa using hlast)
    rw [htext, findClose_opening (closingName?_render hne hslash t _) hopening hcut, hdepth,
      ihinside, findClose_closing hclosing hcut', ← ihcs depth rest]

/-! ### Dividing what was written -/

theorem SourceTag.name_ne_nil (t : SourceTag) : t.name ≠ [] := by
  obtain ⟨c, hc, -⟩ := t.letter
  intro hnil
  rw [hnil] at hc
  cases hc

theorem SourceTag.not_mem_name (t : SourceTag) {c : Char} (hc : isTagNameChar c = false) :
    c ∉ t.name := by
  intro hmem
  rw [t.isName c hmem] at hc
  cases hc

/-- A block is found to end at its closing tag. -/
theorem findClose_block (b : SourceBlock) (rest : List Char) :
    findClose b.tag.name (!isRawName b.tag.name) 0
        (b.content ++ '<' :: '/' :: (b.closing.render ++ rest))
      = some ('<' :: '/' :: (b.closing.render ++ rest), rest) := by
  have hbracket := b.tag.not_mem_name (c := '<') rfl
  have hslash := b.tag.not_mem_name (c := '/') rfl
  have hpass : findClose b.tag.name (!isRawName b.tag.name) 0
        (b.content ++ '<' :: '/' :: (b.closing.render ++ rest))
      = findClose b.tag.name (!isRawName b.tag.name) 0
          ('<' :: '/' :: (b.closing.render ++ rest)) := by
    have hencloses := b.encloses
    cases hraw : isRawName b.tag.name with
    | true =>
      rw [hraw, if_pos rfl] at hencloses
      exact findClose_of_unclosing hbracket hencloses 0 _
    | false =>
      rw [hraw, if_neg Bool.false_ne_true] at hencloses
      exact findClose_of_balanced b.tag.name_ne_nil hbracket hslash hencloses 0 _
  obtain ⟨r, hafter, hcut⟩ := b.closing.afterName?_render rest
  have hclosing : closingName? b.tag.name ('/' :: (b.closing.render ++ rest)) = some r := hafter
  rw [hpass, findClose_closing hclosing hcut]

/-- A comment ends at the first mark that can end it. -/
theorem afterComment?_append {cs : List Char} (h : ¬ ['-', '-', '>'] <:+: cs) (rest : List Char) :
    afterComment? (cs ++ '-' :: '-' :: '>' :: rest) = some rest := by
  fun_induction afterComment? cs with
  | case1 cs => exact absurd ⟨[], cs, rfl⟩ h
  | case2 c cs hc ih =>
    have hcs : ¬ ['-', '-', '>'] <:+: cs := fun hmark =>
      h (hmark.trans (List.suffix_cons c cs).isInfix)
    rw [List.cons_append, afterComment?, ih hcs]
    -- a mark cannot start in the comment and end in the mark behind it
    intro ds hdash heq
    match cs, heq with
    | [], heq => cases heq
    | [d], heq => cases heq
    | d :: e :: cs, heq =>
      simp only [List.cons_append, List.cons.injEq] at heq
      obtain ⟨rfl, rfl, -⟩ := heq
      exact hc cs hdash rfl
  | case3 => rfl

theorem divide_char {c : Char} (hc : c ≠ '<') (cs : List Char) : divide (c :: cs) = divide cs := by
  rw [divide, if_pos (by simpa using hc)]
  intro ds hbracket
  exact absurd hbracket hc

/-- A text is passed over. -/
theorem divide_text {cs : List Char} (h : '<' ∉ cs) (rest : List Char) :
    divide (cs ++ rest) = divide rest := by
  induction cs with
  | nil => rfl
  | cons c cs ih =>
    have hc : c ≠ '<' := fun hc => h (hc ▸ List.mem_cons_self)
    rw [List.cons_append, divide_char hc, ih fun hmem => h (List.mem_cons_of_mem _ hmem)]

/-- A comment is passed over. -/
theorem divide_of_afterComment? {cs rest : List Char} (h : afterComment? cs = some rest) :
    divide ('<' :: '!' :: '-' :: '-' :: cs) = divide rest := by
  rw [divide]
  split
  · next r hr =>
    obtain rfl := Option.some.inj (hr.symm.trans h)
    rfl
  · next hnone => cases hnone.symm.trans h

/-- A written comment is passed over. -/
theorem divide_comment {cs : List Char} (h : ¬ ['-', '-', '>'] <:+: cs) (rest : List Char) :
    divide ('<' :: '!' :: '-' :: '-' :: (cs ++ '-' :: '-' :: '>' :: rest)) = divide rest :=
  divide_of_afterComment? (afterComment?_append h rest)

/-- A comment that is never closed ends the division. -/
theorem divide_openComment {cs : List Char} (h : afterComment? cs = none) :
    divide ('<' :: '!' :: '-' :: '-' :: cs) = {} := by
  rw [divide]
  split
  · next r hr => cases hr.symm.trans h
  · rfl

/-- A bracket at which nothing starts is passed over. -/
theorem divide_bracket {cs : List Char} (hcomment : ¬ ['!', '-', '-'] <+: cs)
    (h : openTag? cs = none) : divide ('<' :: cs) = divide cs := by
  rw [divide, if_neg (by simp)]
  · split
    · rfl
    · next tag hsome => cases hsome.symm.trans h
  · rintro ds - rfl
    exact hcomment ⟨ds, rfl⟩

/-- What is read as a tag does not start like a comment. -/
theorem ne_of_openTag? {cs : List Char} {t : OpenTag} (h : openTag? cs = some t)
    (ds : List Char) : cs ≠ '!' :: ds := by
  rintro rfl
  cases h

/-- A tag without content is passed over. -/
theorem divide_of_selfClosing {cs : List Char} {t : OpenTag} (h : openTag? cs = some t)
    (hself : t.selfClosing = true) : divide ('<' :: cs) = divide t.rest := by
  rw [divide, if_neg (by simp)]
  · split
    · next hnone => cases hnone.symm.trans h
    · next tag hsome =>
      obtain rfl := Option.some.inj (hsome.symm.trans h)
      rw [if_pos hself]
  · exact fun ds _ hcomment => ne_of_openTag? h _ hcomment

/-- A block is found where its tag is read and its closing tag is found. -/
theorem divide_of_findClose {cs content close rest : List Char} {t : OpenTag}
    (h : openTag? cs = some t) (hself : t.selfClosing = false)
    (hcontent : t.rest = content ++ close)
    (hclose : findClose t.name (!isRawName t.name) 0 t.rest = some (close, rest)) :
    divide ('<' :: cs)
      = { divide rest with blocks := ⟨t, content⟩ :: (divide rest).blocks } := by
  rw [divide, if_neg (by simp)]
  · split
    · next hnone => cases hnone.symm.trans h
    · next tag hsome =>
      obtain rfl := Option.some.inj (hsome.symm.trans h)
      rw [if_neg (by simp [hself])]
      split
      · next hnone => cases hnone.symm.trans hclose
      · next close' rest' hfound =>
        obtain ⟨rfl, rfl⟩ := Prod.mk.inj (Option.some.inj (hfound.symm.trans hclose))
        simp [hcontent]
  · exact fun ds _ hcomment => ne_of_openTag? h _ hcomment

/-- A block that is never closed ends the division. -/
theorem divide_of_unclosed {cs : List Char} {t : OpenTag} (h : openTag? cs = some t)
    (hself : t.selfClosing = false)
    (hclose : findClose t.name (!isRawName t.name) 0 t.rest = none) :
    divide ('<' :: cs) = { unclosed := some (t.name, '<' :: cs) } := by
  rw [divide, if_neg (by simp)]
  · split
    · next hnone => cases hnone.symm.trans h
    · next tag hsome =>
      obtain rfl := Option.some.inj (hsome.symm.trans h)
      rw [if_neg (by simp [hself])]
      split
      · rfl
      · next hfound => cases hfound.symm.trans hclose
  · exact fun ds _ hcomment => ne_of_openTag? h _ hcomment

/-- A written tag without content is passed over. -/
theorem divide_empty (t : SourceTag) (rest : List Char) :
    divide ('<' :: (t.render ++ (tagEnd true ++ rest))) = divide rest :=
  divide_of_selfClosing (openTag?_render t true rest) rfl

/-- The block that is found where one is written. -/
def SourceBlock.toFound (b : SourceBlock) (rest : List Char) : FoundBlock :=
  ⟨b.tag.toOpen false (b.content ++ '<' :: '/' :: (b.closing.render ++ rest)), b.content⟩

/-- A block is found. -/
theorem divide_block (b : SourceBlock) (rest : List Char) :
    divide (b.render ++ rest)
      = { divide rest with blocks := b.toFound rest :: (divide rest).blocks } := by
  have hrender : b.render ++ rest = '<' :: (b.tag.render ++ (tagEnd false ++
      (b.content ++ '<' :: '/' :: (b.closing.render ++ rest)))) := by
    simp [SourceBlock.render]
  rw [hrender]
  exact divide_of_findClose
    (openTag?_render b.tag false (b.content ++ '<' :: '/' :: (b.closing.render ++ rest))) rfl rfl
    (findClose_block b rest)

/-- The blocks that are found in written items. -/
def SourceItem.found : List SourceItem → List FoundBlock
  | [] => []
  | .block b :: is => b.toFound (SourceItem.renderAll is) :: SourceItem.found is
  | _ :: is => SourceItem.found is

/-- Exactly the blocks of a written component are found, each with its content. -/
theorem divide_renderAll (is : List SourceItem) :
    divide (SourceItem.renderAll is) = { blocks := SourceItem.found is } := by
  induction is with
  | nil => rw [SourceItem.renderAll, List.flatMap_nil, divide]; rfl
  | cons i is ih =>
    rw [SourceItem.renderAll, List.flatMap_cons]
    change divide (i.render ++ SourceItem.renderAll is) = _
    cases i with
    | text cs hcs => exact (divide_text hcs _).trans ih
    | comment cs hcs =>
      have hrender : (SourceItem.comment cs hcs).render ++ SourceItem.renderAll is
          = '<' :: '!' :: '-' :: '-' :: (cs ++ '-' :: '-' :: '>' :: SourceItem.renderAll is) := by
        simp [SourceItem.render]
      rw [hrender, divide_comment hcs, ih]
      rfl
    | empty t =>
      have hrender : (SourceItem.empty t).render ++ SourceItem.renderAll is
          = '<' :: (t.render ++ (tagEnd true ++ SourceItem.renderAll is)) := by
        simp [SourceItem.render]
      rw [hrender, divide_empty, ih]
      rfl
    | block b =>
      have hblock := divide_block b (SourceItem.renderAll is)
      rw [ih] at hblock
      exact hblock

/-! ### Putting the parts together -/

theorem name_toFound (b : SourceBlock) (rest : List Char) : (b.toFound rest).name = b.name := rfl

theorem lang_toFound (b : SourceBlock) (rest : List Char) : (b.toFound rest).lang = b.lang := by
  rw [FoundBlock.lang, SourceBlock.toFound, attribute?_toOpen]
  rfl

theorem isScoped_toFound (b : SourceBlock) (rest : List Char) :
    (b.toFound rest).isScoped = b.isScoped := by
  rw [FoundBlock.isScoped, SourceBlock.toFound, attribute?_toOpen]
  rfl

/-- The parts of two rows of blocks, one behind the other. -/
def Blocks.append (p q : Blocks) : Blocks where
  script := p.script.or q.script
  template := p.template.or q.template
  styles := p.styles ++ q.styles

theorem Blocks.append_assoc (p q r : Blocks) : (p.append q).append r = p.append (q.append r) := by
  simp [append, Option.or_assoc]

theorem parts_append (bs cs : List SourceBlock) :
    SourceBlock.parts (bs ++ cs) = (SourceBlock.parts bs).append (SourceBlock.parts cs) := by
  simp [SourceBlock.parts, Blocks.append, List.find?_append, Option.map_or]

/-- Adding a block adds its part, unless there is one already of which there may be one. -/
theorem add_toFound {a : Assembly} (ha : a.error = none) (b : SourceBlock) (rest : List Char)
    (hscript : b.name = "script" → a.blocks.script = none)
    (htemplate : b.name = "template" → a.blocks.template = none) :
    (a.add (b.toFound rest)).error = none ∧
      (a.add (b.toFound rest)).blocks = a.blocks.append (SourceBlock.parts [b]) := by
  unfold Assembly.add
  rw [ha, name_toFound, lang_toFound, isScoped_toFound]
  simp only [Option.isSome_none, Bool.false_eq_true, if_false]
  split
  · next hname =>
    simp [htemplate hname, hname, SourceBlock.parts, Blocks.append, SourceBlock.toTemplate,
      SourceBlock.toFound]
  · next hname =>
    simp [hscript hname, hname, SourceBlock.parts, Blocks.append, SourceBlock.toFound]
  · next hname =>
    simp [hname, SourceBlock.parts, Blocks.append, SourceBlock.toStyle, SourceBlock.toFound]
  · next hnotTemplate hnotScript hnotStyle =>
    simp [show b.name ≠ "template" from hnotTemplate, show b.name ≠ "script" from hnotScript,
      show b.name ≠ "style" from hnotStyle, SourceBlock.parts, Blocks.append]

theorem nameCount_cons (name : String) (b : SourceBlock) (bs : List SourceBlock) :
    nameCount name (b :: bs) = nameCount name bs + if b.name = name then 1 else 0 := by
  simp [nameCount, List.count_cons]

theorem length_toList_or_le {α : Type} (x y : Option α) :
    (x.or y).toList.length ≤ x.toList.length + y.toList.length := by
  cases x <;> simp

theorem length_script_parts (b : SourceBlock) :
    (SourceBlock.parts [b]).script.toList.length = if b.name = "script" then 1 else 0 := by
  by_cases h : b.name = "script" <;> simp [SourceBlock.parts, h]

theorem length_template_parts (b : SourceBlock) :
    (SourceBlock.parts [b]).template.toList.length = if b.name = "template" then 1 else 0 := by
  by_cases h : b.name = "template" <;> simp [SourceBlock.parts, h]

theorem eq_none_of_length {α : Type} {x : Option α} (h : x.toList.length = 0) : x = none := by
  cases x with
  | none => rfl
  | some _ => cases h

/-- The blocks that are found are put together without an error, if there is at most one script and
at most one template among them and those put together before. -/
theorem foldl_add (is : List SourceItem) {a : Assembly} (ha : a.error = none)
    (hscript : a.blocks.script.toList.length + nameCount "script" (SourceItem.blocks is) ≤ 1)
    (htemplate : a.blocks.template.toList.length + nameCount "template" (SourceItem.blocks is)
      ≤ 1) :
    ((SourceItem.found is).foldl Assembly.add a).error = none ∧
      ((SourceItem.found is).foldl Assembly.add a).blocks
        = a.blocks.append (SourceBlock.parts (SourceItem.blocks is)) := by
  induction is generalizing a with
  | nil =>
    refine ⟨ha, ?_⟩
    simp [SourceItem.found, SourceItem.blocks, SourceBlock.parts, Blocks.append]
  | cons i is ih =>
    cases i with
    | block b =>
      rw [SourceItem.blocks, nameCount_cons] at hscript htemplate
      obtain ⟨herror, hblocks⟩ := add_toFound ha b (SourceItem.renderAll is)
        (fun hname => eq_none_of_length (by rw [if_pos hname] at hscript; omega))
        (fun hname => eq_none_of_length (by rw [if_pos hname] at htemplate; omega))
      -- the part of the block takes the room that its name was counted for
      have hscript' := length_toList_or_le a.blocks.script (SourceBlock.parts [b]).script
      have htemplate' := length_toList_or_le a.blocks.template (SourceBlock.parts [b]).template
      rw [length_script_parts] at hscript'
      rw [length_template_parts] at htemplate'
      have hrest := ih herror (by rw [hblocks]; simp only [Blocks.append]; omega)
        (by rw [hblocks]; simp only [Blocks.append]; omega)
      rw [hblocks, Blocks.append_assoc, ← parts_append] at hrest
      exact hrest
    | _ => exact ih ha hscript htemplate

/-- **A written component is split into its parts**, if it has at most one script and at most one
template. -/
theorem split_renderAll (is : List SourceItem)
    (hscript : nameCount "script" (SourceItem.blocks is) ≤ 1)
    (htemplate : nameCount "template" (SourceItem.blocks is) ≤ 1) :
    (split (String.ofList (SourceItem.renderAll is))).outcome
      = .ok (SourceBlock.parts (SourceItem.blocks is)) := by
  obtain ⟨herror, hblocks⟩ := foldl_add is (a := {}) rfl (by simpa using hscript)
    (by simpa using htemplate)
  rw [split, String.toList_ofList, divide_renderAll, assemble]
  simp only [herror]
  rw [Assembly.outcome, herror, hblocks]
  rfl

/-- A tag inside a template that has the name of the template. -/
def innerTag : NamedTag "Template".toList where
  spelling := "template".toList
  tail := " a".toList
  spells := by decide
  delimited := by rintro c ⟨⟩; rfl
  free := by decide

/-- What is too short to hold a name closes nothing. -/
theorem unclosing_of_length {name cs : List Char} (h : cs.length < name.length + 3) :
    Unclosing name cs := by
  rintro before behind rfl ⟨spelling, c, rest, rfl, hspells, -⟩
  have := length_of_spelling hspells
  simp only [List.length_append, List.length_cons] at h
  omega

/-- The tag of a template with a language. -/
def templateTag : SourceTag where
  name := "Template".toList
  attributes := [{
    blanks := ['\n']
    name := "lang".toList
    value := some ⟨'\x22', "a>b".toList, .inl rfl, by decide⟩
    parted := by decide
    isBlank := List.all_eq_true.1 rfl
    named := by decide
    isName := List.all_eq_true.1 rfl }]
  blanks := []
  letter := ⟨'T', rfl, rfl⟩
  isName := List.all_eq_true.1 rfl
  isBlank := List.all_eq_true.1 rfl
  distinct := by decide

/-- The tag of a style with a scope. -/
def styleTag : SourceTag where
  name := "style".toList
  attributes := [{
    blanks := [' ']
    name := "scoped".toList
    value := none
    parted := by decide
    isBlank := List.all_eq_true.1 rfl
    named := by decide
    isName := List.all_eq_true.1 rfl }]
  blanks := []
  letter := ⟨'s', rfl, rfl⟩
  isName := List.all_eq_true.1 rfl
  isBlank := List.all_eq_true.1 rfl
  distinct := by decide

/-- A template in a template, and a style that nearly closes itself. -/
def cardItems : List SourceItem :=
  [.text "a > b".toList (by decide),
   .comment "<style> --".toList (by decide +kernel),
   .empty styleTag,
   .block {
     tag := templateTag
     content := '<' :: innerTag.render ++ [] ++ '<' :: '/' :: innerTag.render ++ []
     closing := innerTag
     encloses := by
       rw [if_neg (by decide)]
       exact .pair innerTag innerTag (by decide) .nil .nil },
   .block {
     tag := styleTag
     content := "p</styl".toList
     closing := ⟨"STYLE".toList, [], by decide, by rintro c ⟨⟩, by decide⟩
     encloses := by
       rw [if_pos (by decide)]
       exact unclosing_of_length (by decide) }]

theorem split_cardItems :
    nameCount "script" (SourceItem.blocks cardItems) ≤ 1 ∧
      nameCount "template" (SourceItem.blocks cardItems) ≤ 1 ∧
      (split ("a > b<!--<style> ----><style scoped/>" ++
        "<Template\nlang=\"a>b\"><template a></template a></template a>" ++
        "<style scoped>p</styl</STYLE>")).outcome
      = .ok { template := some ⟨"<template a></template a>", some "a>b"⟩
              styles := [⟨"p</styl", none, true⟩] } := by
  have hscript : nameCount "script" (SourceItem.blocks cardItems) ≤ 1 := by decide
  have htemplate : nameCount "template" (SourceItem.blocks cardItems) ≤ 1 := by decide
  have hrender : String.ofList (SourceItem.renderAll cardItems)
      = "a > b<!--<style> ----><style scoped/>" ++
        "<Template\nlang=\"a>b\"><template a></template a></template a>" ++
        "<style scoped>p</styl</STYLE>" := by decide +kernel
  have hparts : SourceBlock.parts (SourceItem.blocks cardItems)
      = { template := some ⟨"<template a></template a>", some "a>b"⟩
          styles := [⟨"p</styl", none, true⟩] } := by decide +kernel
  refine ⟨hscript, htemplate, ?_⟩
  rw [← hrender, split_renderAll cardItems hscript htemplate, hparts]

end ComponentCompiler
