import ComponentCompiler.Component.Split

/-!
# Written components

What a component looks like when it is written down: a row of items, each a text, a comment, a tag
without content or a block.  The parts of an item carry the conditions under which they can be told
apart, so a list of items is always the source of a component.

A block ends at its closing tag, and its content must not look as if it ended earlier.  Of a script
or a style only closing tags of its own name matter (`Unclosing`); in any other block the tags of
its own name come in pairs (`Balanced`).

## Main definitions

* `SourceTag`, `SourceBlock`, `SourceItem` — what a component is written with.
* `NamedTag` — a tag of a given name in any spelling.
* `Unclosing`, `Balanced` — the contents that do not end a block.
* `SourceBlock.parts` — the parts of the component that blocks stand for.

## Main results

* `openTag?_render` — a written tag is read back with its attributes.
-/

namespace ComponentCompiler

open Text (isPlainBlank)

/-! ### Tags with attributes -/

/-- A text between quotes. -/
structure QuotedText where
  /-- The quote on both sides. -/
  quote : Char
  /-- The text. -/
  text : List Char
  isQuote : quote = '\x22' ∨ quote = '\x27'
  free : quote ∉ text

/-- An attribute with the blanks in front of it. -/
structure SourceAttribute where
  /-- The blanks in front. -/
  blanks : List Char
  /-- Its name. -/
  name : List Char
  /-- Its value, if it has one. -/
  value : Option QuotedText
  parted : blanks ≠ []
  isBlank : ∀ c ∈ blanks, isPlainBlank c = true
  named : name ≠ []
  isName : ∀ c ∈ name, isAttributeChar c = true

/-- A quoted text with its quotes and the sign in front. -/
def QuotedText.render (q : QuotedText) : List Char := '=' :: q.quote :: q.text ++ [q.quote]

/-- The text of an attribute's value; without a value it is empty. -/
def SourceAttribute.text (a : SourceAttribute) : List Char :=
  match a.value with
  | none => []
  | some q => q.text

/-- What stands behind the name of an attribute. -/
def SourceAttribute.renderValue (a : SourceAttribute) : List Char :=
  match a.value with
  | none => []
  | some q => q.render

/-- An attribute as it is written. -/
def SourceAttribute.render (a : SourceAttribute) : List Char :=
  a.blanks ++ a.name ++ a.renderValue

/-- What stands between the angle brackets of an opening tag. -/
structure SourceTag where
  /-- Its name. -/
  name : List Char
  /-- Its attributes. -/
  attributes : List SourceAttribute
  /-- The blanks behind the last attribute. -/
  blanks : List Char
  letter : ∃ c ∈ name.head?, c.isAlpha = true
  isName : ∀ c ∈ name, isTagNameChar c = true
  isBlank : ∀ c ∈ blanks, isPlainBlank c = true
  distinct : (attributes.map (·.name)).Nodup

/-- A tag as it is written, without its angle brackets. -/
def SourceTag.render (t : SourceTag) : List Char :=
  t.name ++ t.attributes.flatMap SourceAttribute.render ++ t.blanks

/-- The value of the attribute of a name. -/
def SourceTag.value? (t : SourceTag) (name : String) : Option (List Char) :=
  (t.attributes.find? (·.name == name.toList)).map (·.text)

/-! ### The content of blocks -/

/-- A tag of a given name in any spelling: what stands between its angle brackets, behind the slash
of a closing tag. -/
structure NamedTag (name : List Char) where
  /-- The name as it is spelled. -/
  spelling : List Char
  /-- What follows the name. -/
  tail : List Char
  spells : lowerName spelling = lowerName name
  delimited : ∀ c ∈ tail.head?, isTagDelimiter c = true
  free : '>' ∉ tail

/-- A named tag with the bracket that ends it. -/
def NamedTag.render {name : List Char} (t : NamedTag name) : List Char :=
  t.spelling ++ t.tail ++ ['>']

/-- A name stands at the front of a text, in any spelling and with a delimiter behind it. -/
def StartsName (name cs : List Char) : Prop :=
  ∃ spelling c rest, cs = spelling ++ c :: rest ∧ lowerName spelling = lowerName name ∧
    isTagDelimiter c = true

/-- No closing tag of a name starts anywhere in a text. -/
def Unclosing (name cs : List Char) : Prop :=
  ∀ before behind, cs = before ++ '<' :: '/' :: behind → ¬ StartsName name behind

/-- An opening or a closing tag of a name starts at the front of a text. -/
def StartsTag (name cs : List Char) : Prop :=
  (∃ behind, cs = '<' :: behind ∧ StartsName name behind) ∨
    ∃ behind, cs = '<' :: '/' :: behind ∧ StartsName name behind

/-- The tags of a name in a text come in pairs, one inside the other or side by side.  Opening tags
that end in a slash need no partner. -/
inductive Balanced (name : List Char) : List Char → Prop
  /-- A text without tags of that name. -/
  | nil : Balanced name []
  /-- A character at which no such tag starts. -/
  | char {c : Char} {cs : List Char} :
      ¬ StartsTag name (c :: cs) → Balanced name cs → Balanced name (c :: cs)
  /-- A tag without a partner. -/
  | empty (t : NamedTag name) {cs : List Char} :
      t.tail.getLast? = some '/' → Balanced name cs → Balanced name ('<' :: t.render ++ cs)
  /-- A pair of tags. -/
  | pair (t u : NamedTag name) {inside cs : List Char} :
      t.tail.getLast? ≠ some '/' → Balanced name inside → Balanced name cs →
        Balanced name ('<' :: t.render ++ inside ++ '<' :: '/' :: u.render ++ cs)

/-! ### Items -/

/-- A block with its tags. -/
structure SourceBlock where
  /-- The tag that opens it. -/
  tag : SourceTag
  /-- Its content. -/
  content : List Char
  /-- The tag that closes it. -/
  closing : NamedTag tag.name
  encloses : if isRawName tag.name then Unclosing tag.name content else Balanced tag.name content

/-- What stands side by side in a component. -/
inductive SourceItem where
  /-- A text between tags. -/
  | text (cs : List Char) (free : '<' ∉ cs)
  /-- A comment. -/
  | comment (cs : List Char) (free : ¬ ['-', '-', '>'] <:+: cs)
  /-- A tag without content. -/
  | empty (tag : SourceTag)
  /-- A block. -/
  | block (block : SourceBlock)

/-- What ends a tag, with content behind it or without. -/
def tagEnd (selfClosing : Bool) : List Char := if selfClosing then ['/', '>'] else ['>']

/-- A block as it is written. -/
def SourceBlock.render (b : SourceBlock) : List Char :=
  '<' :: b.tag.render ++ tagEnd false ++ b.content ++ '<' :: '/' :: b.closing.render

/-- An item as it is written. -/
def SourceItem.render : SourceItem → List Char
  | .text cs _ => cs
  | .comment cs _ => '<' :: '!' :: '-' :: '-' :: cs ++ ['-', '-', '>']
  | .empty t => '<' :: t.render ++ tagEnd true
  | .block b => b.render

/-- Items as they are written, one after the other. -/
def SourceItem.renderAll (is : List SourceItem) : List Char := is.flatMap SourceItem.render

/-! ### The parts of a component -/

/-- The name of a block in lower case. -/
def SourceBlock.name (b : SourceBlock) : String := String.ofList (lowerName b.tag.name)

/-- The language that a block names, if that is not empty. -/
def SourceBlock.lang (b : SourceBlock) : Option String :=
  match b.tag.value? "lang" with
  | some (c :: cs) => some (String.ofList (c :: cs))
  | _ => none

/-- Whether a block asks for a scope. -/
def SourceBlock.isScoped (b : SourceBlock) : Bool := (b.tag.value? "scoped").isSome

/-- The template that a block is. -/
def SourceBlock.toTemplate (b : SourceBlock) : TemplateBlock := ⟨String.ofList b.content, b.lang⟩

/-- The style that a block is. -/
def SourceBlock.toStyle (b : SourceBlock) : StyleBlock :=
  ⟨String.ofList b.content, b.lang, b.isScoped⟩

/-- The blocks among items. -/
def SourceItem.blocks : List SourceItem → List SourceBlock
  | [] => []
  | .block b :: is => b :: SourceItem.blocks is
  | _ :: is => SourceItem.blocks is

/-- How often a name stands among blocks. -/
def nameCount (name : String) (bs : List SourceBlock) : Nat := (bs.map SourceBlock.name).count name

/-- The parts that blocks stand for: the script, the template, and the styles in order. -/
def SourceBlock.parts (bs : List SourceBlock) : Blocks where
  script := (bs.find? (·.name == "script")).map (String.ofList ·.content)
  template := (bs.find? (·.name == "template")).map SourceBlock.toTemplate
  styles := (bs.filter (·.name == "style")).map SourceBlock.toStyle

/-! ### Reading tags -/

theorem cutAt?_append {stop : Char} {cs : List Char} (h : stop ∉ cs) (rest : List Char) :
    cutAt? stop (cs ++ stop :: rest) = some (cs, rest) := by
  induction cs with
  | nil => simp [cutAt?]
  | cons c cs ih =>
    have hc : c ≠ stop := fun hc => h (hc ▸ List.mem_cons_self)
    rw [List.cons_append, cutAt?, if_neg (by simpa using hc),
      ih fun hmem => h (List.mem_cons_of_mem _ hmem)]
    rfl

section Steps

variable {name : List Char} {as : List (List Char × List Char)} {cs r : List Char}

/-- Attributes end at the end of the tag. -/
theorem readAttributes_tagEnd {selfClosing : Bool}
    (h : cs.dropWhile isPlainBlank = tagEnd selfClosing ++ r) :
    readAttributes name as cs = some ⟨name, as, selfClosing, r⟩ := by
  cases selfClosing with
  | false =>
    unfold readAttributes
    split
    all_goals simp_all [tagEnd]
  | true =>
    unfold readAttributes
    split
    all_goals simp_all [tagEnd]

/-- A slash that does not end the tag is passed over. -/
theorem readAttributes_slash (h : cs.dropWhile isPlainBlank = '/' :: r)
    (hr : r.head? ≠ some '>') : readAttributes name as cs = readAttributes name as r := by
  rw [readAttributes]
  split
  · next hcs => cases h.symm.trans hcs
  · next hcs => cases h.symm.trans hcs
  · next hcs =>
    obtain ⟨-, rfl⟩ := List.cons.inj (h.symm.trans hcs)
    exact absurd rfl hr
  · next hcs =>
    obtain ⟨-, rfl⟩ := List.cons.inj (h.symm.trans hcs)
    rfl
  · next c _ _ _ hslash hcs =>
    obtain ⟨rfl, -⟩ := List.cons.inj (h.symm.trans hcs)
    exact absurd rfl hslash

/-- An attribute is read, and further ones behind it. -/
theorem readAttributes_attribute {c : Char} {rest : List Char} {a : List Char × List Char}
    (h : cs.dropWhile isPlainBlank = c :: r) (hbracket : c ≠ '>') (hslash : c ≠ '/')
    (ha : attribute? c r = some (a, rest)) :
    readAttributes name as cs = readAttributes name (as ++ [a]) rest := by
  rw [readAttributes]
  split
  · next hcs => cases h.symm.trans hcs
  · next hcs => exact absurd (List.cons.inj (h.symm.trans hcs)).1 hbracket
  · next hcs => exact absurd (List.cons.inj (h.symm.trans hcs)).1 hslash
  · next hcs => exact absurd (List.cons.inj (h.symm.trans hcs)).1 hslash
  · next hcs =>
    obtain ⟨rfl, rfl⟩ := List.cons.inj (h.symm.trans hcs)
    split
    · next hnone => cases ha.symm.trans hnone
    · next a' rest' hsome =>
      obtain ⟨rfl, rfl⟩ := Prod.mk.inj (Option.some.inj (ha.symm.trans hsome))
      rfl

end Steps

/-- A run of characters ends where one stands that does not belong to it. -/
theorem span_append {p : Char → Bool} {cs rest : List Char} (h : ∀ c ∈ cs, p c = true)
    (hrest : ∀ c ∈ rest.head?, p c = false) :
    (cs ++ rest).takeWhile p = cs ∧ (cs ++ rest).dropWhile p = rest := by
  rw [List.takeWhile_append_of_pos h, List.dropWhile_append_of_pos h]
  cases rest with
  | nil => simp
  | cons c rest =>
    have hc : ¬ p c = true := by simp [hrest c rfl]
    rw [List.takeWhile_cons_of_neg hc, List.dropWhile_cons_of_neg hc, List.append_nil]
    exact ⟨rfl, rfl⟩

/-- Blanks around a sign are blanks. -/
theorem dropWhile_isGap (cs : List Char) :
    (cs.dropWhile isGap).dropWhile isPlainBlank = cs.dropWhile isPlainBlank := by
  induction cs with
  | nil => rfl
  | cons c cs ih =>
    by_cases hc : isGap c = true
    · have hblank : isPlainBlank c = true := by
        simp only [isGap, Bool.or_eq_true, beq_iff_eq] at hc
        rcases hc with rfl | rfl <;> rfl
      rw [List.dropWhile_cons_of_pos hc, List.dropWhile_cons_of_pos hblank, ih]
    · rw [List.dropWhile_cons_of_neg hc]

/-- A value in quotes is read, and the text behind it is left. -/
theorem attributeValue?_render (q : QuotedText) (rest : List Char) :
    attributeValue? (q.render ++ rest) = some (q.text, rest) := by
  have hrender : q.render ++ rest = '=' :: q.quote :: (q.text ++ q.quote :: rest) := by
    simp [QuotedText.render]
  rw [hrender, attributeValue?]
  rcases q.isQuote with hq | hq
  all_goals
    rw [hq, List.dropWhile_cons_of_neg (by decide), attributeText?]
    exact cutAt?_append (hq ▸ q.free) rest

/-- What stands behind the name of an attribute is no part of it. -/
theorem isAttributeChar_head?_renderValue {a : SourceAttribute} {rest : List Char}
    (hrest : ∀ d ∈ rest.head?, isAttributeChar d = false) :
    ∀ d ∈ (a.renderValue ++ rest).head?, isAttributeChar d = false := by
  unfold SourceAttribute.renderValue
  split
  · exact hrest
  · rintro d ⟨⟩
    rfl

/-- An attribute is read back; of what stands behind it, blanks may be read as well. -/
theorem attribute?_render (a : SourceAttribute) {c : Char} {cs rest : List Char}
    (hname : a.name = c :: cs) (hstop : ∀ d ∈ rest.head?, isAttributeChar d = false)
    (hsign : (rest.dropWhile isPlainBlank).head? ≠ some '=') :
    ∃ r, attribute? c (cs ++ (a.renderValue ++ rest)) = some ((a.name, a.text), r) ∧
      r.dropWhile isPlainBlank = rest.dropWhile isPlainBlank := by
  have hname' : ∀ d ∈ c :: cs, isAttributeChar d = true := hname ▸ a.isName
  have hc : (c == '=') = false := by
    have hchar := hname' c List.mem_cons_self
    cases heq : c == '=' with
    | false => rfl
    | true =>
      rw [eq_of_beq heq] at hchar
      cases hchar
  obtain ⟨htake, hdrop⟩ := span_append (fun d hd => hname' d (List.mem_cons_of_mem _ hd))
    (isAttributeChar_head?_renderValue (a := a) hstop)
  rw [attribute?, hc, if_neg Bool.false_ne_true, htake, hdrop, hname]
  unfold SourceAttribute.renderValue SourceAttribute.text
  split
  · -- looking for a sign passes over some of the blanks in front of the next attribute
    refine ⟨rest.dropWhile isGap, ?_, dropWhile_isGap rest⟩
    rw [List.nil_append, attributeValue?]
    · rfl
    · intro r hr
      have hblank := dropWhile_isGap rest
      rw [hr, List.dropWhile_cons_of_neg (by decide)] at hblank
      rw [← hblank] at hsign
      exact hsign rfl
  · next q hq =>
    refine ⟨rest, ?_, rfl⟩
    have hgap : (q.render ++ rest).dropWhile isGap = q.render ++ rest :=
      List.dropWhile_cons_of_neg (by decide)
    rw [hgap, attributeValue?_render]
    rfl

/-- What stands in a tag behind some of its attributes. -/
def tagRest (as : List SourceAttribute) (blanks : List Char) (selfClosing : Bool)
    (rest : List Char) : List Char :=
  as.flatMap SourceAttribute.render ++ (blanks ++ (tagEnd selfClosing ++ rest))

theorem isAttributeChar_of_isPlainBlank {c : Char} (h : isPlainBlank c = true) :
    isAttributeChar c = false := by
  simp [isAttributeChar, h]

theorem isPlainBlank_of_isAttributeChar {c : Char} (h : isAttributeChar c = true) :
    isPlainBlank c = false := by
  simp only [isAttributeChar, Bool.not_eq_true', Bool.or_eq_false_iff] at h
  exact h.2

theorem ne_of_isAttributeChar {c d : Char} (hc : isAttributeChar c = true)
    (hd : isAttributeChar d = false) : c ≠ d := by
  rintro rfl
  cases hc.symm.trans hd

theorem dropWhile_tagRest_nil {blanks : List Char} (h : ∀ c ∈ blanks, isPlainBlank c = true)
    (selfClosing : Bool) (rest : List Char) :
    (tagRest [] blanks selfClosing rest).dropWhile isPlainBlank = tagEnd selfClosing ++ rest := by
  rw [tagRest, List.flatMap_nil, List.nil_append, List.dropWhile_append_of_pos h]
  cases selfClosing <;> rfl

theorem dropWhile_tagRest_cons (a : SourceAttribute) (as : List SourceAttribute)
    (blanks : List Char) (selfClosing : Bool) (rest : List Char) :
    (tagRest (a :: as) blanks selfClosing rest).dropWhile isPlainBlank
      = a.name ++ (a.renderValue ++ tagRest as blanks selfClosing rest) := by
  have hrender : tagRest (a :: as) blanks selfClosing rest
      = a.blanks ++ (a.name ++ (a.renderValue ++ tagRest as blanks selfClosing rest)) := by
    simp [tagRest, SourceAttribute.render]
  rw [hrender]
  refine (span_append a.isBlank fun c hc => ?_).2
  obtain ⟨d, ds, hname⟩ := List.exists_cons_of_ne_nil a.named
  rw [hname] at hc
  obtain rfl := Option.some.inj hc
  exact isPlainBlank_of_isAttributeChar (a.isName d (hname ▸ List.mem_cons_self))

/-- The rest of a tag does not go on with a name under way. -/
theorem isAttributeChar_head?_tagRest {blanks : List Char}
    (h : ∀ c ∈ blanks, isPlainBlank c = true) (as : List SourceAttribute) (selfClosing : Bool)
    (rest : List Char) :
    ∀ c ∈ (tagRest as blanks selfClosing rest).head?, isAttributeChar c = false := by
  intro c hc
  cases as with
  | nil =>
    cases blanks with
    | nil =>
      cases selfClosing with
      | false => obtain rfl := Option.some.inj hc; rfl
      | true => obtain rfl := Option.some.inj hc; rfl
    | cons b blanks =>
      obtain rfl := Option.some.inj hc
      exact isAttributeChar_of_isPlainBlank (h b List.mem_cons_self)
  | cons a as =>
    obtain ⟨b, bs, hblanks⟩ := List.exists_cons_of_ne_nil a.parted
    have hb := a.isBlank b (hblanks ▸ List.mem_cons_self)
    simp only [tagRest, List.flatMap_cons, SourceAttribute.render, hblanks, List.cons_append,
      List.head?_cons, Option.mem_def, Option.some.injEq] at hc
    exact isAttributeChar_of_isPlainBlank (hc ▸ hb)

/-- The rest of a tag does not start with a sign, whatever blanks are in front. -/
theorem head?_dropWhile_tagRest {blanks : List Char} (h : ∀ c ∈ blanks, isPlainBlank c = true)
    (as : List SourceAttribute) (selfClosing : Bool) (rest : List Char) :
    ((tagRest as blanks selfClosing rest).dropWhile isPlainBlank).head? ≠ some '=' := by
  cases as with
  | nil =>
    rw [dropWhile_tagRest_nil h]
    cases selfClosing <;> exact fun hc => absurd (Option.some.inj hc) (by decide)
  | cons a as =>
    rw [dropWhile_tagRest_cons]
    obtain ⟨c, cs, hname⟩ := List.exists_cons_of_ne_nil a.named
    have hc := a.isName c (hname ▸ List.mem_cons_self)
    rw [hname]
    rintro ⟨⟩
    cases hc

/-- The attributes of a tag are read back in order. -/
theorem readAttributes_tagRest {blanks : List Char} (hblanks : ∀ c ∈ blanks, isPlainBlank c = true)
    (selfClosing : Bool) (rest name : List Char) (as : List SourceAttribute)
    (read : List (List Char × List Char)) (cs : List Char)
    (h : cs.dropWhile isPlainBlank
      = (tagRest as blanks selfClosing rest).dropWhile isPlainBlank) :
    readAttributes name read cs
      = some ⟨name, read ++ as.map fun a => (a.name, a.text), selfClosing, rest⟩ := by
  induction as generalizing read cs with
  | nil =>
    rw [dropWhile_tagRest_nil hblanks] at h
    rw [readAttributes_tagEnd h, List.map_nil, List.append_nil]
  | cons a as ih =>
    rw [dropWhile_tagRest_cons] at h
    obtain ⟨c, ds, hname⟩ := List.exists_cons_of_ne_nil a.named
    obtain ⟨r, hr, hblank⟩ := attribute?_render a hname
      (isAttributeChar_head?_tagRest hblanks as selfClosing rest)
      (head?_dropWhile_tagRest hblanks as selfClosing rest)
    have hc : isAttributeChar c = true := a.isName c (hname ▸ List.mem_cons_self)
    rw [hname, List.cons_append] at h
    rw [readAttributes_attribute h (ne_of_isAttributeChar hc rfl) (ne_of_isAttributeChar hc rfl) hr,
      ih _ _ hblank, List.append_assoc]
    rfl

theorem isTagNameChar_of_isAttributeChar {c : Char} (h : isAttributeChar c = false) :
    isTagNameChar c = false := by
  simp only [isAttributeChar, isPlainBlank, Bool.not_eq_false', Bool.or_eq_true, beq_iff_eq] at h
  rcases h with ((rfl | rfl) | rfl) | (((rfl | rfl) | rfl) | rfl) | rfl <;> decide

/-- The tag that is read where one is written. -/
def SourceTag.toOpen (t : SourceTag) (selfClosing : Bool) (rest : List Char) : OpenTag :=
  ⟨t.name, t.attributes.map fun a => (a.name, a.text), selfClosing, rest⟩

/-- A written tag is read back with its attributes. -/
theorem openTag?_render (t : SourceTag) (selfClosing : Bool) (rest : List Char) :
    openTag? (t.render ++ (tagEnd selfClosing ++ rest)) = some (t.toOpen selfClosing rest) := by
  obtain ⟨c, hc, halpha⟩ := t.letter
  obtain ⟨cs, hname⟩ := List.head?_eq_some_iff.1 hc
  have hrender : t.render ++ (tagEnd selfClosing ++ rest)
      = t.name ++ tagRest t.attributes t.blanks selfClosing rest := by
    simp [SourceTag.render, tagRest]
  obtain ⟨htake, hdrop⟩ := span_append t.isName fun d hd =>
    isTagNameChar_of_isAttributeChar
      (isAttributeChar_head?_tagRest t.isBlank t.attributes selfClosing rest d hd)
  rw [openTag?, hrender, htake, hdrop, SourceTag.toOpen, hname]
  show (if c.isAlpha = true then _ else _) = _
  rw [if_pos halpha, readAttributes_tagRest t.isBlank selfClosing rest (c :: cs) t.attributes [] _
    rfl, List.nil_append]

/-- In attributes of different names, it does not matter from which end one is looked for. -/
theorem find?_reverse_of_nodup {as : List (List Char × List Char)} (h : (as.map (·.1)).Nodup)
    (name : List Char) :
    as.reverse.find? (·.1 == name) = as.find? (·.1 == name) := by
  induction as with
  | nil => rfl
  | cons a as ih =>
    obtain ⟨hnot, hnodup⟩ := List.nodup_cons.1 h
    rw [List.reverse_cons, List.find?_append, ih hnodup]
    by_cases ha : (a.1 == name) = true
    · have hnone : as.find? (·.1 == name) = none := by
        rw [List.find?_eq_none]
        intro b hb hbn
        exact hnot (List.mem_map.2 ⟨b, hb, (eq_of_beq hbn).trans (eq_of_beq ha).symm⟩)
      simp [hnone, ha]
    · simp [ha]

/-- The attributes of a tag that is read have the values that were written. -/
theorem attribute?_toOpen (t : SourceTag) (selfClosing : Bool) (rest : List Char)
    (name : String) : (t.toOpen selfClosing rest).attribute? name = t.value? name := by
  have hnodup : ((t.attributes.map fun a => (a.name, a.text)).map (·.1)).Nodup := by
    rw [List.map_map]
    exact t.distinct
  rw [OpenTag.attribute?, SourceTag.toOpen, find?_reverse_of_nodup hnodup, List.find?_map,
    Option.map_map]
  rfl

end ComponentCompiler
