import ComponentCompiler.Proofs.Component.TagText

/-!
# Tags inside a block of the same name

Where the end of a block is looked for, a tag of the same name inside it is not read like the tag of
a block: it ends at its first angle bracket, and a slash in front of that bracket means that it
needs no partner.  Both readings agree on a tag exactly if it is `Plain`: no value of an attribute
holds a bracket, and no value without quotes ends with a slash at the end of the tag.

What comes in pairs as tags are read comes in pairs where the end is looked for, if each tag counts
there as it is read (`CountsAlike`).  Besides plain tags these are such with brackets in their
values, as long as the slash in front of the first bracket is right and no tag of the name starts
behind it.

## Main definitions

* `OpenTag.Plain` — the tags that both readings agree on.
* `InnerTag.CountsAlike` — the tags that are counted as they are read.
* `InnerTag`, `Paired` — contents whose tags come in pairs as they are read.

## Main results

* `balanced_of_paired` — tags that count as they are read leave the pairs as they are.
* `inner_tags_read_alike` — **tags inside a block are read alike if and only if they are plain**.
-/

namespace ComponentCompiler

/-! ### Plain tags -/

/-- No value of a tag holds a bracket, and the tag does not end with a slash that belongs to a value
without quotes. -/
structure OpenTag.Plain (t : OpenTag) (inside : List Char) : Prop where
  bracket : ∀ a ∈ t.attributes, '>' ∉ a.2
  slash : t.selfClosing = false →
    ∀ a ∈ t.attributes.getLast?, a.2.getLast? = some '/' → ¬ a.2 <:+ inside

theorem TagText.not_mem_iff {t : OpenTag} {inside : List Char} (h : TagText t inside) :
    '>' ∉ inside ↔ ∀ a ∈ t.attributes, '>' ∉ a.2 := by
  rw [h.bracket, not_exists]
  exact forall_congr' fun a => not_and

/-- A tag is plain if its text holds no bracket and shows by its end whether there is content. -/
theorem TagText.plain_iff {t : OpenTag} {inside : List Char} (h : TagText t inside) :
    t.Plain inside ↔
      '>' ∉ inside ∧ (inside.getLast? = some '/' ↔ t.selfClosing = true) := by
  constructor
  · intro hplain
    refine ⟨h.not_mem_iff.2 hplain.bracket, fun hlast => ?_, fun hself => h.slash.2 (.inl hself)⟩
    rcases h.slash.1 hlast with hself | ⟨a, ha, hvalue, hsuffix⟩
    · exact hself
    · cases hself : t.selfClosing with
      | true => rfl
      | false => exact absurd hsuffix (hplain.slash hself a ha hvalue)
  · rintro ⟨hbracket, hslash⟩
    refine ⟨h.not_mem_iff.1 hbracket, fun hself a ha hvalue hsuffix => ?_⟩
    have hlast := hslash.1 (h.slash.2 (.inr ⟨a, ha, hvalue, hsuffix⟩))
    rw [hself] at hlast
    cases hlast

/-- A text is cut at its first bracket, which is the last one if there is one only. -/
theorem exists_cutAt? (stop : Char) (inside rest : List Char) :
    ∃ inside' rest', cutAt? stop (inside ++ stop :: rest) = some (inside', rest') ∧
      (rest' = rest ↔ stop ∉ inside) ∧ (rest' = rest → inside' = inside) := by
  by_cases hmem : stop ∈ inside
  · obtain ⟨front, back, rfl, hfront⟩ := List.eq_append_cons_of_mem hmem
    have hne : back ++ stop :: rest ≠ rest := by
      intro heq
      have := congrArg List.length heq
      simp at this
      omega
    refine ⟨front, back ++ stop :: rest, ?_, ⟨fun heq => absurd heq hne, fun h => absurd hmem h⟩,
      fun heq => absurd heq hne⟩
    rw [List.append_assoc, List.cons_append, cutAt?_append hfront]
  · exact ⟨inside, rest, cutAt?_append hmem rest, ⟨fun _ => hmem, fun _ => rfl⟩, fun _ => rfl⟩

theorem closingName?_of_openTag? {cs : List Char} {t : OpenTag} (h : openTag? cs = some t)
    (name : List Char) : closingName? name cs = none := by
  rw [closingName?]
  rintro ds rfl
  cases h

/-! ### Contents -/

/-- An opening tag of a name inside a block: the tag as it is read, what follows its name up to the
bracket, and a delimiter behind the name. -/
structure InnerTag (name : List Char) where
  /-- The tag as it is read. -/
  tag : OpenTag
  /-- What follows its name. -/
  inside : List Char
  reads : openTag? (tag.name ++ (inside ++ ['>'])) = some { tag with rest := [] }
  spells : lowerName tag.name = lowerName name
  delimited : ∀ c ∈ inside.head?, isTagDelimiter c = true

/-- An inner tag with the bracket that ends it. -/
def InnerTag.render {name : List Char} (t : InnerTag name) : List Char :=
  t.tag.name ++ (t.inside ++ ['>'])

/-- The tags of a name in a text come in pairs as they are read.  Tags without content need no
partner. -/
inductive Paired (name : List Char) (P : InnerTag name → Prop) : List Char → Prop
  /-- A text without tags of that name. -/
  | nil : Paired name P []
  /-- A character at which no such tag starts. -/
  | char {c : Char} {cs : List Char} :
      ¬ StartsTag name (c :: cs) → Paired name P cs → Paired name P (c :: cs)
  /-- A tag without content. -/
  | empty (t : InnerTag name) {cs : List Char} :
      P t → t.tag.selfClosing = true → Paired name P cs → Paired name P ('<' :: t.render ++ cs)
  /-- A pair of tags. -/
  | pair (t : InnerTag name) (u : NamedTag name) {inside cs : List Char} :
      P t → t.tag.selfClosing = false → Paired name P inside → Paired name P cs →
        Paired name P ('<' :: t.render ++ inside ++ '<' :: '/' :: u.render ++ cs)

theorem InnerTag.tagText {name : List Char} (t : InnerTag name) : TagText t.tag t.inside := by
  obtain ⟨inside, htext, heq⟩ := exists_tagText t.reads
  have hinside : t.inside = inside := by simpa using heq
  rw [hinside]
  exact ⟨htext.reads, htext.bracket, htext.slash⟩

/-- Where the end of the block is looked for, an inner tag ends at its first bracket.  It counts as
it is read if a slash in front of that bracket says whether there is content, and no tag of the name
starts in what is left of the tag. -/
def InnerTag.CountsAlike {name : List Char} (t : InnerTag name) : Prop :=
  ∃ front back, t.inside ++ ['>'] = front ++ '>' :: back ∧ '>' ∉ front ∧
    (front.getLast? = some '/' ↔ t.tag.selfClosing = true) ∧
    ∀ behind, behind <:+ back → ¬ StartsTag name behind

/-- Nothing is left of a plain tag behind its first bracket. -/
theorem InnerTag.countsAlike_of_plain {name : List Char} {t : InnerTag name}
    (h : t.tag.Plain t.inside) : t.CountsAlike := by
  obtain ⟨hfree, hslash⟩ := t.tagText.plain_iff.1 h
  refine ⟨t.inside, [], rfl, hfree, hslash, ?_⟩
  rintro behind hbehind (⟨_, rfl, -⟩ | ⟨_, rfl, -⟩) <;> simp at hbehind

/-- Whether a name stands at the front of a text shows up to the first bracket. -/
theorem startsName_of_append {name cs rest : List Char} (hname : '>' ∉ name)
    (h : StartsName name (cs ++ '>' :: rest)) : StartsName name (cs ++ ['>']) := by
  obtain ⟨spelling, c, behind, heq, hspells, hc⟩ := h
  rcases List.append_eq_append_iff.1 heq with ⟨ds, rfl, hds⟩ | ⟨ds, rfl, hds⟩
  · -- the bracket would be a character of the name
    cases ds with
    | nil => exact ⟨cs, '>', [], rfl, by simpa using hspells, rfl⟩
    | cons d ds =>
      obtain ⟨rfl, -⟩ := List.cons.inj hds
      exact absurd (mem_of_spelling hspells (by decide) (by simp)) hname
  · cases ds with
    | nil => exact ⟨spelling, '>', [], by simp, hspells, rfl⟩
    | cons d ds =>
      obtain ⟨rfl, -⟩ := List.cons.inj hds
      exact ⟨spelling, c, ds ++ ['>'], by simp, hspells, hc⟩

/-- Whether a tag starts at the front of a text shows up to the first bracket. -/
theorem startsTag_of_append {name cs rest : List Char} (hname : '>' ∉ name)
    (h : StartsTag name (cs ++ '>' :: rest)) : StartsTag name (cs ++ ['>']) := by
  rcases h with ⟨behind, heq, hstarts⟩ | ⟨behind, heq, hstarts⟩
  · cases cs with
    | nil => cases heq
    | cons c cs =>
      obtain ⟨rfl, rfl⟩ := List.cons.inj heq
      exact .inl ⟨_, rfl, startsName_of_append hname hstarts⟩
  · cases cs with
    | nil => cases heq
    | cons c cs =>
      obtain ⟨rfl, hslash⟩ := List.cons.inj heq
      cases cs with
      | nil => cases hslash
      | cons c cs =>
        obtain ⟨rfl, rfl⟩ := List.cons.inj hslash
        exact .inr ⟨_, rfl, startsName_of_append hname hstarts⟩

/-- In front of a text whose tags come in pairs may stand what no tag starts in, if it ends with a
bracket. -/
theorem Balanced.behind {name cs : List Char} (h : Balanced name cs) (hname : '>' ∉ name)
    {back : List Char} (hback : ∀ behind, behind <:+ back ++ ['>'] → ¬ StartsTag name behind) :
    Balanced name (back ++ '>' :: cs) := by
  induction back with
  | nil => exact .char (by rintro (⟨_, heq, -⟩ | ⟨_, heq, -⟩) <;> cases heq) h
  | cons c back ih =>
    refine .char (fun hstarts : StartsTag name (c :: back ++ '>' :: cs) => ?_)
      (ih fun behind hb => hback behind ?_)
    · exact hback _ List.suffix_rfl (startsTag_of_append hname hstarts)
    · exact hb.trans (List.suffix_cons c _)

/-- A tag inside a block that counts as it is read, as it looks where the end of the block is looked
for: another tag, and what is left behind it. -/
theorem InnerTag.CountsAlike.exists_named {name : List Char} (hname : '>' ∉ name)
    {t : InnerTag name} (h : t.CountsAlike) :
    ∃ u : NamedTag name, (u.tail.getLast? = some '/' ↔ t.tag.selfClosing = true) ∧
      ∀ cs, Balanced name cs → ∃ ds, Balanced name ds ∧ t.render ++ cs = u.render ++ ds := by
  obtain ⟨front, back, htext, hfree, hslash, hback⟩ := h
  have hdelimited : ∀ c ∈ front.head?, isTagDelimiter c = true := by
    intro c hc
    obtain ⟨front, rfl⟩ := List.head?_eq_some_iff.1 hc
    cases hinside : t.inside with
    | nil => rw [hinside] at htext; simp at htext
    | cons d ds =>
      rw [hinside] at htext
      obtain ⟨rfl, -⟩ := List.cons.inj htext
      exact t.delimited d (by rw [hinside]; rfl)
  refine ⟨⟨t.tag.name, front, t.spells, hdelimited, hfree⟩, hslash, fun cs hcs => ?_⟩
  have hrender : ∀ ds, t.tag.name ++ (front ++ '>' :: back) ++ ds
      = t.tag.name ++ front ++ ['>'] ++ (back ++ ds) := by simp
  refine ⟨back ++ cs, ?_, by rw [InnerTag.render, htext, hrender, NamedTag.render]⟩
  rcases List.eq_nil_or_concat back with rfl | ⟨back, c, rfl⟩
  · exact hcs
  · -- the bracket that ends the tag ends what is left of it
    have hlast : t.inside ++ ['>'] = (front ++ '>' :: back) ++ [c] := by simpa using htext
    obtain ⟨-, hc⟩ := List.append_inj' hlast rfl
    obtain rfl : '>' = c := by simpa using hc
    rw [List.concat_eq_append] at hback ⊢
    rw [List.append_assoc]
    exact hcs.behind hname hback

/-- Tags that come in pairs as they are read come in pairs where the end of the block is looked for,
if each counts as it is read. -/
theorem balanced_of_paired {name content : List Char} (hname : '>' ∉ name)
    (h : Paired name InnerTag.CountsAlike content) : Balanced name content := by
  induction h with
  | nil => exact .nil
  | char hc _ ih => exact .char hc ih
  | empty t hcounts hself _ ih =>
    obtain ⟨u, hslash, hbehind⟩ := hcounts.exists_named hname
    obtain ⟨ds, hds, htext⟩ := hbehind _ ih
    rw [List.cons_append, htext]
    exact .empty u (hslash.2 hself) hds
  | @pair t closing inside cs hcounts hself _ _ ihinside ihcs =>
    obtain ⟨u, hslash, hbehind⟩ := hcounts.exists_named hname
    obtain ⟨ds, hds, htext⟩ := hbehind _ ihinside
    have hopening : '<' :: t.render ++ inside = '<' :: u.render ++ ds := congrArg _ htext
    rw [hopening]
    refine .pair u closing (fun hlast => ?_) hds ihcs
    rw [hslash.1 hlast] at hself
    cases hself

/-! ### Reading inside a block -/

/-- Tags inside a block are read like the tag of the block if and only if they are plain.  The
search for the end of the block goes on behind an inner tag exactly if no value in it holds a
bracket, and it then counts the tag as it is read exactly if the tag is plain.  A block whose inner
tags come in pairs and count as they are read ends at its own closing tag. -/
theorem inner_tags_read_alike {opening : List Char} {block : OpenTag}
    (hblock : openTag? opening = some block) :
    (∀ cs r t, openingName? block.name true cs = some r → openTag? cs = some t →
      ∃ inside inside' rest', TagText t inside ∧ r = inside ++ '>' :: t.rest ∧
        cutAt? '>' r = some (inside', rest') ∧
        (∀ depth, findClose block.name true depth ('<' :: cs)
          = findClose block.name true (if inside'.getLast? == some '/' then depth else depth + 1)
            rest') ∧
        (rest' = t.rest ↔ ∀ a ∈ t.attributes, '>' ∉ a.2) ∧
        (rest' = t.rest ∧ (inside'.getLast? = some '/' ↔ t.selfClosing = true) ↔
          t.Plain inside)) ∧
    (isRawName block.name = false → block.selfClosing = false →
      ∀ content (closing : NamedTag block.name) rest,
        block.rest = content ++ '<' :: '/' :: (closing.render ++ rest) →
        Paired block.name InnerTag.CountsAlike content →
        divide ('<' :: opening)
          = { divide rest with blocks := ⟨block, content⟩ :: (divide rest).blocks }) := by
  have hname := isTagNameChar_of_openTag? hblock
  constructor
  · intro cs r t hopening ht
    obtain ⟨inside, htext, hcs⟩ := exists_tagText ht
    have hr : r = inside ++ '>' :: t.rest := by
      rw [← (span_of_afterName? hname hopening).2]
      have hspan := (List.takeWhile_append_dropWhile (p := isTagNameChar) (l := cs)).trans hcs
      rw [← (name_of_openTag? ht).1] at hspan
      exact List.append_cancel_left hspan
    obtain ⟨inside', rest', hcut, hrest, hinside⟩ := exists_cutAt? '>' inside t.rest
    rw [← hr] at hcut
    refine ⟨inside, inside', rest', htext, hr, hcut, fun depth => ?_, ?_, ?_⟩
    · exact findClose_opening (closingName?_of_openTag? ht _) hopening hcut
    · rw [hrest, htext.not_mem_iff]
    · rw [htext.plain_iff, ← hrest]
      constructor
      · rintro ⟨heq, hlast⟩
        exact ⟨heq, by rw [← hinside heq, hlast]⟩
      · rintro ⟨heq, hlast⟩
        exact ⟨heq, by rw [hinside heq, hlast]⟩
  · intro hraw hself content closing rest hrest hpaired
    have hfree : ∀ {c : Char}, isTagNameChar c = false → c ∉ block.name := by
      intro c hc hmem
      rw [hname c hmem] at hc
      cases hc
    have hne := name_ne_nil_of_openTag? hblock
    obtain ⟨r, hafter, hcut⟩ := closing.afterName?_render rest
    have hclosing : closingName? block.name ('/' :: (closing.render ++ rest)) = some r := hafter
    refine divide_of_findClose hblock hself hrest ?_
    rw [hraw, hrest, Bool.not_false, findClose_of_balanced hne (hfree rfl) (hfree rfl)
      (balanced_of_paired (hfree rfl) hpaired), findClose_closing hclosing hcut]

/-- What stands in a block, and behind it. -/
def nestedText : String := "<template c='d>e'></template\t></TEMPLATE /></template\t>,"

/-- The tag of a block with a bracket in a value.  In the block two tags of its name stand one in
the other, and the inner one has a bracket in a value as well. -/
def outerTag : OpenTag where
  name := "Template".toList
  attributes := [("lang".toList, "a>b".toList)]
  selfClosing := false
  rest := "<template a='/' b=c/d>".toList ++ nestedText.toList

/-- The text that starts with that tag. -/
def outerText : List Char := "Template lang=\"a>b\">".toList ++ outerTag.rest

/-- A tag with slashes in its values. -/
def slashTag : InnerTag outerTag.name where
  tag := ⟨"template".toList, [("a".toList, "/".toList), ("b".toList, "c/d".toList)], false, []⟩
  inside := " a='/' b=c/d".toList
  reads := by decide +kernel
  spells := by decide
  delimited := by rintro c ⟨⟩; rfl

/-- The tag that closes it. -/
def slashClosing : NamedTag outerTag.name where
  spelling := "TEMPLATE".toList
  tail := " /".toList
  spells := by decide
  delimited := by rintro c ⟨⟩; rfl
  free := by decide

/-- A tag with a bracket in its value. -/
def bracketTag : InnerTag outerTag.name where
  tag := ⟨"template".toList, [("c".toList, "d>e".toList)], false, []⟩
  inside := " c='d>e'".toList
  reads := by decide +kernel
  spells := by decide
  delimited := by rintro c ⟨⟩; rfl

/-- The tag that closes it, and the block. -/
def blankClosing : NamedTag outerTag.name where
  spelling := "template".toList
  tail := "\t".toList
  spells := by decide
  delimited := by rintro c ⟨⟩; rfl
  free := by decide

theorem inner_tags_read_alike_slashTag :
    openTag? outerText = some outerTag ∧ slashTag.tag.Plain slashTag.inside ∧
      bracketTag.CountsAlike ∧
      (∀ depth, findClose outerTag.name true depth outerTag.rest
        = findClose outerTag.name true (depth + 1) nestedText.toList) ∧
      divide ('<' :: outerText) = ⟨[⟨outerTag,
        "<template a='/' b=c/d><template c='d>e'></template\t></TEMPLATE />".toList⟩], none⟩ := by
  have hopen : openTag? outerText = some outerTag := by decide +kernel
  have hplain : slashTag.tag.Plain slashTag.inside := by
    constructor
    · decide
    · rintro - a ⟨⟩ hvalue
      exact absurd hvalue (by decide)
  have hcounts : bracketTag.CountsAlike := by
    refine ⟨" c='d".toList, "e'>".toList, by decide, by decide, by decide, ?_⟩
    rintro behind hbehind (⟨_, rfl, -⟩ | ⟨_, rfl, -⟩)
    · exact absurd (hbehind.subset List.mem_cons_self) (by decide)
    · exact absurd (hbehind.subset List.mem_cons_self) (by decide)
  obtain ⟨hinner, houter⟩ := inner_tags_read_alike hopen
  refine ⟨hopen, hplain, hcounts, ?_, ?_⟩
  · obtain ⟨inside, inside', rest', -, hr, -, hfind, -, halike⟩ :=
      hinner outerTag.rest.tail (slashTag.inside ++ '>' :: nestedText.toList)
        { slashTag.tag with rest := nestedText.toList } (by decide +kernel) (by decide +kernel)
    obtain rfl : slashTag.inside = inside := List.append_cancel_right hr
    obtain ⟨rfl, hlast⟩ := halike.2 ⟨hplain.bracket, hplain.slash⟩
    intro depth
    have hdepth : (if inside'.getLast? == some '/' then depth else depth + 1) = depth + 1 :=
      if_neg fun hslash => Bool.false_ne_true (hlast.1 (eq_of_beq hslash))
    exact (hfind depth).trans (by rw [hdepth])
  · have hdivide := houter rfl rfl _ blankClosing [','] (by decide)
      (.pair slashTag slashClosing (InnerTag.countsAlike_of_plain hplain) rfl
        (.pair bracketTag blankClosing hcounts rfl .nil .nil) .nil)
    rw [hdivide, divide_char (by decide), divide]
    rfl

-- A bracket in a value ends the inner tag too early, and the slash in front of it makes the tag
-- need no partner: the block is cut off at the closing tag of the inner one.
example :
    openTag? "template a=\"/>\">b".toList
        = some ⟨"template".toList, [("a".toList, "/>".toList)], false, "b".toList⟩ ∧
      (divide "<template><template a=\"/>\">b</template></template>".toList).blocks.map
        (·.content) = ["<template a=\"/>\">b".toList] := by
  decide +kernel

-- A slash at the end of a value without quotes makes the tag need no partner as well.
example :
    openTag? "template a=b/>c".toList
        = some ⟨"template".toList, [("a".toList, "b/".toList)], false, "c".toList⟩ ∧
      (divide "<template><template a=b/>c</template></template>".toList).blocks.map (·.content)
        = ["<template a=b/>c".toList] := by
  decide +kernel

end ComponentCompiler
