import ComponentCompiler.Proofs.Component.TagText

/-!
# The segments of a source

Every source falls into segments, from left to right: blocks, tags without content, comments, and
single characters at which none of these starts.  A comment that is never closed takes the rest of
the source, and a block that is never closed ends the division in front of it.  Here the segments of
an arbitrary source are recovered from the search that divides it, with what is known of each.

## Main definitions

* `Enclosed` — a block with its tags.
* `Segment`, `Segment.Standing` — the segments of a source.
* `Lacking` — texts in which closing tags of a name have no partner.
* `Blocks.Holds` — the parts of a component are those of given blocks.

## Main results

* `exists_closing` — what is passed over up to a closing tag.
* `exists_segments` — the segments of a source.
* `foldl_add_cases` — the parts of the blocks, or the first one too many.
-/

namespace ComponentCompiler

/-! ### Closing tags -/

/-- A tag of a name, recovered from where it was recognised. -/
theorem exists_namedTag {name cs r inside rest : List Char} (h : afterName? name cs = some r)
    (hcut : cutAt? '>' r = some (inside, rest)) :
    ∃ t : NamedTag name, t.tail = inside ∧ cs = t.render ++ rest := by
  obtain ⟨spelling, c, ds, rfl, hspells, hdelim⟩ := startsName_of_afterName? h
  rw [afterName?_spelling hspells hdelim] at h
  obtain rfl := Option.some.inj h
  obtain ⟨heq, hfree⟩ := cutAt?_eq_some hcut
  have hdelimited : ∀ d ∈ inside.head?, isTagDelimiter d = true := by
    intro d hd
    obtain ⟨ds', rfl⟩ := List.head?_eq_some_iff.1 hd
    obtain ⟨rfl, -⟩ := List.cons.inj heq
    exact hdelim
  refine ⟨⟨spelling, inside, hspells, hdelimited, hfree⟩, rfl, ?_⟩
  rw [heq]
  simp [NamedTag.render]

theorem startsName_append {name cs : List Char} (h : StartsName name cs) (rest : List Char) :
    StartsName name (cs ++ rest) := by
  obtain ⟨spelling, c, ds, rfl, hspells, hdelim⟩ := h
  exact ⟨spelling, c, ds ++ rest, by simp, hspells, hdelim⟩

theorem afterName?_of_startsName {name cs : List Char} (h : StartsName name cs) :
    (afterName? name cs).isSome = true := by
  obtain ⟨spelling, c, ds, rfl, hspells, hdelim⟩ := h
  rw [afterName?_spelling hspells hdelim]
  rfl

/-- In a text, `depth` closing tags of a name have no partner. -/
inductive Lacking (name : List Char) : Nat → List Char → Prop
  /-- All tags of that name come in pairs. -/
  | none {cs : List Char} : Balanced name cs → Lacking name 0 cs
  /-- A closing tag has no partner in front of it. -/
  | closing {depth : Nat} {front cs : List Char} (t : NamedTag name) :
      Balanced name front → Lacking name depth cs →
        Lacking name (depth + 1) (front ++ '<' :: '/' :: (t.render ++ cs))

/-- What is put in front of paired tags can be put in front of other texts. -/
theorem Lacking.behind {name cs : List Char} {depth : Nat} (h : Lacking name depth cs)
    (front : List Char)
    (hfront : ∀ ds, ds <+: cs → Balanced name ds → Balanced name (front ++ ds)) :
    Lacking name depth (front ++ cs) := by
  cases h with
  | none hcs => exact .none (hfront _ List.prefix_rfl hcs)
  | closing t hds hcs =>
    rw [← List.append_assoc]
    exact .closing t (hfront _ (List.prefix_append _ _) hds) hcs

/-- A closing tag becomes the partner of an opening tag in front. -/
theorem Lacking.opening {name cs : List Char} {depth : Nat} (h : Lacking name (depth + 1) cs)
    (t : NamedTag name) (hlast : t.tail.getLast? ≠ some '/') :
    Lacking name depth ('<' :: t.render ++ cs) := by
  cases h with
  | @closing _ front cs u hfront hcs =>
    have htext : '<' :: t.render ++ (front ++ '<' :: '/' :: (u.render ++ cs))
        = ('<' :: t.render ++ front ++ '<' :: '/' :: u.render) ++ cs := by
      simp
    rw [htext]
    exact hcs.behind _ fun ds _ hds => .pair t u hlast hfront hds

theorem exists_of_closing {name cs inside rest : List Char}
    (h : (closingName? name cs).map (cutAt? '>') = some (some (inside, rest))) :
    ∃ t : NamedTag name, cs = '/' :: (t.render ++ rest) := by
  obtain ⟨r, hclosing, hcut⟩ := Option.map_eq_some_iff.1 h
  obtain ⟨ds, rfl, hafter⟩ := closingName?_eq_some hclosing
  obtain ⟨t, -, rfl⟩ := exists_namedTag hafter hcut
  exact ⟨t, rfl⟩

/-- Where no closing tag is recognised, no name stands behind the slash. -/
theorem not_startsName_of_closing {name behind rest : List Char}
    (h : closingName? name ('/' :: behind ++ rest) = none) : ¬ StartsName name behind := by
  intro hstarts
  have hafter := afterName?_of_startsName (startsName_append hstarts rest)
  rw [List.cons_append, closingName?] at h
  rw [h] at hafter
  cases hafter

/-- Where no tag is recognised, none starts in what is passed over. -/
theorem not_startsTag {name cs : List Char} (hclosing : closingName? name cs = none)
    (hopening : afterName? name cs = none) {ds : List Char} (hds : ds <+: cs) :
    ¬ StartsTag name ('<' :: ds) := by
  obtain ⟨rest, rfl⟩ := hds
  rintro (⟨behind, heq, hstarts⟩ | ⟨behind, heq, hstarts⟩)
  · obtain ⟨-, rfl⟩ := List.cons.inj heq
    have := afterName?_of_startsName (startsName_append hstarts rest)
    rw [hopening] at this
    cases this
  · obtain ⟨-, rfl⟩ := List.cons.inj heq
    exact not_startsName_of_closing hclosing hstarts

/-- What is passed over up to the closing tag of a block in which inner tags count. -/
theorem exists_closing_nested {name cs close rest : List Char} {depth : Nat}
    (h : findClose name true depth cs = some (close, rest)) :
    ∃ content, ∃ t : NamedTag name, cs = content ++ close ∧
      close = '<' :: '/' :: (t.render ++ rest) ∧ Lacking name depth content := by
  -- what was passed over lacks as many partners as blocks are open where the search started
  fun_induction findClose name true depth cs with
  | case1 => cases h
  | case2 depth c cs hc ih =>
    obtain ⟨content, t, rfl, hclose, hlacking⟩ := ih h
    refine ⟨c :: content, t, rfl, hclose, hlacking.behind [c] fun ds _ hds => .char ?_ hds⟩
    have hbracket : c ≠ '<' := by simpa using hc
    rintro (⟨behind, heq, -⟩ | ⟨behind, heq, -⟩) <;> exact hbracket (List.cons.inj heq).1
  | case3 => cases h
  | case4 c cs hc inside r hclosing =>
    obtain ⟨rfl, rfl⟩ := Prod.mk.inj (Option.some.inj h)
    obtain rfl : c = '<' := by simpa using hc
    obtain ⟨t, rfl⟩ := exists_of_closing hclosing
    exact ⟨[], t, rfl, rfl, .none .nil⟩
  | case5 c cs hc inside r hclosing d _ ih =>
    obtain ⟨content, t, rfl, hclose, hlacking⟩ := ih h
    obtain rfl : c = '<' := by simpa using hc
    obtain ⟨u, rfl⟩ := exists_of_closing hclosing
    refine ⟨'<' :: '/' :: (u.render ++ content), t, ?_, hclose, .closing u .nil hlacking⟩
    simp
  | case6 => cases h
  | case7 depth c cs hc hclosing inside r hopening _ ih =>
    obtain ⟨content, t, rfl, hclose, hlacking⟩ := ih h
    obtain rfl : c = '<' := by simpa using hc
    obtain ⟨r', hafter, hcut⟩ := Option.map_eq_some_iff.1 hopening
    obtain ⟨u, rfl, rfl⟩ := exists_namedTag (openingName?_eq_some hafter) hcut
    refine ⟨'<' :: u.render ++ content, t, by simp, hclose, ?_⟩
    by_cases hlast : u.tail.getLast? = some '/'
    · rw [dif_pos (by simpa using hlast)] at hlacking
      exact hlacking.behind _ fun ds _ hds => .empty u hlast hds
    · rw [dif_neg (by simpa using hlast)] at hlacking
      exact hlacking.opening u hlast
  | case8 depth c cs hc hclosing hopening ih =>
    obtain ⟨content, t, rfl, hclose, hlacking⟩ := ih h
    obtain rfl : c = '<' := by simpa using hc
    have hskip : ∀ ds, ds <+: content → ¬ StartsTag name ('<' :: ds) := fun ds hds =>
      not_startsTag (Option.map_eq_none_iff.1 hclosing) (Option.map_eq_none_iff.1 hopening)
        (hds.trans (List.prefix_append _ _))
    exact ⟨'<' :: content, t, rfl, hclose,
      hlacking.behind ['<'] fun ds hprefix hds => .char (hskip ds hprefix) hds⟩

/-- What is passed over up to the closing tag of a block of raw text. -/
theorem exists_closing_raw {name cs close rest : List Char}
    (h : findClose name false 0 cs = some (close, rest)) :
    ∃ content, ∃ t : NamedTag name, cs = content ++ close ∧
      close = '<' :: '/' :: (t.render ++ rest) ∧ Unclosing name content := by
  -- opening tags are not looked for here, so the depth never leaves zero
  generalize hdepth : 0 = depth at h
  fun_induction findClose name false depth cs with
  | case1 => cases h
  | case2 depth c cs hc ih =>
    obtain ⟨content, t, rfl, hclose, hunclosing⟩ := ih hdepth h
    refine ⟨c :: content, t, rfl, hclose, fun before behind heq => ?_⟩
    cases before with
    | nil => exact absurd (List.cons.inj heq).1 (by simpa using hc)
    | cons d before => exact hunclosing before behind (List.cons.inj heq).2
  | case3 => cases h
  | case4 c cs hc inside r hclosing =>
    obtain ⟨rfl, rfl⟩ := Prod.mk.inj (Option.some.inj h)
    obtain rfl : c = '<' := by simpa using hc
    obtain ⟨t, rfl⟩ := exists_of_closing hclosing
    exact ⟨[], t, rfl, rfl, by simp [Unclosing]⟩
  | case5 c cs hc inside r hclosing d _ ih => cases hdepth
  | case6 => cases h
  | case7 depth c cs hc hclosing inside r hopening _ ih => cases hopening
  | case8 depth c cs hc hclosing hopening ih =>
    obtain ⟨content, t, rfl, hclose, hunclosing⟩ := ih hdepth h
    obtain rfl : c = '<' := by simpa using hc
    refine ⟨'<' :: content, t, rfl, hclose, fun before behind heq hstarts => ?_⟩
    cases before with
    | nil =>
      obtain ⟨-, rfl⟩ := List.cons.inj heq
      exact not_startsName_of_closing (Option.map_eq_none_iff.1 hclosing) hstarts
    | cons d before => exact hunclosing before behind (List.cons.inj heq).2 hstarts

/-- What is passed over up to the closing tag of a block. -/
theorem exists_closing {name cs close rest : List Char}
    (h : findClose name (!isRawName name) 0 cs = some (close, rest)) :
    ∃ content, ∃ t : NamedTag name, cs = content ++ close ∧
      close = '<' :: '/' :: (t.render ++ rest) ∧
      if isRawName name then Unclosing name content else Balanced name content := by
  cases hraw : isRawName name with
  | true =>
    rw [hraw] at h
    simpa using exists_closing_raw h
  | false =>
    rw [hraw] at h
    obtain ⟨content, t, hcs, hclose, hlacking⟩ := exists_closing_nested h
    cases hlacking with
    | none hbalanced => exact ⟨content, t, hcs, hclose, by simpa using hbalanced⟩

/-! ### Segments -/

/-- A block in a source. -/
structure Enclosed where
  /-- The tag that opens it. -/
  tag : OpenTag
  /-- What stands in that tag behind its name. -/
  inside : List Char
  /-- Its content. -/
  content : List Char
  /-- The tag that closes it. -/
  closing : NamedTag tag.name
  reads : TagText tag inside
  hasContent : tag.selfClosing = false
  encloses : if isRawName tag.name then Unclosing tag.name content else Balanced tag.name content

/-- What stands side by side in a source. -/
inductive Segment where
  /-- A character at which nothing else starts. -/
  | char (c : Char)
  /-- A comment. -/
  | comment (inside : List Char) (free : ¬ ['-', '-', '>'] <:+: inside)
  /-- A comment that is never closed. -/
  | openComment (inside : List Char) (free : ¬ ['-', '-', '>'] <:+: inside)
  /-- A tag without content. -/
  | empty (tag : OpenTag) (inside : List Char) (reads : TagText tag inside)
      (isEmpty : tag.selfClosing = true)
  /-- A block. -/
  | block (b : Enclosed)

/-- The text of a block. -/
def Enclosed.render (b : Enclosed) : List Char :=
  '<' :: (b.tag.name ++ (b.inside ++ '>' :: (b.content ++ '<' :: '/' :: b.closing.render)))

/-- A block as it is found. -/
def Enclosed.found (b : Enclosed) : FoundBlock := ⟨b.tag, b.content⟩

namespace Segment

/-- The text of a segment. -/
def render : Segment → List Char
  | char c => [c]
  | comment inside _ => '<' :: '!' :: '-' :: '-' :: (inside ++ ['-', '-', '>'])
  | openComment inside _ => '<' :: '!' :: '-' :: '-' :: inside
  | empty tag inside _ _ => '<' :: (tag.name ++ (inside ++ ['>']))
  | block b => b.render

/-- The text of segments. -/
def renderAll (gs : List Segment) : List Char := gs.flatMap render

/-- What a segment asks of the text behind it: at a bracket that is a character of its own neither
a tag nor a comment starts, and nothing is behind a comment that is never closed. -/
def Stands : Segment → List Char → Prop
  | char c, behind => c = '<' → openTag? behind = none ∧ ¬ ['!', '-', '-'] <+: behind
  | openComment _ _, behind => behind = []
  | _, _ => True

/-- The segments of a text in front of a tail. -/
def Standing : List Segment → List Char → Prop
  | [], _ => True
  | g :: gs, tail => g.Stands (renderAll gs ++ tail) ∧ Standing gs tail

/-- The block that a segment is. -/
def found? : Segment → Option FoundBlock
  | block b => some b.found
  | _ => none

/-- The blocks among segments. -/
def blocks (gs : List Segment) : List FoundBlock := gs.filterMap found?

theorem standing_append {gs hs : List Segment} {tail : List Char} :
    Standing (gs ++ hs) tail ↔ Standing gs (renderAll hs ++ tail) ∧ Standing hs tail := by
  induction gs with
  | nil => simp [Standing]
  | cons g gs ih =>
    simp only [List.cons_append, Standing, ih, renderAll, List.flatMap_append, List.append_assoc,
      and_assoc]

end Segment

/-- A comment ends at its first mark. -/
theorem afterComment?_eq_some {cs r : List Char} (h : afterComment? cs = some r) :
    ∃ inside, ¬ ['-', '-', '>'] <:+: inside ∧ cs = inside ++ '-' :: '-' :: '>' :: r := by
  fun_induction afterComment? cs with
  | case1 cs =>
    obtain rfl := Option.some.inj h
    exact ⟨[], by decide, rfl⟩
  | case2 c cs hc ih =>
    obtain ⟨inside, hfree, rfl⟩ := ih h
    refine ⟨c :: inside, fun hmark => ?_, rfl⟩
    rcases List.infix_cons_iff.1 hmark with ⟨ds, hds⟩ | hmark
    · obtain ⟨rfl, rfl⟩ := List.cons.inj hds
      exact hc _ rfl rfl
    · exact hfree hmark
  | case3 => cases h

theorem not_mark_of_afterComment? {cs : List Char} (h : afterComment? cs = none) :
    ¬ ['-', '-', '>'] <:+: cs := by
  fun_induction afterComment? cs with
  | case1 cs => cases h
  | case2 c cs hc ih =>
    intro hmark
    rcases List.infix_cons_iff.1 hmark with ⟨ds, hds⟩ | hmark
    · obtain ⟨rfl, rfl⟩ := List.cons.inj hds
      exact hc _ rfl rfl
    · exact ih h hmark
  | case3 => decide

/-- The text that is left where a division ends: none, or a block that is never closed. -/
inductive Leaves : Option (List Char × List Char) → List Char → Prop
  /-- The division gets to the end. -/
  | nothing : Leaves none []
  /-- The division stops at a block that is never closed. -/
  | unclosed {after : List Char} {tag : OpenTag} (hopen : openTag? after = some tag)
      (hcontent : tag.selfClosing = false)
      (hclose : findClose tag.name (!isRawName tag.name) 0 tag.rest = none) :
      Leaves (some (tag.name, '<' :: after)) ('<' :: after)

/-- Every source falls into segments, and the blocks among them are those that are found. -/
theorem exists_segments (cs : List Char) :
    ∃ gs tail, cs = Segment.renderAll gs ++ tail ∧ Segment.Standing gs tail ∧
      (divide cs).blocks = Segment.blocks gs ∧ Leaves (divide cs).unclosed tail := by
  fun_induction divide cs with
  | case1 => exact ⟨[], [], rfl, trivial, rfl, .nothing⟩
  | case2 cs r h _ ih =>
    obtain ⟨gs, tail, rfl, hstanding, hblocks, hleaves⟩ := ih
    obtain ⟨inside, hfree, rfl⟩ := afterComment?_eq_some h
    exact ⟨.comment inside hfree :: gs, tail, by simp [Segment.renderAll, Segment.render],
      ⟨trivial, hstanding⟩, hblocks, hleaves⟩
  | case3 cs h =>
    exact ⟨[.openComment cs (not_mark_of_afterComment? h)], [],
      by simp [Segment.renderAll, Segment.render], ⟨rfl, trivial⟩, rfl, .nothing⟩
  | case4 c cs hcomment hc ih =>
    obtain ⟨gs, tail, rfl, hstanding, hblocks, hleaves⟩ := ih
    refine ⟨.char c :: gs, tail, rfl, ⟨fun hbracket => ?_, hstanding⟩, hblocks, hleaves⟩
    exact absurd hbracket (by simpa using hc)
  | case5 c cs hcomment hc h ih =>
    obtain ⟨gs, tail, rfl, hstanding, hblocks, hleaves⟩ := ih
    refine ⟨.char c :: gs, tail, rfl, ⟨fun hbracket => ⟨h, ?_⟩, hstanding⟩, hblocks, hleaves⟩
    rintro ⟨ds, hds⟩
    exact hcomment ds hbracket hds.symm
  | case6 c cs hcomment hc tag h hself _ ih =>
    obtain ⟨gs, tail, hrest, hstanding, hblocks, hleaves⟩ := ih
    obtain rfl : c = '<' := by simpa using hc
    obtain ⟨inside, htext, rfl⟩ := exists_tagText h
    refine ⟨.empty tag inside htext hself :: gs, tail, ?_, ⟨trivial, hstanding⟩, hblocks, hleaves⟩
    rw [hrest]
    simp [Segment.renderAll, Segment.render]
  | case7 c cs hcomment hc tag h hself hclose =>
    obtain rfl : c = '<' := by simpa using hc
    exact ⟨[], _, rfl, trivial, rfl, .unclosed h (by simpa using hself) hclose⟩
  | case8 c cs hcomment hc tag h hself close rest hclose _ d content ih =>
    obtain ⟨gs, tail, rfl, hstanding, hblocks, hleaves⟩ := ih
    obtain rfl : c = '<' := by simpa using hc
    obtain ⟨inside, htext, rfl⟩ := exists_tagText h
    obtain ⟨text, closing, hrest, rfl, hencloses⟩ := exists_closing hclose
    -- the content is cut off by its length, which is that of the text in front of the closing tag
    have hcontent : content = text := by
      change tag.rest.take _ = text
      rw [hrest]
      simp
    refine ⟨.block ⟨tag, inside, text, closing, htext, by simpa using hself, hencloses⟩ :: gs, tail,
      ?_, ⟨trivial, hstanding⟩, ?_, hleaves⟩
    · rw [hrest]
      simp [Segment.renderAll, Segment.render, Enclosed.render]
    · rw [hcontent]
      exact congrArg _ hblocks

/-! ### The parts of a component -/

/-- The template that a block is. -/
def FoundBlock.toTemplate (b : FoundBlock) : TemplateBlock := ⟨String.ofList b.content, b.lang⟩

/-- The style that a block is. -/
def FoundBlock.toStyle (b : FoundBlock) : StyleBlock :=
  ⟨String.ofList b.content, b.lang, b.isScoped⟩

/-- The blocks of a name. -/
def FoundBlock.named (name : String) (bs : List FoundBlock) : List FoundBlock :=
  bs.filter (·.name == name)

/-- The parts of a component are the blocks of their names: no more than one script, no more than
one template, and the styles in order. -/
structure Blocks.Holds (p : Blocks) (bs : List FoundBlock) : Prop where
  script : p.script.toList = (FoundBlock.named "script" bs).map (String.ofList ·.content)
  template : p.template.toList = (FoundBlock.named "template" bs).map FoundBlock.toTemplate
  styles : p.styles = (FoundBlock.named "style" bs).map FoundBlock.toStyle

theorem named_concat (name : String) (bs : List FoundBlock) (b : FoundBlock) :
    FoundBlock.named name (bs ++ [b])
      = FoundBlock.named name bs ++ if b.name = name then [b] else [] := by
  by_cases h : b.name = name <;> simp [FoundBlock.named, h]

/-- Where there is a part of a kind, there is one block of its name. -/
theorem exists_of_map_eq {α : Type} {f : FoundBlock → α} {x : α} {bs : List FoundBlock}
    (h : [x] = bs.map f) : ∃ b, bs = [b] := by
  obtain ⟨b, rest, hbs, -, hrest⟩ := List.map_eq_cons_iff.1 h.symm
  exact ⟨b, by rw [hbs, List.map_eq_nil_iff.1 hrest]⟩

/-- A further block adds its part, or is one too many. -/
theorem add_cases {a : Assembly} {bs : List FoundBlock} (ha : a.error = none)
    (h : a.blocks.Holds bs) (b : FoundBlock) :
    ((a.add b).error = none ∧ (a.add b).blocks.Holds (bs ++ [b])) ∨
      ((a.add b).error = some (.duplicate b.name) ∧ (b.name = "script" ∨ b.name = "template") ∧
        ∃ b', FoundBlock.named b.name bs = [b']) := by
  obtain ⟨hscripts, htemplates, hstyles⟩ := h
  -- a template, a script, a style, or a block that is no part
  unfold Assembly.add
  rw [ha]
  simp only [Option.isSome_none, Bool.false_eq_true, if_false]
  split
  · next hname =>
    cases hsome : a.blocks.template with
    | none =>
      rw [hsome] at htemplates
      refine .inl ⟨rfl, ?_, ?_, ?_⟩
      all_goals simp [named_concat, hname, hscripts, ← htemplates, hstyles, FoundBlock.toTemplate]
    | some t =>
      rw [hsome] at htemplates
      refine .inr ⟨by simp [hname], .inr hname, ?_⟩
      rw [hname]
      exact exists_of_map_eq htemplates
  · next hname =>
    cases hsome : a.blocks.script with
    | none =>
      rw [hsome] at hscripts
      refine .inl ⟨rfl, ?_, ?_, ?_⟩
      all_goals simp [named_concat, hname, ← hscripts, htemplates, hstyles]
    | some t =>
      rw [hsome] at hscripts
      refine .inr ⟨by simp [hname], .inl hname, ?_⟩
      rw [hname]
      exact exists_of_map_eq hscripts
  · next hname =>
    refine .inl ⟨rfl, ?_, ?_, ?_⟩
    all_goals simp [named_concat, hname, hscripts, htemplates, hstyles, FoundBlock.toStyle]
  · next hnotTemplate hnotScript hnotStyle =>
    refine .inl ⟨rfl, ?_, ?_, ?_⟩
    all_goals
      simp [named_concat, hscripts, htemplates, hstyles,
        show b.name ≠ "template" from hnotTemplate, show b.name ≠ "script" from hnotScript,
        show b.name ≠ "style" from hnotStyle]

theorem add_of_error {a : Assembly} {e : SplitError} (h : a.error = some e) (b : FoundBlock) :
    a.add b = a := by
  rw [Assembly.add, h]
  rfl

theorem foldl_add_of_error {a : Assembly} {e : SplitError} (h : a.error = some e)
    (bs : List FoundBlock) : bs.foldl Assembly.add a = a := by
  induction bs with
  | nil => rfl
  | cons b bs ih => rw [List.foldl_cons, add_of_error h, ih]

/-- Blocks are put together into their parts, up to the first one that is one too many. -/
theorem foldl_add_cases {a : Assembly} {before : List FoundBlock} (ha : a.error = none)
    (h : a.blocks.Holds before) (bs : List FoundBlock) :
    ((bs.foldl Assembly.add a).error = none ∧
        (bs.foldl Assembly.add a).blocks.Holds (before ++ bs)) ∨
      ∃ front b back, bs = front ++ b :: back ∧
        (bs.foldl Assembly.add a).error = some (.duplicate b.name) ∧
        (b.name = "script" ∨ b.name = "template") ∧
        ∃ b', FoundBlock.named b.name (before ++ front) = [b'] := by
  induction bs generalizing a before with
  | nil => exact .inl ⟨ha, by rwa [List.append_nil]⟩
  | cons b bs ih =>
    rw [List.foldl_cons]
    rcases add_cases ha h b with ⟨herror, hholds⟩ | ⟨herror, hname, hone⟩
    · rcases ih herror hholds with ⟨hend, hall⟩ | ⟨front, b', back, rfl, hend, hname, hone⟩
      · rw [List.append_assoc] at hall
        exact .inl ⟨hend, hall⟩
      · rw [List.append_assoc] at hone
        exact .inr ⟨b :: front, b', back, rfl, hend, hname, hone⟩
    · rw [foldl_add_of_error herror]
      exact .inr ⟨[], b, bs, rfl, herror, hname, by rwa [List.append_nil]⟩

/-- The outcome of putting further blocks together with those that are put together already;
`size` is the length of the source in bytes. -/
def Assembly.complete (a : Assembly) (size : Nat) (d : Division) : Except SplitError Blocks :=
  match (d.blocks.foldl Assembly.add a).error, d.unclosed with
  | some e, _ => .error e
  | none, some (name, rest) =>
      .error (.unclosed (String.ofList (lowerName name)) (size - Text.byteLength rest))
  | none, none => .ok (d.blocks.foldl Assembly.add a).blocks

theorem outcome_split (source : String) :
    (split source).outcome
      = Assembly.complete {} (Text.byteLength source.toList) (divide source.toList) := by
  unfold split assemble Assembly.complete Assembly.outcome
  cases herror : ((divide source.toList).blocks.foldl Assembly.add {}).error with
  | some e => simp [herror]
  | none =>
    cases hunclosed : (divide source.toList).unclosed with
    | some nr => simp [herror]
    | none => simp [herror]

theorem complete_block (a : Assembly) (size : Nat) (b : FoundBlock) (d : Division) :
    a.complete size { d with blocks := b :: d.blocks } = (a.add b).complete size d := rfl

end ComponentCompiler
