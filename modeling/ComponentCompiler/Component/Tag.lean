import ComponentCompiler.Text.Blank

/-!
# Tags

Reading the tag that opens a block, with its attributes, and finding the tag that closes it.

## Main definitions

* `OpenTag`, `openTag?` — the tag behind an angle bracket.
* `findClose` — the end of a block's content and what stands behind its closing tag.
-/

namespace ComponentCompiler

open Text (isPlainBlank)

/-! ### Opening tags -/

/-- An opening tag. -/
structure OpenTag where
  /-- Its name. -/
  name : List Char
  /-- Its attributes in source order; one without a value has the empty text. -/
  attributes : List (List Char × List Char)
  /-- Whether the tag is a block without content. -/
  selfClosing : Bool
  /-- The text behind the tag. -/
  rest : List Char
  deriving DecidableEq, Repr

/-- The value of an attribute; the last one of a name counts. -/
def OpenTag.attribute? (t : OpenTag) (name : String) : Option (List Char) :=
  (t.attributes.reverse.find? (·.1 == name.toList)).map (·.2)

/-- The characters of tag names. -/
def isTagNameChar (c : Char) : Bool := c.isAlphanum || c == '-' || c == '_' || c == ':'

/-- The characters of attribute names. -/
def isAttributeChar (c : Char) : Bool :=
  !(c == '=' || c == '>' || c == '/' || isPlainBlank c)

/-- The blanks around the sign between the name and the value of an attribute. -/
def isGap (c : Char) : Bool := c == ' ' || c == '\t'

/-- The text up to a character, and the text behind it. -/
def cutAt? (stop : Char) : List Char → Option (List Char × List Char)
  | [] => none
  | c :: cs => if c == stop then some ([], cs) else (cutAt? stop cs).map fun (t, r) => (c :: t, r)

/-- The value of an attribute behind the equals sign: in quotes, or up to a blank or the end of the
tag. -/
def attributeText? (cs : List Char) : Option (List Char × List Char) :=
  match cs with
  | '"' :: r => cutAt? '"' r
  | '\'' :: r => cutAt? '\'' r
  | r =>
      let p (c : Char) : Bool := !(c == '>' || isPlainBlank c)
      some (r.takeWhile p, r.dropWhile p)

/-- The value of an attribute behind its name. -/
def attributeValue? : List Char → Option (List Char × List Char)
  | '=' :: r => attributeText? (r.dropWhile isGap)
  | r => some ([], r)

/-- An attribute that starts with a character, and the text behind it.  A value may also stand
without a name. -/
def attribute? (c : Char) (cs : List Char) : Option ((List Char × List Char) × List Char) :=
  if c == '=' then (attributeValue? (c :: cs)).map fun (v, r) => (([], v), r)
  else
    (attributeValue? ((cs.dropWhile isAttributeChar).dropWhile isGap)).map fun (v, r) =>
      ((c :: cs.takeWhile isAttributeChar, v), r)

theorem length_dropWhile_le (p : Char → Bool) (cs : List Char) :
    (cs.dropWhile p).length ≤ cs.length :=
  (List.dropWhile_suffix p).length_le

theorem length_of_dropWhile {p : Char → Bool} {c : Char} {cs r : List Char}
    (h : cs.dropWhile p = c :: r) : r.length < cs.length := by
  have := length_dropWhile_le p cs
  rw [h] at this
  exact this

theorem length_cutAt?_lt {stop : Char} {cs t r : List Char} (h : cutAt? stop cs = some (t, r)) :
    r.length < cs.length := by
  induction cs generalizing t with
  | nil => simp [cutAt?] at h
  | cons c cs ih =>
    rw [cutAt?] at h
    split at h
    · obtain ⟨rfl, rfl⟩ : [] = t ∧ cs = r := by simpa using h
      simp
    · obtain ⟨⟨t', r'⟩, h', heq⟩ := Option.map_eq_some_iff.1 h
      obtain ⟨rfl, rfl⟩ : c :: t' = t ∧ r' = r := by simpa using heq
      exact Nat.lt_succ_of_lt (ih h')

theorem length_attributeText?_le {cs v r : List Char} (h : attributeText? cs = some (v, r)) :
    r.length ≤ cs.length := by
  unfold attributeText? at h
  split at h
  · exact Nat.le_succ_of_le (Nat.le_of_lt (length_cutAt?_lt h))
  · exact Nat.le_succ_of_le (Nat.le_of_lt (length_cutAt?_lt h))
  · obtain ⟨-, rfl⟩ := by simpa using h
    exact length_dropWhile_le _ _

theorem length_attributeValue?_le {cs v r : List Char} (h : attributeValue? cs = some (v, r)) :
    r.length ≤ cs.length ∧ (cs.head? = some '=' → r.length < cs.length) := by
  unfold attributeValue? at h
  split at h
  · rename_i cs
    have := length_attributeText?_le h
    have := length_dropWhile_le isGap cs
    simp only [List.length_cons]
    omega
  · rename_i hne
    obtain ⟨-, rfl⟩ := by simpa using h
    refine ⟨Nat.le_refl _, fun hh => ?_⟩
    cases cs with
    | nil => simp at hh
    | cons c cs => exact (hne cs (by simp_all)).elim

theorem length_attribute?_le {c : Char} {cs r : List Char} {a : List Char × List Char}
    (h : attribute? c cs = some (a, r)) : r.length ≤ cs.length := by
  unfold attribute? at h
  split at h
  · next hc =>
    obtain ⟨⟨v, r'⟩, h', heq⟩ := Option.map_eq_some_iff.1 h
    obtain ⟨-, rfl⟩ := by simpa using heq
    have := (length_attributeValue?_le h').2 (by simpa using hc)
    simpa using Nat.le_of_lt_succ this
  · obtain ⟨⟨v, r'⟩, h', heq⟩ := Option.map_eq_some_iff.1 h
    obtain ⟨-, rfl⟩ := by simpa using heq
    have := (length_attributeValue?_le h').1
    have := length_dropWhile_le isGap (cs.dropWhile isAttributeChar)
    have := length_dropWhile_le isAttributeChar cs
    omega

/-- Read attributes up to the end of the tag. -/
def readAttributes (name : List Char) (attributes : List (List Char × List Char))
    (cs : List Char) : Option OpenTag :=
  match h : cs.dropWhile isPlainBlank with
  | [] => none
  | '>' :: r => some { name, attributes, selfClosing := false, rest := r }
  | '/' :: '>' :: r => some { name, attributes, selfClosing := true, rest := r }
  | '/' :: r =>
      have : r.length < cs.length := length_of_dropWhile h
      readAttributes name attributes r
  | c :: r =>
      match ha : attribute? c r with
      | none => none
      | some (a, r') =>
          have : r'.length < cs.length :=
            Nat.lt_of_le_of_lt (length_attribute?_le ha) (length_of_dropWhile h)
          readAttributes name (attributes ++ [a]) r'
termination_by cs.length

/-- The opening tag behind an angle bracket, if there is one: its name starts with a letter. -/
def openTag? (cs : List Char) : Option OpenTag :=
  match cs.takeWhile isTagNameChar with
  | [] => none
  | c :: name =>
      if c.isAlpha then readAttributes (c :: name) [] (cs.dropWhile isTagNameChar) else none

/-! ### Closing tags -/

/-- A name in lower case. -/
def lowerName (name : List Char) : List Char := name.map Char.toLower

/-- The characters that may stand behind the name of a tag. -/
def isTagDelimiter (c : Char) : Bool :=
  c == '>' || c == '/' || c == ' ' || c == '\t' || c == '\n' || c == '\r'

/-- The text behind a name, in upper or lower case, if it stands at the front with a delimiter
behind it. -/
def afterName? (name cs : List Char) : Option (List Char) :=
  if lowerName (cs.take name.length) == lowerName name &&
      (cs.drop name.length).head?.any isTagDelimiter then
    some (cs.drop name.length)
  else none

/-- The text behind the name of a closing tag. -/
def closingName? (name : List Char) : List Char → Option (List Char)
  | '/' :: cs => afterName? name cs
  | _ => none

/-- The text behind the name of an opening tag inside a block. -/
def openingName? (name : List Char) (nested : Bool) (cs : List Char) : Option (List Char) :=
  if nested then afterName? name cs else none

theorem length_afterName?_le {name cs r : List Char} (h : afterName? name cs = some r) :
    r.length ≤ cs.length := by
  unfold afterName? at h
  split at h
  · obtain rfl := Option.some.inj h
    simp
  · cases h

theorem length_closingName?_le {name cs r : List Char} (h : closingName? name cs = some r) :
    r.length ≤ cs.length := by
  unfold closingName? at h
  split at h
  · exact Nat.le_succ_of_le (length_afterName?_le h)
  · cases h

theorem length_openingName?_le {name cs r : List Char} {nested : Bool}
    (h : openingName? name nested cs = some r) : r.length ≤ cs.length := by
  unfold openingName? at h
  split at h
  · exact length_afterName?_le h
  · cases h

theorem length_of_closing {name cs inside rest : List Char}
    (h : (closingName? name cs).map (cutAt? '>') = some (some (inside, rest))) :
    rest.length < cs.length + 1 := by
  obtain ⟨r, hr, hcut⟩ := Option.map_eq_some_iff.1 h
  have := length_closingName?_le hr
  have := length_cutAt?_lt hcut
  omega

theorem length_of_opening {name cs inside rest : List Char} {nested : Bool}
    (h : (openingName? name nested cs).map (cutAt? '>') = some (some (inside, rest))) :
    rest.length < cs.length + 1 := by
  obtain ⟨r, hr, hcut⟩ := Option.map_eq_some_iff.1 h
  have := length_openingName?_le hr
  have := length_cutAt?_lt hcut
  omega

/-- Find the tag that closes a block.  Gives the text from that tag on, and the text behind it.
Where `nested` holds, tags of the same name inside the block count unless a slash ends them;
`depth` of them are open. -/
def findClose (name : List Char) (nested : Bool) (depth : Nat) :
    List Char → Option (List Char × List Char)
  | [] => none
  | c :: cs =>
      if c != '<' then findClose name nested depth cs
      else
        match hc : (closingName? name cs).map (cutAt? '>') with
        | some none => none
        | some (some (_, rest)) =>
            match depth with
            | 0 => some (c :: cs, rest)
            | d + 1 =>
                have : rest.length < cs.length + 1 := length_of_closing hc
                findClose name nested d rest
        | none =>
            match ho : (openingName? name nested cs).map (cutAt? '>') with
            | some none => none
            | some (some (inside, rest)) =>
                have : rest.length < cs.length + 1 := length_of_opening ho
                findClose name nested
                  (if inside.getLast? == some '/' then depth else depth + 1) rest
            | none => findClose name nested depth cs
termination_by cs => cs.length

theorem length_findClose_lt {name cs at' rest : List Char} {nested : Bool} {depth : Nat}
    (h : findClose name nested depth cs = some (at', rest)) : rest.length < cs.length := by
  fun_induction findClose name nested depth cs with
  | case1 => cases h
  | case2 depth c cs _ ih => exact Nat.lt_succ_of_lt (ih h)
  | case3 => cases h
  | case4 c cs _ inside r hc =>
    obtain ⟨-, rfl⟩ : c :: cs = at' ∧ r = rest := by simpa using h
    exact length_of_closing hc
  | case5 c cs _ inside r hc d _ ih => exact Nat.lt_trans (ih h) (length_of_closing hc)
  | case6 => cases h
  | case7 depth c cs _ hc inside r ho _ ih => exact Nat.lt_trans (ih h) (length_of_opening ho)
  | case8 depth c cs _ _ _ ih => exact Nat.lt_succ_of_lt (ih h)

theorem length_readAttributes_lt {name cs : List Char} {as : List (List Char × List Char)}
    {t : OpenTag} (h : readAttributes name as cs = some t) : t.rest.length < cs.length := by
  fun_induction readAttributes name as cs with
  | case1 => cases h
  | case2 as cs r hr =>
    obtain rfl := Option.some.inj h
    exact length_of_dropWhile hr
  | case3 as cs r hr =>
    obtain rfl := Option.some.inj h
    exact Nat.lt_of_succ_lt (length_of_dropWhile hr)
  | case4 as cs r _ hr _ ih => exact Nat.lt_trans (ih h) (length_of_dropWhile hr)
  | case5 => cases h
  | case6 as cs c r _ _ _ hr a r' ha hlt ih => exact Nat.lt_trans (ih h) hlt

theorem length_openTag?_lt {cs : List Char} {t : OpenTag} (h : openTag? cs = some t) :
    t.rest.length < cs.length := by
  unfold openTag? at h
  split at h
  · cases h
  · split at h
    · exact Nat.lt_of_lt_of_le (length_readAttributes_lt h) (length_dropWhile_le _ _)
    · cases h

end ComponentCompiler
