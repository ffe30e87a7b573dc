import ComponentCompiler.Component.Block
import ComponentCompiler.Component.Tag
import ComponentCompiler.Text.Offset

/-!
# Splitting a component into its blocks

The blocks of a text are found from left to right (`divide`); text, comments and tags without
content between them are passed over.  What is found is then put together (`assemble`): blocks of
other names than the three known ones are skipped, and a second script or template is an error.

## Main definitions

* `FoundBlock`, `Division`, `divide` — the blocks of a text, and the block that is never closed.
* `Assembly`, `split` — the parts of a component.
-/

namespace ComponentCompiler

open Text (byteLength)

/-! ### Finding blocks -/

/-- A block of a text. -/
structure FoundBlock where
  /-- The tag that opens it. -/
  tag : OpenTag
  /-- Its content. -/
  content : List Char
  deriving DecidableEq, Repr

/-- The name of a block in lower case. -/
def FoundBlock.name (b : FoundBlock) : String := String.ofList (lowerName b.tag.name)

/-- The language that a block names, if that is not empty. -/
def FoundBlock.lang (b : FoundBlock) : Option String :=
  match b.tag.attribute? "lang" with
  | some (c :: cs) => some (String.ofList (c :: cs))
  | _ => none

/-- Whether a block asks for a scope. -/
def FoundBlock.isScoped (b : FoundBlock) : Bool := (b.tag.attribute? "scoped").isSome

/-- A text divided into blocks. -/
structure Division where
  /-- The blocks, in source order. -/
  blocks : List FoundBlock := []
  /-- The block at which the search ended because it is never closed: its name, and the text from
  its tag on. -/
  unclosed : Option (List Char × List Char) := none

/-- The text behind the end of a comment. -/
def afterComment? : List Char → Option (List Char)
  | '-' :: '-' :: '>' :: cs => some cs
  | _ :: cs => afterComment? cs
  | [] => none

theorem length_afterComment?_le {cs r : List Char} (h : afterComment? cs = some r) :
    r.length ≤ cs.length := by
  fun_induction afterComment? cs with
  | case1 cs =>
    obtain rfl := Option.some.inj h
    simp only [List.length_cons]
    omega
  | case2 c cs _ ih => exact Nat.le_succ_of_le (ih h)
  | case3 => cases h

theorem length_of_comment {cs r : List Char} (h : afterComment? cs = some r) :
    r.length < cs.length + 1 + 1 + 1 + 1 := by
  have := length_afterComment?_le h
  omega

theorem length_of_block {name cs close rest : List Char} {tag : OpenTag} {nested : Bool}
    (h : openTag? cs = some tag) (hf : findClose name nested 0 tag.rest = some (close, rest)) :
    rest.length < cs.length + 1 := by
  have := length_openTag?_lt h
  have := length_findClose_lt hf
  omega

/-- The names of blocks whose content is raw text, in which only the closing tag counts. -/
def isRawName (name : List Char) : Bool :=
  lowerName name == ['s', 'c', 'r', 'i', 'p', 't'] || lowerName name == ['s', 't', 'y', 'l', 'e']

/-- Divide a text into blocks. -/
def divide : List Char → Division
  | [] => {}
  | '<' :: '!' :: '-' :: '-' :: cs =>
      match h : afterComment? cs with
      | some r =>
          have : r.length < cs.length + 1 + 1 + 1 + 1 := length_of_comment h
          divide r
      | none => {}
  | c :: cs =>
      if c != '<' then divide cs
      else
        match h : openTag? cs with
        | none => divide cs
        | some tag =>
            if tag.selfClosing then
              have : tag.rest.length < cs.length + 1 := Nat.lt_succ_of_lt (length_openTag?_lt h)
              divide tag.rest
            else
              match hf : findClose tag.name (!isRawName tag.name) 0 tag.rest with
              | none => { unclosed := some (tag.name, c :: cs) }
              | some (close, rest) =>
                  have : rest.length < cs.length + 1 := length_of_block h hf
                  let d := divide rest
                  let content := tag.rest.take (tag.rest.length - close.length)
                  { d with blocks := { tag, content } :: d.blocks }
termination_by cs => cs.length

/-! ### Putting blocks together -/

/-- The parts of a component as far as they were put together. -/
structure Assembly where
  /-- The parts so far. -/
  blocks : Blocks := {}
  /-- How many blocks of other names were skipped. -/
  skipped : Nat := 0
  /-- The error that ended the work. -/
  error : Option SplitError := none

/-- The outcome of putting a component together. -/
def Assembly.outcome (a : Assembly) : Except SplitError Blocks :=
  match a.error with
  | some e => .error e
  | none => .ok a.blocks

/-- Add a block. -/
def Assembly.add (a : Assembly) (b : FoundBlock) : Assembly :=
  if a.error.isSome then a
  else
    let content := String.ofList b.content
    match b.name with
    | "template" =>
        if a.blocks.template.isSome then { a with error := some (.duplicate "template") }
        else { a with blocks := { a.blocks with template := some { content, lang := b.lang } } }
    | "script" =>
        if a.blocks.script.isSome then { a with error := some (.duplicate "script") }
        else { a with blocks := { a.blocks with script := some content } }
    | "style" =>
        let style : StyleBlock := { content, lang := b.lang, isScoped := b.isScoped }
        { a with blocks := { a.blocks with styles := a.blocks.styles ++ [style] } }
    | _ => { a with skipped := a.skipped + 1 }

/-- Put the blocks of a text together.  A block that is never closed is an error if nothing was
wrong before it. -/
def assemble (source : List Char) (d : Division) : Assembly :=
  let a := d.blocks.foldl Assembly.add {}
  match a.error, d.unclosed with
  | none, some (name, rest) =>
      { a with error := some (.unclosed (String.ofList (lowerName name))
          (byteLength source - byteLength rest)) }
  | _, _ => a

/-- Split a component into its parts. -/
def split (source : String) : Assembly := assemble source.toList (divide source.toList)

end ComponentCompiler
