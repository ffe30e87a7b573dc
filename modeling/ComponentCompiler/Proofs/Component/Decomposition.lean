import ComponentCompiler.Proofs.Component.ByteSplit

/-!
# What splitting finds in an arbitrary source

A source need not be a written component: it may hold stray brackets, comments and blocks that are
never closed, and characters of any kind.  Whatever it holds, it falls into segments, and the
outcome of splitting it is read off them: the parts of the component are its blocks, and an error
names the block that is one too many or the one that is never closed.

## Main results

* `split_decomposes` — **every outcome of splitting is that of the segments of the source**.
-/

namespace ComponentCompiler

open Text (byteLength byteLength_append)

/-- An outcome of splitting a source, read off its segments. -/
inductive Decomposes (source : List Char) : Except SplitError Blocks → Prop
  /-- The whole source falls into segments, and the parts are the blocks among them. -/
  | parts {gs : List Segment} {parts : Blocks} : source = Segment.renderAll gs →
      Segment.Standing gs [] → parts.Holds (Segment.blocks gs) → Decomposes source (.ok parts)
  /-- Behind some segments, with nothing wrong among them, a block opens that is never closed. -/
  | unclosed {gs : List Segment} {parts : Blocks} {after : List Char} {tag : OpenTag} :
      source = Segment.renderAll gs ++ '<' :: after → Segment.Standing gs ('<' :: after) →
      parts.Holds (Segment.blocks gs) → openTag? after = some tag → tag.selfClosing = false →
      findClose tag.name (!isRawName tag.name) 0 tag.rest = none →
      Decomposes source (.error (.unclosed (String.ofList (lowerName tag.name))
        (byteLength (Segment.renderAll gs))))
  /-- Some segments end with a block of a name of which there may be one, and a block of that name
  is among those in front. -/
  | duplicate {gs : List Segment} {b : Enclosed} {b' : FoundBlock} {behind : List Char} :
      source = Segment.renderAll (gs ++ [.block b]) ++ behind →
      Segment.Standing (gs ++ [.block b]) behind →
      b.found.name = "script" ∨ b.found.name = "template" →
      FoundBlock.named b.found.name (Segment.blocks gs) = [b'] →
      Decomposes source (.error (.duplicate b.found.name))

theorem holds_nil : Blocks.Holds {} [] := ⟨rfl, rfl, rfl⟩

/-- The segment of a block that is found. -/
theorem exists_segment {gs : List Segment} {front back : List FoundBlock} {b : FoundBlock}
    (h : Segment.blocks gs = front ++ b :: back) :
    ∃ before enclosed behind, gs = before ++ .block enclosed :: behind ∧
      Segment.blocks before = front ∧ enclosed.found = b := by
  obtain ⟨before, behind, rfl, hfront, hbehind⟩ := List.filterMap_eq_append_iff.1 h
  obtain ⟨passed, g, rest, rfl, hpassed, hg, -⟩ := List.filterMap_eq_cons_iff.1 hbehind
  cases g with
  | block enclosed =>
    refine ⟨before ++ passed, enclosed, rest, by simp, ?_, Option.some.inj hg⟩
    rw [Segment.blocks, List.filterMap_append, hfront, List.filterMap_eq_nil_iff.2 hpassed,
      List.append_nil]
  | char | comment | openComment | empty => cases hg

/-- The outcome of putting together what a division finds is read off the segments. -/
theorem decomposes_complete (source : List Char) :
    Decomposes source (Assembly.complete {} (byteLength source) (divide source)) := by
  obtain ⟨gs, tail, hsource, hstanding, hblocks, hleaves⟩ := exists_segments source
  unfold Assembly.complete
  rcases foldl_add_cases (a := {}) rfl holds_nil (divide source).blocks with
    ⟨herror, hholds⟩ | ⟨front, b, back, hsplit, herror, hname, b', hone⟩
  · rw [herror]
    rw [List.nil_append, hblocks] at hholds
    rw [hblocks]
    generalize (divide source).unclosed = unclosed at hleaves
    cases hleaves with
    | nothing => exact .parts (by rwa [List.append_nil] at hsource) hstanding hholds
    | @unclosed after tag hopen hcontent hclose =>
      have hoffset :
          byteLength source - byteLength ('<' :: after) = byteLength (Segment.renderAll gs) := by
        rw [hsource, byteLength_append, Nat.add_sub_cancel]
      dsimp only
      rw [hoffset]
      exact .unclosed hsource hstanding hholds hopen hcontent hclose
  · -- the first block too many is the last one of the segments up to it
    rw [herror]
    rw [hblocks] at hsplit
    obtain ⟨before, enclosed, behind, rfl, rfl, rfl⟩ := exists_segment hsplit
    rw [List.append_cons] at hsource hstanding
    rw [Segment.renderAll, List.flatMap_append, List.append_assoc] at hsource
    exact .duplicate hsource (Segment.standing_append.1 hstanding).1 hname hone

/-- Every outcome of splitting is that of the segments of the source.  The bytes are split as the
characters are: no byte outside the source is read, no slice starts or ends inside a character, and
every loop moves on. -/
theorem split_decomposes (source : String) :
    Decomposes source.toList (split source).outcome ∧
      splitBytes source = (split source).outcome.mapError .fault ∧
      ∀ b, splitBytes source ≠ .error (.breach b) := by
  refine ⟨?_, splitBytes_eq source, fun b => ?_⟩
  · rw [outcome_split]
    exact decomposes_complete source.toList
  · rw [splitBytes_eq]
    cases (split source).outcome with
    | ok parts => simp [Except.mapError]
    | error e => simp [Except.mapError]

-- what only starts like a closing tag is content, and nothing is found in a comment that stays open
example :
    (splitBytes "é < b<!-- <p> --><SCRIPT>a</scrip></Script ><!--<style>").toOption
      = some { script := some "a</scrip>", template := none, styles := [] } := by
  decide +kernel

end ComponentCompiler
