import ComponentCompiler.Proofs.Style.Spelling

/-!
# The shape of parsed stylesheets

What a stylesheet that was read can look like: the selectors of a rule and a declaration are what
their heads are read as, and every other text in it comes from consecutive pieces of the text that
was read, which hold no end of an item and in front of and behind which no bracket is open.  The one
exception is a rule with an at-sign that is ended by the end of the whole text: there a bracket may
be open.

## Main definitions

* `Gathered`, `GatheredRaw` — the pieces behind a name with an at-sign, and of a block that is kept
  as it is written.
* `Node.Scanned`, `Item.ScannedAll` — trees whose texts come from such pieces.

## Main results

* `scannedAll_of_spells` — items that are spelled out are scanned.
* `scanned_of_parse` — every node of a parsed stylesheet is scanned.
-/

namespace ComponentCompiler.Style

/-! ### Scanned trees -/

/-- Consecutive pieces of a text in which no item ends, and behind which `depth` brackets are
open. -/
structure Gathered (all : List Piece) (depth : Nat) (qs : List Piece) : Prop where
  /-- They stand one behind the other in the text. -/
  within : qs <:+: all
  /-- No item ends among them. -/
  balanced : depthAfter isItemEnd 0 qs = some depth

/-- Consecutive pieces of a text that a brace behind them closes. -/
structure GatheredRaw (all rs : List Piece) : Prop where
  /-- They stand one behind the other in the text. -/
  within : rs <:+: all
  /-- The brace behind them is the one that closes the block. -/
  closing : rawEnd 0 (rs ++ [.char '}']) = some []

mutual

/-- A node has its texts from the text that was read. -/
def Node.Scanned (all : List Piece) : Node → Prop
  | .rule ss body => (∃ qs, SelectsIn all qs ss) ∧ Item.ScannedAll all body
  | .group name condition body =>
      NameText name ∧ isGroupName name = true ∧
        (∃ qs, Gathered all 0 qs ∧ TrimmedFrom qs condition) ∧ Item.ScannedAll all body
  | .atRule name condition none =>
      NameText name ∧ ∃ depth qs, Gathered all depth qs ∧ TrimmedFrom qs condition
  | .atRule name condition (some block) =>
      NameText name ∧ isGroupName name = false ∧
        (∃ qs, Gathered all 0 qs ∧ TrimmedFrom qs condition) ∧
        ∃ rs, GatheredRaw all rs ∧ TrimmedFrom rs block
  | .comment text => .comment text.toList ∈ all

/-- Items have their texts from the text that was read, and no nested node is a comment. -/
def Item.ScannedAll (all : List Piece) : List Item → Prop
  | [] => True
  | .declaration p v :: is => (∃ qs, DeclaresIn all qs p v) ∧ Item.ScannedAll all is
  | .nested n :: is => (∀ text, n ≠ .comment text) ∧ n.Scanned all ∧ Item.ScannedAll all is
  | .comment text :: is => .comment text.toList ∈ all ∧ Item.ScannedAll all is

end

theorem scannedAll_iff {all : List Piece} {is : List Item} :
    Item.ScannedAll all is ↔ ∀ i ∈ is, Item.ScannedAll all [i] := by
  induction is with
  | nil => simp [Item.ScannedAll]
  | cons i is ih =>
    rw [List.forall_mem_cons, ← ih]
    cases i <;> simp [Item.ScannedAll, and_assoc]

/-! ### What is read is scanned -/

/-- Items that pieces of a text spell out have their texts from it. -/
theorem scannedAll_of_spells {all ps : List Piece} {place : Place} {is : List Item}
    (h : Spells (SelectsIn all) (DeclaresIn all) place ps is) (hps : ps <:+: all) :
    Item.ScannedAll all is := by
  -- what stands in the middle of the pieces stands in the text, too
  have hpart : ∀ {ps : List Piece} (as bs cs : List Piece), as ++ (bs ++ cs) = ps → ps <:+: all →
      bs <:+: all := by
    rintro _ as bs cs rfl h
    exact List.IsInfix.trans ⟨as, cs, List.append_assoc ..⟩ h
  induction h with
  | nil => trivial
  | @skip _ c ps _ _ _ ih => exact ih (hpart [.char c] ps [] (by simp) hps)
  | @comment _ inside ps _ _ ih =>
    refine ⟨?_, ih (hpart [.comment inside] ps [] (by simp) hps)⟩
    rw [String.toList_ofList]
    exact hps.subset List.mem_cons_self
  | @rule _ head inner ps _ _ _ _ hss _ _ ihbody ih =>
    refine ⟨by simp, ⟨⟨head, hss⟩, ihbody ?_⟩, ih ?_⟩
    · exact hpart (head ++ [.char '{']) inner (.char '}' :: ps) (by simp) hps
    · exact hpart (head ++ .char '{' :: (inner ++ [.char '}'])) ps [] (by simp) hps
  | @declaration head ps _ _ _ _ _ hdeclares _ _ ih =>
    exact ⟨⟨head, hdeclares⟩, ih (hpart head ps [] (by simp) hps)⟩
  | @group _ name _ qs inner ps _ _ hname hgroup hqs hcondition _ _ ihbody ih =>
    have hwithin := hpart (atWord name) qs _ rfl hps
    refine ⟨by simp, ⟨hname, hgroup, ⟨qs, ⟨hwithin, hqs.balanced⟩, hcondition⟩, ihbody ?_⟩, ih ?_⟩
    · exact hpart (atWord name ++ (qs ++ [.char '{'])) inner (.char '}' :: ps) (by simp) hps
    · exact hpart (atWord name ++ (qs ++ .char '{' :: (inner ++ [.char '}']))) ps [] (by simp) hps
  | @raw _ name _ _ qs rs ps _ hname hgroup hqs hcondition hrs hblock _ ih =>
    have hwithin := hpart (atWord name) qs _ rfl hps
    refine ⟨by simp, ⟨hname, hgroup, ⟨qs, ⟨hwithin, hqs.balanced⟩, hcondition⟩, rs, ⟨?_, hrs⟩,
      hblock⟩, ih ?_⟩
    · exact hpart (atWord name ++ (qs ++ [.char '{'])) rs (.char '}' :: ps) (by simp) hps
    · exact hpart (atWord name ++ (qs ++ .char '{' :: (rs ++ [.char '}']))) ps [] (by simp) hps
  | @statement _ name _ depth qs ps _ hname hqs hcondition _ _ ih =>
    have hwithin := hpart (atWord name) qs ps rfl hps
    refine ⟨by simp, ⟨hname, depth, qs, ⟨hwithin, hqs.balanced⟩, hcondition⟩, ih ?_⟩
    exact hpart (atWord name ++ qs) ps [] (by simp) hps

/-- **Every node of a parsed stylesheet is scanned.** -/
theorem scanned_of_parse {css : String} {s : Stylesheet} (h : parse css = .ok s) :
    ∀ n ∈ s.rules, n.Scanned (pieces css.toList) := by
  intro n hn
  have hall := scannedAll_of_spells (spells_of_parse h) List.infix_rfl
  have hitem := scannedAll_iff.1 hall _ (List.mem_map_of_mem hn)
  cases n with
  | comment text => exact hitem.1
  | _ => exact hitem.2.1

end ComponentCompiler.Style
