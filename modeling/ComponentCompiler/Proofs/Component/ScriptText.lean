import ComponentCompiler.Proofs.Component.Compile
import ComponentCompiler.Proofs.Component.Export
import ComponentCompiler.Proofs.Component.Template

/-!
# The script of a compiled component

Three rewrites make the script of a component with a template: the field with the markup goes into
the lines that start the export, the render fields go into the exported object of what was read
again, and the statement with the render functions goes in front.  All of them only insert, so the
script is still there, character by character and in order.

## Main definitions

* `Patched` — where the render fields went, as far as the tree of the script tells.
* `RendersTo` — the module with the render functions of markup.

## Main results

* `attachRenderFields_eq_insertAll`, `compileScript_none`, `compileScript_some` — what the rewrites
  do.
* `compile_keeps_script` — **no text of the script is lost or moved**.
-/

namespace ComponentCompiler

open Compilation
open Text (insertText eraseText insertAll eraseAll)

variable {c : Compiler} {name : String} {scopeId : Option String} {s s' : CompileState}

/-! ### The render fields -/

/-- Where the render fields went in a script with the given tree, when `found` exported objects were
met: behind the brace of an object literal, or nowhere. -/
structure Patched (target script : List Char) (tree : Tree) (found : Nat) (place : Option Nat) :
    Prop where
  /-- The place is behind the brace of an object literal. -/
  behind : ∀ i ∈ place, ∃ n ∈ tree.preorder,
    n.kind = .object ∧ script[n.span.start]? = some '{' ∧ i = n.span.start + 1
  /-- There is a place only if an object was met. -/
  met : place.isSome → found ≠ 0
  /-- What was met is an object literal. -/
  object : found ≠ 0 → ∃ n ∈ tree.preorder, n.kind = .object
  /-- In a tree that was built, an object is met if the script exports one. -/
  exported : tree.Built →
    (found ≠ 0 ↔ ∃ p ∈ tree.preorder, ∃ n ∈ p.children, isExport target script (some p, n) = true)
  /-- If its object literals start with their braces, the fields have a place. -/
  placed : tree.Built → tree.ObjectsOpen script → found ≠ 0 → place.isSome

/-- An exported object has a node above it, so it is not the tree itself. -/
theorem exists_export_iff {target script : List Char} {t : Tree} :
    (∃ x ∈ t.trail none, isExport target script x = true) ↔
      ∃ p ∈ t.preorder, ∃ n ∈ p.children, isExport target script (some p, n) = true := by
  constructor
  · rintro ⟨⟨x, n⟩, hmem, hexport⟩
    rcases (Tree.mem_trail t none).1 hmem with ⟨rfl, rfl⟩ | ⟨p, hp, rfl, hn⟩
    · simp [isExport] at hexport
    · exact ⟨p, hp, n, hn, hexport⟩
  · rintro ⟨p, hp, n, hn, hexport⟩
    exact ⟨(some p, n), (Tree.mem_trail t none).2 (.inr ⟨p, hp, rfl, hn⟩), hexport⟩

/-- **The render fields are inserted at one place or nowhere.** -/
theorem attachRenderFields_eq_insertAll {p : ExportPatch} {t : Tree} {script : List Char}
    {r : PatchedScript} (h : attachRenderFields p t script = .ok r) :
    ∃ place : Option Nat, r.code = insertAll p.fields place.toList script ∧
      Patched p.legacyTarget.toList script t r.found place := by
  obtain ⟨x, hx, hr⟩ := attachRenderFields_ok h
  cases x with
  | none =>
    obtain rfl : r = ⟨script, 0⟩ := hr
    refine ⟨none, rfl, fun i hi => absurd hi (Option.not_mem_none i),
      fun h => absurd h Bool.false_ne_true, fun h => absurd rfl h, fun hbuilt => ?_,
      fun _ _ h => absurd rfl h⟩
    rw [← exists_export_iff]
    refine iff_of_false (fun h => h rfl) ?_
    rintro ⟨y, hy, hexport⟩
    exact List.find?_eq_none.1 (hx hbuilt).symm y hy hexport
  | some x =>
    obtain ⟨parent, n⟩ := x
    obtain ⟨hmem, hkind, hfound, hcode⟩ := hr
    have hexported : t.Built →
        (r.found ≠ 0 ↔ ∃ p' ∈ t.preorder, ∃ n ∈ p'.children,
          isExport p.legacyTarget.toList script (some p', n) = true) := by
      intro hbuilt
      rw [← exists_export_iff]
      exact iff_of_true hfound ⟨_, List.mem_of_find?_eq_some (hx hbuilt).symm,
        List.find?_some (hx hbuilt).symm⟩
    -- the first exported object is patched only if its text starts with the brace
    by_cases hhead : (segment script n.span.start n.span.stop).head? = some '{'
    · rw [withFields, if_pos hhead] at hcode
      refine ⟨some (n.span.start + 1), hcode, ?_, fun _ => hfound, fun _ => ⟨n, hmem, hkind⟩,
        hexported, fun _ _ _ => rfl⟩
      rintro i ⟨⟩
      exact ⟨n, hmem, hkind, getElem?_of_head?_segment hhead, rfl⟩
    · rw [withFields, if_neg hhead] at hcode
      refine ⟨none, hcode, fun i hi => absurd hi (Option.not_mem_none i),
        fun h => absurd h Bool.false_ne_true, fun _ => ⟨n, hmem, hkind⟩, hexported,
        fun hbuilt hopen _ => ?_⟩
      exact absurd (hopen n hmem hkind) hhead

mutual

theorem reachable_build (offsets : CharOffsets) : ∀ (n : Script.Node) {b : TreeBuilder},
    b.Reachable → (n.build offsets b).Reachable
  | .absent, _, h => h
  | .node f span ps, _, h =>
    (reachable_buildAll offsets ps (h.openNode (Script.kindOf offsets f ps)
      (Script.spanOf offsets span))).closeNode

theorem reachable_buildAll (offsets : CharOffsets) : ∀ (ns : List Script.Node)
    {b : TreeBuilder}, b.Reachable → (Script.Node.buildAll offsets ns b).Reachable
  | [], _, h => h
  | n :: ns, _, h => reachable_buildAll offsets ns (reachable_build offsets n h)

end

/-- Every tree that is read from a script was built. -/
theorem built_readTree {typed : Bool} {cs : List Char} {t : Tree}
    (h : Script.readTree typed cs = .ok t) : t.Built := by
  unfold Script.readTree at h
  split at h
  · cases h
  · next root _ =>
    split at h
    · cases h
    · next hfinish =>
      cases h
      exact ⟨_, reachable_build _ root .start, hfinish⟩

/-! ### The stages -/

theorem mapError_eq_ok {ε ε' α : Type} {f : ε → ε'} {r : Except ε α} {a : α} :
    r.mapError f = .ok a ↔ r = .ok a := by
  cases r with
  | ok b => simp only [Except.mapError, Except.ok.injEq]
  | error e => exact iff_of_false nofun nofun

/-- What goes into the exported object of a component. -/
def Compiler.exportPatch (c : Compiler) (scopeId : Option String) : ExportPatch where
  binding := c.options.renderBinding
  scopeId := scopeId
  legacyTarget := c.options.legacyExportTarget

theorem patchScript_eq_ok {script markup code : List Char}
    (h : c.patchScript name scopeId script markup s = .ok code s') :
    ∃ tree found, c.toolchain.readScript (insertTemplate script markup) = .ok tree ∧
      attachRenderFields (c.exportPatch scopeId) tree (insertTemplate script markup)
        = .ok ⟨code, found⟩ ∧
      (c.options.strictExportShape = true → found ≠ 0) := by
  obtain ⟨tree, s₁, htree, h⟩ := bind_eq_ok.1 h
  obtain ⟨_, s₂, _, h⟩ := bind_eq_ok.1 h
  obtain ⟨patched, s₃, hpatched, h⟩ := bind_eq_ok.1 h
  obtain ⟨_, s₄, _, h⟩ := bind_eq_ok.1 h
  obtain ⟨_, s₅, _, h⟩ := bind_eq_ok.1 h
  have htree := mapError_eq_ok.1 (check_eq_ok.1 htree).1
  have hpatched := mapError_eq_ok.1 (check_eq_ok.1 hpatched).1
  -- under the strict option the branch without an exported object throws
  have hcode : code = patched.code ∧ (c.options.strictExportShape = true → patched.found ≠ 0) := by
    split at h
    · split at h
      · cases h
      · next hstrict =>
        obtain ⟨_, s₆, _, h⟩ := bind_eq_ok.1 h
        cases h
        exact ⟨rfl, fun h => absurd h hstrict⟩
    · next hfound =>
      cases h
      exact ⟨rfl, fun _ h => hfound (beq_iff_eq.2 h)⟩
  obtain ⟨rfl, hstrict⟩ := hcode
  exact ⟨tree, patched.found, htree, hpatched, hstrict⟩

/-- The module with the render functions of markup. -/
structure RendersTo (c : Compiler) (name markup : String) (m : TemplateModule) : Prop where
  /-- The functions are those of the render compiler, in their final form. -/
  functions : ∃ f, c.toolchain.render markup = .ok f ∧
    (c.toolchain.transpile (functionSource f.render)).outcome = .ok m.render ∧
    List.Forall₂ (fun body final =>
      (c.toolchain.transpile (functionSource body)).outcome = .ok final)
      f.staticRenderFns m.staticRenderFns
  /-- The name of the module. -/
  moduleName : m.name = c.toolchain.canonical name ++ c.options.templateModuleSuffix
  /-- The name of the component. -/
  componentName : m.component = String.ofList (componentText name)

theorem renderBinding_eq_ok {markup : String} {binding : List Char} {m : TemplateModule}
    (h : c.renderBinding name markup s = .ok (binding, m) s') :
    RendersTo c name markup m ∧
      binding = bindingCode m.component.toList c.options.renderBinding m.render
        m.staticRenderFns := by
  obtain ⟨f, s₁, hf, h⟩ := bind_eq_ok.1 h
  obtain ⟨⟨render, statics⟩, s₂, hwork, h⟩ := bind_eq_ok.1 h
  cases h
  have hf := mapError_eq_ok.1 (check_eq_ok.1 hf).1
  have hwork := (await_eq_ok.1 hwork).1
  rcases Job.both_outcome (c.finalFunction f.render)
    (Job.batch (f.staticRenderFns.map c.finalFunction))
    with ⟨x, xs, hx, hxs, hboth⟩ | ⟨e, -, hboth⟩
  · obtain ⟨rfl, rfl⟩ := Prod.mk.inj (Except.ok.inj (hwork.symm.trans hboth))
    have hstatics := forall₂_of_settles
      (hxs ▸ Job.settles_batch (f.staticRenderFns.map c.finalFunction))
    rw [List.map_map, List.forall₂_map_left_iff] at hstatics
    refine ⟨⟨⟨f, hf, mapError_eq_ok.1 hx, ?_⟩, rfl, rfl⟩, ?_⟩
    · exact hstatics.imp fun _ _ h => mapError_eq_ok.1 h
    · rw [String.toList_ofList]
  · cases hwork.symm.trans hboth

/-- A component without a template keeps its script as it is. -/
theorem compileScript_none {script out : String} {m : Option TemplateModule}
    (h : c.compileScript name scopeId script none s = .ok (out, m) s') :
    out = script ∧ m = none := by
  cases h
  exact ⟨rfl, rfl⟩

/-- **The script of a component with a template**: the binding, and behind it the script with the
field and the render fields inserted. -/
theorem compileScript_some {script markup out : String} {m : Option TemplateModule}
    (h : c.compileScript name scopeId script (some markup) s = .ok (out, m) s') :
    ∃ template tree found place, m = some template ∧ RendersTo c name markup template ∧
      c.toolchain.readScript (insertTemplate script.toList markup.toList) = .ok tree ∧
      attachRenderFields (c.exportPatch scopeId) tree (insertTemplate script.toList markup.toList)
        = .ok ⟨insertAll (c.exportPatch scopeId).fields place.toList
            (insertTemplate script.toList markup.toList), found⟩ ∧
      Patched c.options.legacyExportTarget.toList (insertTemplate script.toList markup.toList) tree
        found place ∧
      (c.options.strictExportShape = true → found ≠ 0) ∧
      out = String.ofList
        (bindingCode template.component.toList c.options.renderBinding template.render
            template.staticRenderFns ++
          insertAll (c.exportPatch scopeId).fields place.toList
            (insertTemplate script.toList markup.toList)) := by
  obtain ⟨code, s₁, hcode, h⟩ := bind_eq_ok.1 h
  obtain ⟨⟨binding, template⟩, s₂, hbinding, h⟩ := bind_eq_ok.1 h
  obtain ⟨_, s₃, _, h⟩ := bind_eq_ok.1 h
  cases h
  obtain ⟨tree, found, htree, hattach, hstrict⟩ := patchScript_eq_ok hcode
  obtain ⟨place, hplace, hpatched⟩ := attachRenderFields_eq_insertAll hattach
  obtain ⟨hrenders, rfl⟩ := renderBinding_eq_ok hbinding
  obtain rfl : code = _ := hplace
  exact ⟨template, tree, found, place, rfl, hrenders, htree, hattach, hpatched, hstrict, rfl⟩

/-! ### What was inserted can be erased -/

theorem Patched.le_length {target script : List Char} {tree : Tree} {found : Nat}
    {place : Option Nat} (h : Patched target script tree found place) :
    ∀ i ∈ place.toList, i ≤ script.length := by
  intro i hi
  obtain ⟨n, -, -, hbrace, rfl⟩ := h.behind i (Option.mem_toList.1 hi)
  exact (List.getElem?_eq_some_iff.1 hbrace).1

theorem eraseAll_insertTemplate (script markup : List Char) :
    eraseAll (templateField markup).length ((exportBraces script).map (· + 1))
      (insertTemplate script markup) = script := by
  rw [insertTemplate_eq_insertAll]
  refine Text.eraseAll_insertAll _ fun i hi => ?_
  obtain ⟨j, hj, rfl⟩ := List.mem_map.1 hi
  exact lt_of_mem_exportBraces hj

/-- **No text of a script is lost or moved.**  Without a template a compiled component has its
script as it was, and no template module.  With one, its script is the generated binding and behind
it the script with insertions: the field with the markup behind the first brace of every line that
starts the export, and the render fields at one place or nowhere.  Erasing the render fields and
then the field gives the script back.  The place is behind the brace of an object literal; it is
there if the script exports an object and the reader builds its trees, as the built-in one does,
with object literals that start with their braces.  Under the strict option an exported object was
met. -/
theorem compile_keeps_script {component : Component} {out : CompileOutput}
    (h : c.compile component s = .ok out s') :
    ∃ blocks, (c.toolchain.split component.source).outcome = .ok blocks ∧
      (blocks.template = none →
        out.script = blocks.script.getD "" ∧ out.templateModule = none) ∧
      (blocks.template ≠ none →
        ∃ markup template tree found place,
          let script := (blocks.script.getD "").toList
          let field := templateField markup.toList
          let braces := exportBraces script
          let filled := insertAll field (braces.map (· + 1)) script
          let fields := (c.exportPatch out.scopeId).fields
          let text := insertAll fields place.toList filled
          TemplateEnds c.toolchain component.name blocks.template (.ok (some markup)) ∧
          out.templateModule = some template ∧
          RendersTo c component.name markup template ∧
          out.script = String.ofList
            (bindingCode template.component.toList c.options.renderBinding template.render
              template.staticRenderFns ++ text) ∧
          eraseAll field.length (braces.map (· + 1)) (eraseAll fields.length place.toList text)
            = script ∧
          c.toolchain.readScript filled = .ok tree ∧
          attachRenderFields (c.exportPatch out.scopeId) tree filled = .ok ⟨text, found⟩ ∧
          Patched c.options.legacyExportTarget.toList filled tree found place ∧
          (∀ typed, c.toolchain.readScript = Script.readTree typed → tree.Built) ∧
          (c.options.strictExportShape = true → found ≠ 0)) := by
  obtain ⟨blocks, markup, hcompiled⟩ := compiled_of_compile h
  obtain ⟨s₁, s₂, hscript⟩ := hcompiled.script
  have hsome := hcompiled.parts.template.isSome_iff
  refine ⟨blocks, hcompiled.split, fun hnone => ?_, fun hnone => ?_⟩
  · rw [hnone] at hsome
    cases markup with
    | none => exact compileScript_none hscript
    | some markup => exact absurd (hsome.1 rfl) nofun
  · cases markup with
    | none => exact absurd (hsome.2 (Option.isSome_iff_ne_none.2 hnone)) nofun
    | some markup =>
      obtain ⟨template, tree, found, place, hm, hrenders, htree, hattach, hpatched, hstrict,
        hout⟩ := compileScript_some hscript
      refine ⟨markup, template, tree, found, place, hcompiled.parts.template, hm, hrenders, ?_⟩
      -- the render fields went in last, so they are erased first
      rw [← insertTemplate_eq_insertAll, Text.eraseAll_insertAll _ hpatched.le_length]
      refine ⟨hout, eraseAll_insertTemplate _ _, htree, hattach, hpatched, fun typed hread => ?_,
        hstrict⟩
      exact built_readTree (hread ▸ htree)

/-- A compiler whose render functions are the markup itself. -/
def echoCompiler : Compiler where
  toolchain := {
    render := fun markup => .ok { render := markup }
    transpile := fun source => .now (.ok source) }
  options := { renderBinding := "r", strictExportShape := true }

/-- A script with an object that it does not export and one that it does. -/
def cardScript : String := "let a={}\nexport default {a}"

/-- A component with a script, a template and a scoped style. -/
def card : Component where
  name := "card"
  source := "<template>hi</template><script>" ++ cardScript ++ "</script><style scoped>p{}</style>"

/-- Its script when it is compiled. -/
def cardOutput : String :=
  "/* \"card\" */\nvar r = \x7b render: function render () \x7bhi\x7d, " ++
    "staticRenderFns: [] \x7d;\nlet a={}\nexport default \x7brender:r.render," ++
    "staticRenderFns:r.staticRenderFns,_scopeId:\"data-v-1\", template:\x60hi\x60,a\x7d"

theorem compile_keeps_script_card :
    ∃ out s', echoCompiler.compile card {} = .ok out s' ∧ out.script = cardOutput ∧
      ∃ (markup binding : List Char) (place : Option Nat),
        let field := templateField markup
        let fields := (echoCompiler.exportPatch out.scopeId).fields
        let text := insertAll fields place.toList (insertAll field [25] cardScript.toList)
        out.script = String.ofList (binding ++ text) ∧
        eraseAll field.length [25] (eraseAll fields.length place.toList text)
          = cardScript.toList := by
  have hsplit : (split card.source).outcome.toOption.map (fun blocks =>
      (blocks.template.isSome, blocks.script)) = some (true, some cardScript) := by decide +kernel
  have hbraces : exportBraces cardScript.toList = [24] := by decide +kernel
  have hrun : ((echoCompiler.compile card).run' {}).map CompileOutput.script = some cardOutput := by
    decide +kernel
  obtain ⟨out, hout, hscript⟩ := Option.map_eq_some_iff.1 hrun
  obtain ⟨s', h⟩ := exists_eq_ok_of_run' hout
  obtain ⟨blocks, hblocks, -, htemplate⟩ := compile_keeps_script h
  rw [show (split card.source).outcome = .ok blocks from hblocks] at hsplit
  obtain ⟨hsome, hcard⟩ := Prod.mk.inj (Option.some.inj hsplit)
  obtain ⟨markup, template, tree, found, place, -, -, -, htext, herase, -⟩ :=
    htemplate (Option.isSome_iff_ne_none.1 hsome)
  rw [hcard, Option.getD_some, hbraces] at htext herase
  exact ⟨out, s', h, hscript, markup.toList, _, place, htext, herase⟩

end ComponentCompiler
