import ComponentCompiler.Component.Export
import ComponentCompiler.Proofs.Syntax.Trail
import ComponentCompiler.Proofs.Text.Insertion

/-!
# What patching the exported object does

The walk that patches a script changes it at most once: it leaves the text untouched up to the
first exported object, puts the fields behind the brace of that object, and changes nothing after
that.  So what is read up to then is the script as it was, and the object that is patched is the
first one in the order of the walk that the script itself exports.

## Main definitions

* `isExport` — a node with the node above it is an exported object.
* `Tree.ObjectsOpen` — every object literal of a tree starts with its brace.
* `withFields` — a script with fields in an object literal.

## Main results

* `exportVisitor_ok` — what one visit can do.
* `visitEach_found`, `visitEach_untouched` — what visits do behind and before the first patch.
* `attachRenderFields_ok` — **the script gets the fields in its first exported object, and nothing
  else changes**.
* `changes_eq_one_iff` — it changes exactly if that object starts with its brace.
-/

namespace ComponentCompiler

open Text (insertText)

/-- In a script, a node with the node above it is an exported object. -/
def isExport (target script : List Char) (x : Option Tree × Tree) : Bool :=
  x.2.kind == .object && match x.1.map Tree.kind with
    | some .exportDefault => true
    | some (.assignment left) => segment script left.start left.stop == target
    | _ => false

/-- Every object literal of the tree of a script starts with its brace. -/
def Tree.ObjectsOpen (script : List Char) (t : Tree) : Prop :=
  ∀ n ∈ t.preorder, n.kind = .object →
    (segment script n.span.start n.span.stop).head? = some '{'

/-- A script with fields behind the brace of an object literal; the script itself if there is no
brace. -/
def withFields (p : ExportPatch) (script : List Char) (n : Tree) : List Char :=
  if (segment script n.span.start n.span.stop).head? = some '{' then
    insertText p.fields (n.span.start + 1) script
  else script

/-! ### One visit -/

variable {p : ExportPatch} {c : Cursor Nat} {b : Buffer} {k : Nat} {d : Desk Nat}
  {script : List Char}

theorem textIn_ok {s : Span} {t : List Char} :
    c.textIn s ⟨b, k⟩ = .ok t d ↔ b.slice s.start s.stop = .ok t ∧ d = ⟨b, k⟩ := by
  show Edit.slice s.start s.stop ⟨b, k⟩ = _ ↔ _
  unfold Edit.slice
  cases b.slice s.start s.stop with
  | ok t' =>
    simp only [EStateM.Result.ok.injEq, Except.ok.injEq]
    exact and_congr_right fun _ => eq_comm
  | error e => exact iff_of_false nofun nofun

/-- Looking whether an object is exported changes nothing, and in an untouched script the left side
of an assignment is read as it was written. -/
theorem isExported_ok (script : List Char) {r : Bool} (h : isExported p c ⟨b, k⟩ = .ok r d) :
    d = ⟨b, k⟩ ∧ (c.node.kind = .object → b = .ofText script →
      isExport p.legacyTarget.toList script (c.parent, c.node) = r) := by
  cases hparent : c.parent.map Tree.kind with
  | none =>
    simp only [isExported, hparent] at h
    cases h
    exact ⟨rfl, fun hkind _ => by simp only [isExport, hkind, hparent]; rfl⟩
  | some kind =>
    cases kind with
    | exportDefault =>
      simp only [isExported, hparent] at h
      cases h
      exact ⟨rfl, fun hkind _ => by simp only [isExport, hkind, hparent]; rfl⟩
    | assignment left =>
      -- only here the buffer is read, and it is not written to
      simp only [isExported, hparent] at h
      obtain ⟨t, d', ht, hr⟩ := bind_eq_ok.1 h
      obtain ⟨hslice, rfl⟩ := textIn_ok.1 ht
      cases hr
      refine ⟨rfl, fun hkind hb => ?_⟩
      rw [hb] at hslice
      simp only [isExport, hkind, hparent, (Buffer.slice_ofText.1 hslice).2]
      rfl
    | program | expressionStatement | object | property | other =>
      simp only [isExported, hparent] at h
      cases h
      exact ⟨rfl, fun hkind _ => by simp only [isExport, hkind, hparent]; rfl⟩

theorem patch_ok {t : List Char} (hooks : c.hooks = []) (h : c.patch t ⟨b, k⟩ = .ok () d) :
    ∃ b', b.replace c.node.span.start c.node.span.stop t = .ok b' ∧ d = ⟨b', k⟩ := by
  rw [patch_of_no_hooks hooks, Edit.replace] at h
  split at h
  · next b' hb =>
    cases h
    exact ⟨b', hb, rfl⟩
  · cases h

/-- **What one visit can do.**  It leaves all as it is at a node that is no exported object.  At an
exported object it counts, and if this is the first one, replaces its brace. -/
theorem exportVisitor_ok (hooks : c.hooks = []) (h : exportVisitor p c ⟨b, k⟩ = .ok () d) :
    (d = ⟨b, k⟩ ∧ (c.node.kind = .object → isExported p c ⟨b, k⟩ = .ok false ⟨b, k⟩)) ∨
    (c.node.kind = .object ∧ isExported p c ⟨b, k⟩ = .ok true ⟨b, k⟩ ∧
      ((k ≠ 0 ∧ d = ⟨b, k + 1⟩) ∨
        (k = 0 ∧ ∃ t, b.slice c.node.span.start c.node.span.stop = .ok t ∧
          ((t.head? ≠ some '{' ∧ d = ⟨b, 1⟩) ∨
            ∃ rest b', t = '{' :: rest ∧
              b.replace c.node.span.start c.node.span.stop (p.opening ++ rest) = .ok b' ∧
              d = ⟨b', 1⟩)))) := by
  unfold exportVisitor at h
  split at h
  · next hkind =>
    have hkind : c.node.kind = .object := beq_iff_eq.1 hkind
    obtain ⟨r, d₁, hr, hrest⟩ := bind_eq_ok.1 h
    obtain rfl := (isExported_ok [] hr).1
    cases r with
    | false =>
      cases hrest
      exact .inl ⟨rfl, fun _ => hr⟩
    | true =>
      refine .inr ⟨hkind, hr, ?_⟩
      have hcount : (Edit.note (· + 1) : Edit Nat RangeError Unit) ⟨b, k⟩ = .ok () ⟨b, k + 1⟩ := rfl
      have hget : (get : Edit Nat RangeError (Desk Nat)) ⟨b, k + 1⟩
          = .ok ⟨b, k + 1⟩ ⟨b, k + 1⟩ := rfl
      rw [if_pos rfl, bind_of_ok hcount, bind_of_ok hget] at hrest
      -- the count behind the note is one at the first exported object only
      by_cases hk : k = 0
      · subst hk
        obtain ⟨t, d₂, ht, hmatch⟩ := bind_eq_ok.1 hrest
        obtain ⟨hslice, rfl⟩ := textIn_ok.1 ht
        refine .inr ⟨rfl, t, hslice, ?_⟩
        split at hmatch
        · next rest =>
          obtain ⟨b', hb, rfl⟩ := patch_ok hooks hmatch
          exact .inr ⟨rest, b', rfl, hb, rfl⟩
        · next hne =>
          cases hmatch
          refine .inl ⟨fun hhead => ?_, rfl⟩
          cases t with
          | nil => cases hhead
          | cons x xs => exact hne xs (by rw [Option.some.inj hhead])
      · have hone : ¬ (k + 1 == 1) = true := by
          rw [beq_iff_eq]
          omega
        rw [if_neg hone] at hrest
        cases hrest
        exact .inl ⟨hk, rfl⟩
  · next hkind =>
    cases h
    exact .inl ⟨rfl, fun hobject => absurd (beq_iff_eq.2 hobject) hkind⟩

/-! ### All visits -/

/-- The walk that patches the exported object. -/
def exportWalk (p : ExportPatch) (tree : Tree) : Walk Nat RangeError :=
  { tree, visit := exportVisitor p }

theorem visitAt_ok {w : Walk Nat RangeError} {s s' : WalkState Nat}
    (h : w.visitAt c s = .ok () s') : w.visit c s.desk = .ok () s'.desk := by
  unfold Walk.visitAt at h
  split at h
  · next hd =>
    cases h
    exact hd
  · cases h

variable {t : Tree} {cs : List (Cursor Nat)} {links : Links} {s : WalkState Nat}

/-- Behind the first exported object nothing changes but the count, which grows. -/
theorem visitEach_found (hooks : ∀ c ∈ cs, c.hooks = []) (hk : k ≠ 0)
    (h : (exportWalk p t).visitEach cs ⟨links, ⟨b, k⟩⟩ = .ok () s) :
    s.desk.buffer = b ∧ s.desk.notes ≠ 0 := by
  induction cs generalizing k links with
  | nil =>
    cases h
    exact ⟨rfl, hk⟩
  | cons c cs ih =>
    obtain ⟨_, ⟨links', d'⟩, hc, hcs⟩ := bind_eq_ok.1 h
    have hvisit := exportVisitor_ok (hooks c List.mem_cons_self) (visitAt_ok hc)
    have htail : ∀ k, k ≠ 0 → (exportWalk p t).visitEach cs ⟨links', ⟨b, k⟩⟩ = .ok () s →
        s.desk.buffer = b ∧ s.desk.notes ≠ 0 := fun k hk =>
      ih (fun c hc => hooks c (List.mem_cons_of_mem _ hc)) hk
    rcases hvisit with ⟨hd, -⟩ | ⟨-, -, ⟨-, hd⟩ | ⟨h0, -⟩⟩
    · obtain rfl : d' = ⟨b, k⟩ := hd
      exact htail k hk hcs
    · obtain rfl : d' = ⟨b, k + 1⟩ := hd
      exact htail (k + 1) (Nat.succ_ne_zero k) hcs
    · exact absurd h0 hk

/-- A replaced brace is an insertion behind it. -/
theorem text_opening {n : Tree} {rest : List Char} {b : Buffer}
    (hslice : (Buffer.ofText script).slice n.span.start n.span.stop = .ok ('{' :: rest))
    (hreplace : (Buffer.ofText script).replace n.span.start n.span.stop (p.opening ++ rest)
      = .ok b) :
    b.text = withFields p script n := by
  obtain ⟨⟨hle, hstop⟩, hseg⟩ := Buffer.slice_ofText.1 hslice
  rw [Buffer.size_ofText] at hstop
  have hlt : n.span.start < n.span.stop := by
    have := length_segment hstop n.span.start
    rw [hseg, List.length_cons] at this
    omega
  obtain ⟨b', hb', htext⟩ := Buffer.text_replace_ofText (t := p.opening ++ rest) hlt hstop
  obtain rfl : b' = b := Except.ok.inj (hb'.symm.trans hreplace)
  have hlen : (script.take n.span.start).length = n.span.start := by
    rw [List.length_take, Nat.min_eq_left (Nat.le_trans hle hstop)]
  have hscript : script.take n.span.start ++ '{' :: (rest ++ script.drop n.span.stop) = script := by
    rw [← List.cons_append, ← hseg, ← List.append_assoc, take_append_segment script hle,
      List.take_append_drop]
  have hinsert := Text.insertText_behind p.fields (script.take n.span.start) '{'
    (rest ++ script.drop n.span.stop)
  rw [hlen, hscript] at hinsert
  rw [withFields, hseg, if_pos List.head?_cons, hinsert, htext, ExportPatch.opening]
  simp only [List.append_assoc, List.cons_append]

/-- As long as no exported object was met, nothing changes; the first one that the script exports
gets the fields. -/
theorem visitEach_untouched (hooks : ∀ c ∈ cs, c.hooks = [])
    (h : (exportWalk p t).visitEach cs ⟨links, ⟨.ofText script, 0⟩⟩ = .ok () s) :
    match cs.find? (fun c => isExport p.legacyTarget.toList script (c.parent, c.node)) with
    | none => s.desk = ⟨.ofText script, 0⟩
    | some c => s.desk.notes ≠ 0 ∧ s.desk.buffer.text = withFields p script c.node := by
  induction cs generalizing links with
  | nil =>
    cases h
    rfl
  | cons c cs ih =>
    obtain ⟨_, ⟨links', d'⟩, hc, hcs⟩ := bind_eq_ok.1 h
    have hvisit := exportVisitor_ok (hooks c List.mem_cons_self) (visitAt_ok hc)
    have htail : ∀ c ∈ cs, c.hooks = [] := fun c hc => hooks c (List.mem_cons_of_mem _ hc)
    rcases hvisit with ⟨hd, hno⟩ | ⟨hkind, hyes, ⟨h0, -⟩ | ⟨-, text, hslice, hpatch⟩⟩
    · -- nothing was met: the buffer still shows the script, so the visitor saw what the tree says
      obtain rfl : d' = ⟨.ofText script, 0⟩ := hd
      have hexport : isExport p.legacyTarget.toList script (c.parent, c.node) = false := by
        by_cases hkind : c.node.kind = .object
        · exact (isExported_ok script (hno hkind)).2 hkind rfl
        · have : (c.node.kind == NodeKind.object) = false := beq_eq_false_iff_ne.2 hkind
          rw [isExport, this, Bool.false_and]
      rw [List.find?_cons, hexport]
      exact ih htail hcs
    · exact absurd rfl h0
    · rw [List.find?_cons, (isExported_ok script hyes).2 hkind rfl]
      rcases hpatch with ⟨hhead, hd⟩ | ⟨rest, b', rfl, hreplace, hd⟩
      · obtain rfl : d' = ⟨.ofText script, 1⟩ := hd
        obtain ⟨hbuffer, hnotes⟩ := visitEach_found htail Nat.one_ne_zero hcs
        refine ⟨hnotes, ?_⟩
        rw [hbuffer, Buffer.text_ofText, withFields, (Buffer.slice_ofText.1 hslice).2, if_neg hhead]
      · obtain rfl : d' = ⟨b', 1⟩ := hd
        obtain ⟨hbuffer, hnotes⟩ := visitEach_found htail Nat.one_ne_zero hcs
        exact ⟨hnotes, by rw [hbuffer, text_opening hslice hreplace]⟩

/-! ### The whole script -/

theorem exists_run_of_attachRenderFields {r : PatchedScript}
    (h : attachRenderFields p t script = .ok r) :
    ∃ s, (exportWalk p t).run ⟨t.noLinks, ⟨.ofText script, 0⟩⟩ = .ok () s ∧
      r = ⟨s.desk.buffer.text, s.desk.notes⟩ := by
  simp only [attachRenderFields] at h
  split at h
  · next s hs =>
    cases h
    exact ⟨s, hs, rfl⟩
  · cases h

/-- **The script gets the fields in its first exported object, and nothing else changes.**  Which
object that is, the walk and the tree agree on if the tree was built. -/
theorem attachRenderFields_ok {r : PatchedScript} (h : attachRenderFields p t script = .ok r) :
    ∃ x : Option (Option Tree × Tree),
      (t.Built → x = (t.trail none).find? (isExport p.legacyTarget.toList script)) ∧
      match x with
      | none => r = ⟨script, 0⟩
      | some (_, n) => n ∈ t.preorder ∧ n.kind = .object ∧ r.found ≠ 0 ∧
          r.code = withFields p script n := by
  obtain ⟨s, hs, rfl⟩ := exists_run_of_attachRenderFields h
  have hrun := ((exportWalk p t).below_eq_visitEach t none t.noLinks ⟨.ofText script, 0⟩).1
  have hvisits := visitEach_untouched ((exportWalk p t).hooks_cursors t none t.noLinks)
    (hrun.symm.trans hs)
  refine ⟨(((exportWalk p t).cursors none t t.noLinks).find? fun c =>
    isExport p.legacyTarget.toList script (c.parent, c.node)).map fun c => (c.parent, c.node),
    fun hbuilt => ?_, ?_⟩
  · -- in a tree with numbers of its own the links of each cursor lead to the node above
    have htrail := (exportWalk p t).trail_cursors_of_numbered hbuilt.numbered t.noLinks
      Array.size_replicate
    rw [show (exportWalk p t).tree = t from rfl] at htrail
    rw [← htrail, List.find?_map]
    rfl
  · cases hfind : ((exportWalk p t).cursors none t t.noLinks).find? fun c =>
        isExport p.legacyTarget.toList script (c.parent, c.node) with
    | none =>
      rw [hfind] at hvisits
      show PatchedScript.mk s.desk.buffer.text s.desk.notes = ⟨script, 0⟩
      rw [hvisits, Buffer.text_ofText]
    | some c =>
      rw [hfind] at hvisits
      have hnode : c.node ∈ t.preorder := by
        rw [← Tree.mem_postorder, ← (exportWalk p t).node_cursors t none t.noLinks]
        exact List.mem_map.2 ⟨c, List.mem_of_find?_eq_some hfind, rfl⟩
      have hexport := List.find?_some hfind
      rw [isExport, Bool.and_eq_true, beq_iff_eq] at hexport
      exact ⟨hnode, hexport.1, hvisits.1, hvisits.2⟩

/-- An object literal gets fields exactly if it starts with its brace. -/
theorem withFields_eq_self_iff {n : Tree} :
    withFields p script n = script ↔
      (segment script n.span.start n.span.stop).head? ≠ some '{' := by
  unfold withFields
  split
  · next hhead =>
    refine iff_of_false (fun heq => ?_) (fun hne => hne hhead)
    have hlength := congrArg List.length heq
    simp only [insertText, List.length_append, List.length_take, List.length_drop] at hlength
    have hfields : 0 < p.fields.length := List.length_pos_of_mem List.mem_cons_self
    omega
  · next hhead => exact iff_of_true rfl hhead

/-- A script changes exactly if its first exported object starts with its brace. -/
theorem changes_eq_one_iff {r : PatchedScript} (h : attachRenderFields p t script = .ok r)
    (hbuilt : t.Built) :
    r.changes script = 1 ↔
      ∃ x, (t.trail none).find? (isExport p.legacyTarget.toList script) = some x ∧
        (segment script x.2.span.start x.2.span.stop).head? = some '{' := by
  have hchanges : r.changes script = 1 ↔ r.code ≠ script := by
    unfold PatchedScript.changes
    split
    · next heq => exact iff_of_false (by decide) (fun hne => hne (eq_of_beq heq))
    · next hne => exact iff_of_true rfl (fun heq => hne (beq_of_eq heq))
  obtain ⟨x, hx, hr⟩ := attachRenderFields_ok h
  rw [hchanges, ← hx hbuilt]
  cases x with
  | none =>
    obtain rfl : r = ⟨script, 0⟩ := hr
    exact iff_of_false (fun hne => hne rfl) (by rintro ⟨_, ⟨⟩, -⟩)
  | some x =>
    obtain ⟨-, -, -, hcode⟩ := hr
    rw [hcode, Ne, withFields_eq_self_iff, Ne, Decidable.not_not]
    constructor
    · exact fun hhead => ⟨x, rfl, hhead⟩
    · rintro ⟨_, ⟨⟩, hhead⟩
      exact hhead

end ComponentCompiler
