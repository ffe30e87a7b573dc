import ComponentCompiler.Proofs.Buffer.Frame
import ComponentCompiler.Proofs.Component.Export
import ComponentCompiler.Proofs.Syntax.Lineage

/-!
# Exactly one object gets the render fields

The walk that patches a script reads the left sides of assignments in the buffer, and behind the
first exported object that buffer is no longer the script.  All the same it counts what the script
exports: a left side that is read later on does not meet the patched object, or encloses the whole
assignment that exports it, and then it is longer than the target both before and behind the patch.
Left sides inside the patched object are read before it is patched, since they come first in
post-order.

## Main definitions

* `Tree.OfScript` — what is relied on of the tree of a script.
* `Tree.exportedObjects` — the objects that a script exports, in post-order.
* `ReadsAlike` — a buffer in which left sides match the target where they do in the script.

## Main results

* `Tree.postorder_pairwise` — what comes later in post-order is not below what came earlier.
* `readsAlike_of_exchanged` — **the patch makes no match and breaks none**.
* `visitEach_counts` — the visits of a buffer that reads alike count the exported objects.
* `attachRenderFields_eq_insertText` — the whole script.
-/

namespace ComponentCompiler

open Text (insertText)

namespace Span

/-- The range lies in another one. -/
def Within (r s : Span) : Prop := s.start ≤ r.start ∧ r.stop ≤ s.stop

instance (r s : Span) : Decidable (r.Within s) := inferInstanceAs (Decidable (_ ∧ _))

/-- The ranges have no position in common. -/
def Disjoint (r s : Span) : Prop := ∀ i, r.start ≤ i → i < r.stop → i < s.start ∨ s.stop ≤ i

theorem disjoint_of_le {r s : Span} (h : r.stop ≤ s.start ∨ s.stop ≤ r.start) : r.Disjoint s := by
  intro i hstart hstop
  omega

end Span

namespace Tree

/-- What is relied on of the tree of a script. -/
structure OfScript (script : List Char) (t : Tree) : Prop where
  /-- Ranges lie in the script. -/
  inRange : ∀ n ∈ t.preorder, n.span.start ≤ n.span.stop ∧ n.span.stop ≤ script.length
  /-- Ranges lie in the range of the node above. -/
  nested : ∀ n ∈ t.preorder, ∀ c ∈ n.children, c.span.Within n.span
  /-- Object literals start with their brace. -/
  objects : t.ObjectsOpen script
  /-- No default export lies in an assignment. -/
  exports : ∀ e ∈ t.preorder, e.kind = .exportDefault → ∀ a ∈ t.preorder, ∀ left,
    a.kind = .assignment left → ¬ e.span.Within a.span
  /-- The left side of an assignment lies in it, before the object that is assigned. -/
  leftSide : ∀ a ∈ t.preorder, ∀ left, a.kind = .assignment left → ∀ o ∈ a.children,
    o.kind = .object → a.span.start ≤ left.start ∧ left.start ≤ left.stop ∧ left.stop ≤ o.span.start
  /-- It does not meet an object literal, unless the assignment is below the literal or the left
  side holds all of the node above the literal. -/
  leftApart : ∀ a ∈ t.preorder, ∀ left, a.kind = .assignment left → ∀ x ∈ t.trail none,
    x.2.kind = .object →
      left.Disjoint x.2.span ∨ a ∈ x.2.preorder ∨ ∃ above ∈ x.1, above.span.Within left

/-- The objects that a script exports, in post-order. -/
def exportedObjects (target script : List Char) (t : Tree) : List Tree :=
  ((t.trail none).filter (isExport target script)).map Prod.snd

mutual

theorem node_trail : ∀ (t : Tree) (parent : Option Tree),
    (t.trail parent).map Prod.snd = t.postorder
  | .node i k s ts, parent => by
    rw [trail, List.map_append, node_trailAll ts, postorder]
    rfl

theorem node_trailAll : ∀ (ts : List Tree) (parent : Tree),
    (trailAll parent ts).map Prod.snd = postorderAll ts
  | [], _ => rfl
  | t :: ts, parent => by
    rw [trailAll, List.map_append, node_trail t, node_trailAll ts, postorderAll]

end

mutual

/-- **What comes later in post-order is not below what came earlier.** -/
theorem postorder_pairwise : ∀ t : Tree, (t.preorder.map Tree.id).Nodup →
    t.postorder.Pairwise fun n m => m ∉ n.preorder
  | .node i k s ts, h => by
    rw [preorder, List.map_cons, List.nodup_cons] at h
    rw [postorder, List.pairwise_append]
    refine ⟨postorderAll_pairwise ts h.2, List.pairwise_singleton _ _, ?_⟩
    intro n hn m hm hmem
    rw [List.mem_singleton.1 hm] at hmem
    have hbelow := (preorder_sublist_all (mem_postorderAll.1 hn)).subset hmem
    exact h.1 (List.mem_map.2 ⟨_, hbelow, rfl⟩)

theorem postorderAll_pairwise : ∀ ts : List Tree, ((preorderAll ts).map Tree.id).Nodup →
    (postorderAll ts).Pairwise fun n m => m ∉ n.preorder
  | [], _ => List.Pairwise.nil
  | t :: ts, h => by
    rw [preorderAll, List.map_append, List.nodup_append] at h
    obtain ⟨hfirst, hrest, hcross⟩ := h
    rw [postorderAll, List.pairwise_append]
    refine ⟨postorder_pairwise t hfirst, postorderAll_pairwise ts hrest, ?_⟩
    intro n hn m hm hmem
    have hbelow := (preorder_sublist (mem_postorder.1 hn)).subset hmem
    exact hcross _ (List.mem_map.2 ⟨m, hbelow, rfl⟩) _
      (List.mem_map.2 ⟨m, mem_postorderAll.1 hm, rfl⟩) rfl

end

end Tree

/-! ### One visit -/

variable {p : ExportPatch} {c : Cursor Nat} {b b' : Buffer} {k : Nat} {script target : List Char}

/-- In the buffer, the left side of the assignment above an object matches the target if and only if
it does in the script. -/
def ReadsAlike (target script : List Char) (b : Buffer) (x : Option Tree × Tree) : Prop :=
  x.2.kind = .object → ∀ a ∈ x.1, ∀ left, a.kind = .assignment left →
    ∃ cs, b.slice left.start left.stop = .ok cs ∧
      (cs = target ↔ segment script left.start left.stop = target)

/-- Where left sides are read alike, the exported objects are those of the script. -/
theorem isExported_of_readsAlike (hkind : c.node.kind = .object)
    (h : ReadsAlike p.legacyTarget.toList script b (c.parent, c.node)) :
    isExported p c ⟨b, k⟩
      = .ok (isExport p.legacyTarget.toList script (c.parent, c.node)) ⟨b, k⟩ := by
  have hobject : (c.node.kind == NodeKind.object) = true := beq_iff_eq.2 hkind
  cases hparent : c.parent with
  | none =>
    simp only [isExported, isExport, hparent, hobject]
    rfl
  | some a =>
    cases ha : a.kind with
    | assignment left =>
      obtain ⟨cs, hslice, hiff⟩ := h hkind a hparent left ha
      have hread : c.textIn left ⟨b, k⟩ = .ok cs ⟨b, k⟩ := textIn_ok.2 ⟨hslice, rfl⟩
      have hmatch : (cs == p.legacyTarget.toList)
          = (segment script left.start left.stop == p.legacyTarget.toList) := by
        rw [Bool.eq_iff_iff, beq_iff_eq, beq_iff_eq]
        exact hiff
      simp only [isExported, isExport, hparent, hobject, Option.map_some, ha]
      rw [bind_of_ok hread, hmatch]
      rfl
    | program | expressionStatement | exportDefault | object | property | other =>
      simp only [isExported, isExport, hparent, hobject, Option.map_some, ha]
      rfl

theorem exportVisitor_of_not_export
    (h : ReadsAlike p.legacyTarget.toList script b (c.parent, c.node))
    (hno : isExport p.legacyTarget.toList script (c.parent, c.node) = false) :
    exportVisitor p c ⟨b, k⟩ = .ok () ⟨b, k⟩ := by
  unfold exportVisitor
  by_cases hkind : c.node.kind = .object
  · rw [if_pos (beq_iff_eq.2 hkind), bind_of_ok (isExported_of_readsAlike hkind h), hno]
    rfl
  · rw [if_neg fun h => hkind (beq_iff_eq.1 h)]
    rfl

theorem object_of_isExport {x : Option Tree × Tree} (h : isExport target script x = true) :
    x.2.kind = .object := by
  rw [isExport, Bool.and_eq_true, beq_iff_eq] at h
  exact h.1

theorem exportVisitor_of_later (h : ReadsAlike p.legacyTarget.toList script b (c.parent, c.node))
    (hyes : isExport p.legacyTarget.toList script (c.parent, c.node) = true) (hk : k ≠ 0) :
    exportVisitor p c ⟨b, k⟩ = .ok () ⟨b, k + 1⟩ := by
  have hkind := object_of_isExport hyes
  have hone : ¬ (k + 1 == 1) = true := by
    rw [beq_iff_eq]
    omega
  unfold exportVisitor
  rw [if_pos (beq_iff_eq.2 hkind), bind_of_ok (isExported_of_readsAlike hkind h), hyes, if_pos rfl]
  show (if (k + 1 == 1) = true then _ else _ : Edit Nat RangeError Unit) ⟨b, k + 1⟩ = _
  rw [if_neg hone]
  rfl

theorem exportVisitor_of_first (hooks : c.hooks = [])
    (h : ReadsAlike p.legacyTarget.toList script b (c.parent, c.node))
    (hyes : isExport p.legacyTarget.toList script (c.parent, c.node) = true) {rest : List Char}
    (hslice : b.slice c.node.span.start c.node.span.stop = .ok ('{' :: rest))
    (hreplace : b.replace c.node.span.start c.node.span.stop (p.opening ++ rest) = .ok b') :
    exportVisitor p c ⟨b, 0⟩ = .ok () ⟨b', 1⟩ := by
  have hkind := object_of_isExport hyes
  unfold exportVisitor
  rw [if_pos (beq_iff_eq.2 hkind), bind_of_ok (isExported_of_readsAlike hkind h), hyes, if_pos rfl]
  show (c.text >>= _) ⟨b, 1⟩ = _
  rw [bind_of_ok (text_of_slice hslice 1)]
  show c.patch (p.opening ++ rest) ⟨b, 1⟩ = _
  rw [patch_of_no_hooks hooks, Edit.replace, hreplace]

/-! ### What is read behind the patch -/

theorem isExport_cases {x : Option Tree × Tree} (h : isExport target script x = true) :
    ∃ above ∈ x.1, above.kind = .exportDefault ∨
      ∃ left, above.kind = .assignment left ∧ segment script left.start left.stop = target := by
  obtain ⟨parent, n⟩ := x
  cases parent with
  | none =>
    rw [isExport, Option.map_none, Bool.and_false] at h
    cases h
  | some above =>
    refine ⟨above, rfl, ?_⟩
    rw [isExport, Option.map_some, Bool.and_eq_true] at h
    obtain ⟨-, h⟩ := h
    cases hkind : above.kind with
    | exportDefault => exact .inl rfl
    | assignment left =>
      rw [hkind] at h
      exact .inr ⟨left, rfl, beq_iff_eq.1 h⟩
    | program | expressionStatement | object | property | other =>
      rw [hkind] at h
      cases h

variable {t : Tree} {x y : Option Tree × Tree}

namespace Tree

theorem mem_preorder_of_mem_trail (h : x ∈ t.trail none) : x.2 ∈ t.preorder := by
  rw [← mem_postorder, ← node_trail t none]
  exact List.mem_map.2 ⟨x, h, rfl⟩

theorem above_of_mem_trail {above : Tree} (h : x ∈ t.trail none) (habove : above ∈ x.1) :
    above ∈ t.preorder ∧ x.2 ∈ above.children := by
  rw [Option.mem_def] at habove
  rcases (mem_trail t none).1 h with ⟨hnone, -⟩ | ⟨parent, hparent, hsome, hchild⟩
  · rw [hnone] at habove
    cases habove
  · obtain rfl : parent = above := Option.some.inj (hsome.symm.trans habove)
    exact ⟨hparent, hchild⟩

namespace OfScript

/-- The range of an object literal is not empty. -/
theorem start_lt_stop (h : t.OfScript script) {n : Tree} (hn : n ∈ t.preorder)
    (hkind : n.kind = .object) : n.span.start < n.span.stop := by
  have hhead := h.objects n hn hkind
  have hlen := length_segment (h.inRange n hn).2 n.span.start
  cases hseg : segment script n.span.start n.span.stop with
  | nil =>
    rw [hseg] at hhead
    cases hhead
  | cons c cs =>
    rw [hseg, List.length_cons] at hlen
    omega

/-- The left side of an assignment that has an object below it lies in the assignment and in the
script. -/
theorem left_bounds (h : t.OfScript script) (hy : y ∈ t.trail none) (hkind : y.2.kind = .object)
    {a : Tree} (ha : a ∈ y.1) {left : Span} (hleft : a.kind = .assignment left) :
    a.span.start ≤ left.start ∧ left.start ≤ left.stop ∧ left.stop ≤ y.2.span.start ∧
      y.2.span.stop ≤ a.span.stop ∧ left.stop ≤ script.length := by
  obtain ⟨hmem, hchild⟩ := above_of_mem_trail hy ha
  obtain ⟨hstart, hle, hstop⟩ := h.leftSide a hmem left hleft y.2 hchild hkind
  obtain ⟨horder, hrange⟩ := h.inRange y.2 (mem_preorder_of_mem_trail hy)
  refine ⟨hstart, hle, hstop, (h.nested a hmem y.2 hchild).2, ?_⟩
  omega

end OfScript

end Tree

/-- The script itself reads alike. -/
theorem readsAlike_ofText (target : List Char) (h : t.OfScript script) (hy : y ∈ t.trail none) :
    ReadsAlike target script (.ofText script) y := by
  intro hkind a ha left hleft
  obtain ⟨-, hle, -, -, hlength⟩ := h.left_bounds hy hkind ha hleft
  refine ⟨_, Buffer.slice_ofText.2 ⟨⟨hle, ?_⟩, rfl⟩, Iff.rfl⟩
  rw [Buffer.size_ofText]
  exact hlength

/-- **The patch makes no match and breaks none.**  An exported object was patched, and the new text
is no shorter than the old one; what is visited later, and so is not below the object, reads as in
the script. -/
theorem readsAlike_of_exchanged (h : t.OfScript script) (hx : x ∈ t.trail none)
    (hexport : isExport target script x = true) {old new : List Char}
    (hlong : old.length ≤ new.length)
    (hex : Buffer.Exchanged x.2.span.start x.2.span.stop old new (.ofText script) b')
    (hy : y ∈ t.trail none) (hlater : y.2 ∉ x.2.preorder) :
    ReadsAlike target script b' y := by
  intro hkind a ha left hleft
  obtain ⟨hmem, hchild⟩ := Tree.above_of_mem_trail hy ha
  obtain ⟨hstart, hle, hstop, hinside, hlength⟩ := h.left_bounds hy hkind ha hleft
  have hfits : (Buffer.ofText script).Fits left.start left.stop :=
    ⟨hle, by rw [Buffer.size_ofText]; exact hlength⟩
  have hobject := object_of_isExport hexport
  rcases h.leftApart a hmem left hleft x hx hobject with hapart | hbelow | ⟨above, habove, hwithin⟩
  · exact ⟨_, (hex.disjoint _ _ hapart).trans (Buffer.slice_ofText.2 ⟨hfits, rfl⟩), Iff.rfl⟩
  · -- the assignment below the object has been visited before it
    obtain ⟨i, k, s, ts⟩ := a
    have hy' : y.2 ∈ (Tree.node i k s ts).preorder :=
      List.mem_cons_of_mem _ (Tree.mem_preorderAll_of_mem hchild)
    exact absurd ((Tree.preorder_sublist hbelow).subset hy') hlater
  · obtain ⟨habovemem, hxchild⟩ := Tree.above_of_mem_trail hx habove
    obtain ⟨above', habove', hcase⟩ := isExport_cases hexport
    obtain rfl : above' = above := Option.some.inj (habove'.symm.trans habove)
    have hnested := h.nested _ habovemem _ hxchild
    have hnonempty := h.start_lt_stop (Tree.mem_preorder_of_mem_trail hx) hobject
    obtain ⟨horder, -⟩ := h.inRange _ (Tree.mem_preorder_of_mem_trail hy)
    unfold Span.Within at hwithin hnested
    rcases hcase with hdefault | ⟨inner, hinner, rfl⟩
    · have hin : above'.span.Within a.span := by
        constructor <;> omega
      exact absurd hin (h.exports _ habovemem hdefault a hmem left hleft)
    · -- the left side holds the target and the object besides
      obtain ⟨hfirst, -, hlast, hend, hbound⟩ := h.left_bounds hx hobject habove hinner
      obtain ⟨P, S, hold, hnew⟩ := hex.around left.start left.stop (by omega) (by omega) hfits.2
      have hseg := (Buffer.slice_ofText.1 hold).2
      have hshort : (segment script inner.start inner.stop).length < (P ++ old ++ S).length := by
        rw [← hseg, length_segment hbound, length_segment hlength]
        omega
      refine ⟨_, hnew, iff_of_false (fun heq => ?_) fun heq => ?_⟩
      · rw [← heq] at hshort
        simp only [List.length_append] at hshort
        omega
      · rw [← heq, hseg] at hshort
        exact Nat.lt_irrefl _ hshort

/-! ### All visits -/

variable {cs : List (Cursor Nat)}

/-- **The visits of a buffer that reads alike count the exported objects**, once the first one was
met or if there is none. -/
theorem visitEach_counts
    (hread : ∀ c ∈ cs, ReadsAlike p.legacyTarget.toList script b (c.parent, c.node))
    (hk : k ≠ 0 ∨ ∀ c ∈ cs, isExport p.legacyTarget.toList script (c.parent, c.node) = false)
    (links : Links) :
    ∃ links', (exportWalk p t).visitEach cs ⟨links, ⟨b, k⟩⟩ = .ok () ⟨links', ⟨b,
      k + cs.countP fun c => isExport p.legacyTarget.toList script (c.parent, c.node)⟩⟩ := by
  induction cs generalizing k links with
  | nil => exact ⟨links, rfl⟩
  | cons c cs ih =>
    obtain ⟨hc, hcs⟩ := List.forall_mem_cons.1 hread
    rw [Walk.visitEach, List.countP_cons]
    cases hexport : isExport p.legacyTarget.toList script (c.parent, c.node) with
    | false =>
      have hvisit : (exportWalk p t).visit c ⟨b, k⟩ = .ok () ⟨b, k⟩ :=
        exportVisitor_of_not_export hc hexport
      rw [bind_of_ok (Walk.visitAt_of_ok hvisit links)]
      exact ih hcs (hk.imp_right fun hno => (List.forall_mem_cons.1 hno).2) c.links
    | true =>
      have hk : k ≠ 0 := hk.resolve_right fun hno => by
        rw [hno c List.mem_cons_self] at hexport
        cases hexport
      have hvisit : (exportWalk p t).visit c ⟨b, k⟩ = .ok () ⟨b, k + 1⟩ :=
        exportVisitor_of_later hc hexport hk
      rw [bind_of_ok (Walk.visitAt_of_ok hvisit links), if_pos rfl, Nat.add_comm (cs.countP _),
        ← Nat.add_assoc]
      exact ih hcs (.inl (Nat.succ_ne_zero k)) c.links

/-- Visits with an exported object among them, the first one of which is patched. -/
theorem visitEach_patches {front back : List (Cursor Nat)} {rest : List Char}
    (hfront : ∀ c ∈ front, isExport p.legacyTarget.toList script (c.parent, c.node) = false)
    (hreadfront : ∀ c ∈ front, ReadsAlike p.legacyTarget.toList script b (c.parent, c.node))
    (hexport : isExport p.legacyTarget.toList script (c.parent, c.node) = true)
    (hread : ReadsAlike p.legacyTarget.toList script b (c.parent, c.node)) (hooks : c.hooks = [])
    (hslice : b.slice c.node.span.start c.node.span.stop = .ok ('{' :: rest))
    (hreplace : b.replace c.node.span.start c.node.span.stop (p.opening ++ rest) = .ok b')
    (hreadback : ∀ c ∈ back, ReadsAlike p.legacyTarget.toList script b' (c.parent, c.node))
    (links : Links) :
    ∃ links', (exportWalk p t).visitEach (front ++ c :: back) ⟨links, ⟨b, 0⟩⟩ = .ok () ⟨links', ⟨b',
      1 + back.countP fun c => isExport p.legacyTarget.toList script (c.parent, c.node)⟩⟩ := by
  obtain ⟨links₁, hbefore⟩ := visitEach_counts (t := t) (k := 0) hreadfront (.inr hfront) links
  have hnone :
      (front.countP fun c => isExport p.legacyTarget.toList script (c.parent, c.node)) = 0 :=
    List.countP_eq_zero.2 fun c hc => Bool.eq_false_iff.1 (hfront c hc)
  rw [hnone] at hbefore
  have hvisit : (exportWalk p t).visit c ⟨b, 0⟩ = .ok () ⟨b', 1⟩ :=
    exportVisitor_of_first hooks hread hexport hslice hreplace
  rw [Walk.visitEach_append, bind_of_ok hbefore, Walk.visitEach,
    bind_of_ok (Walk.visitAt_of_ok hvisit links₁)]
  exact visitEach_counts hreadback (.inl Nat.one_ne_zero) c.links

/-! ### The whole script -/

theorem attachRenderFields_of_visitEach {s : WalkState Nat}
    (h : (exportWalk p t).visitEach ((exportWalk p t).cursors none t t.noLinks)
      ⟨t.noLinks, ⟨.ofText script, 0⟩⟩ = .ok () s) :
    attachRenderFields p t script = .ok ⟨s.desk.buffer.text, s.desk.notes⟩ := by
  have hrun := ((exportWalk p t).below_eq_visitEach t none t.noLinks ⟨.ofText script, 0⟩).1.trans h
  simp only [attachRenderFields]
  split
  · next s' hs =>
    obtain ⟨-, rfl⟩ := EStateM.Result.ok.inj (hs.symm.trans hrun)
    rfl
  · next hs => cases hs.symm.trans hrun

theorem trail_exportWalk (p : ExportPatch) (hbuilt : t.Built) :
    ((exportWalk p t).cursors none t t.noLinks).map (fun c => (c.parent, c.node)) = t.trail none :=
  (exportWalk p t).trail_cursors_of_numbered hbuilt.numbered t.noLinks Array.size_replicate

theorem mem_trail_of_mem_cursors (hbuilt : t.Built)
    (hc : c ∈ (exportWalk p t).cursors none t t.noLinks) : (c.parent, c.node) ∈ t.trail none := by
  rw [← trail_exportWalk p hbuilt]
  exact List.mem_map.2 ⟨c, hc, rfl⟩

theorem exportedObjects_eq_filter (p : ExportPatch) (hbuilt : t.Built) :
    t.exportedObjects target script
      = (((exportWalk p t).cursors none t t.noLinks).filter fun c =>
          isExport target script (c.parent, c.node)).map Cursor.node := by
  rw [Tree.exportedObjects, ← trail_exportWalk p hbuilt, List.filter_map, List.map_map]
  rfl

/-- What is visited later is not below what was visited before. -/
theorem not_mem_preorder_of_later (hbuilt : t.Built) {front back : List (Cursor Nat)}
    (hcursors : (exportWalk p t).cursors none t t.noLinks = front ++ c :: back) :
    ∀ c' ∈ back, c'.node ∉ c.node.preorder := by
  have hpost := t.postorder_pairwise hbuilt.numbered.ascending.nodup
  rw [← (exportWalk p t).node_cursors t none t.noLinks, hcursors, List.pairwise_map,
    List.pairwise_append, List.pairwise_cons] at hpost
  exact hpost.2.1.1

theorem attachRenderFields_of_no_export (hbuilt : t.Built) (h : t.OfScript script)
    (hnone : t.exportedObjects p.legacyTarget.toList script = []) :
    attachRenderFields p t script = .ok ⟨script, 0⟩ := by
  rw [exportedObjects_eq_filter p hbuilt, List.map_eq_nil_iff, List.filter_eq_nil_iff] at hnone
  obtain ⟨links, hvisits⟩ := visitEach_counts (t := t) (k := 0)
    (fun c hc => readsAlike_ofText _ h (mem_trail_of_mem_cursors hbuilt hc))
    (.inr fun c hc => Bool.eq_false_iff.2 (hnone c hc)) t.noLinks
  rw [attachRenderFields_of_visitEach hvisits, List.countP_eq_zero.2 hnone, Buffer.text_ofText]

/-- Every object literal of a script can be patched: the fields go behind its brace, and its text
gets no shorter. -/
theorem exists_patched (p : ExportPatch) (h : t.OfScript script) {n : Tree} (hn : n ∈ t.preorder)
    (hkind : n.kind = .object) :
    ∃ rest b', (Buffer.ofText script).slice n.span.start n.span.stop = .ok ('{' :: rest) ∧
      (Buffer.ofText script).replace n.span.start n.span.stop (p.opening ++ rest) = .ok b' ∧
      Buffer.Exchanged n.span.start n.span.stop ('{' :: rest) (p.opening ++ rest)
        (.ofText script) b' ∧
      ('{' :: rest).length ≤ (p.opening ++ rest).length ∧
      b'.text = insertText p.fields (n.span.start + 1) script := by
  have hopen := h.objects n hn hkind
  obtain ⟨rest, hseg⟩ := List.head?_eq_some_iff.1 hopen
  have hfits : (Buffer.ofText script).Fits n.span.start n.span.stop := by
    rw [Buffer.Fits, Buffer.size_ofText]
    exact h.inRange n hn
  have hslice := Buffer.slice_ofText.2 ⟨hfits, hseg⟩
  have hreplace := Buffer.replace_of_fits hfits (p.opening ++ rest)
  refine ⟨rest, _, hslice, hreplace,
    Buffer.exchanged_of_replace (h.start_lt_stop hn hkind) hreplace hslice, ?_, ?_⟩
  · rw [ExportPatch.opening, List.cons_append, List.length_cons, List.length_cons,
      List.length_append]
    omega
  · rw [text_opening hslice hreplace, withFields, if_pos hopen]

theorem attachRenderFields_of_export (hbuilt : t.Built) (h : t.OfScript script) {n : Tree}
    {later : List Tree} (hfirst : t.exportedObjects p.legacyTarget.toList script = n :: later) :
    script[n.span.start]? = some '{' ∧ attachRenderFields p t script
      = .ok ⟨insertText p.fields (n.span.start + 1) script, later.length + 1⟩ := by
  -- the visits are split at the first exported object
  rw [exportedObjects_eq_filter p hbuilt, List.map_eq_cons_iff] at hfirst
  obtain ⟨c, found, hfilter, rfl, rfl⟩ := hfirst
  obtain ⟨front, back, hcursors, hfront, hexport, rfl⟩ := List.filter_eq_cons_iff.1 hfilter
  have htrail : ∀ c' ∈ front ++ c :: back, (c'.parent, c'.node) ∈ t.trail none := fun c' hc' =>
    mem_trail_of_mem_cursors hbuilt (hcursors ▸ hc')
  obtain ⟨htrailfront, htrailrest⟩ := List.forall_mem_append.1 htrail
  obtain ⟨hc, htrailback⟩ := List.forall_mem_cons.1 htrailrest
  have hmem : c.node ∈ t.preorder := Tree.mem_preorder_of_mem_trail hc
  have hobject : c.node.kind = .object := object_of_isExport hexport
  have hooks : c.hooks = [] := by
    refine (exportWalk p t).hooks_cursors t none t.noLinks c ?_
    rw [hcursors]
    exact List.mem_append_right _ List.mem_cons_self
  obtain ⟨rest, b', hslice, hreplace, hex, hlong, htext⟩ := exists_patched p h hmem hobject
  obtain ⟨links, hvisits⟩ := visitEach_patches (t := t)
    (fun c hc => Bool.eq_false_iff.2 (hfront c hc))
    (fun c hc => readsAlike_ofText _ h (htrailfront c hc)) hexport (readsAlike_ofText _ h hc) hooks
    hslice hreplace
    (fun c' hc' => readsAlike_of_exchanged h hc hexport hlong hex (htrailback c' hc')
      (not_mem_preorder_of_later hbuilt hcursors c' hc')) t.noLinks
  rw [← hcursors, Nat.add_comm 1, List.countP_eq_length_filter] at hvisits
  refine ⟨getElem?_of_head?_segment (h.objects c.node hmem hobject), ?_⟩
  rw [attachRenderFields_of_visitEach hvisits, htext, List.length_map]

/-- **Exactly one object gets the render fields.**  The patch succeeds and counts the objects that
the script exports.  If there is none the script stays as it is; otherwise the fields go behind the
brace of the first one in post-order, and nothing else changes. -/
theorem attachRenderFields_eq_insertText (p : ExportPatch) (hbuilt : t.Built)
    (h : t.OfScript script) :
    ∃ code, attachRenderFields p t script
        = .ok ⟨code, (t.exportedObjects p.legacyTarget.toList script).length⟩ ∧
      (t.exportedObjects p.legacyTarget.toList script = [] → code = script) ∧
      ∀ n later, t.exportedObjects p.legacyTarget.toList script = n :: later →
        script[n.span.start]? = some '{' ∧
          ∃ fields, p.opening = '{' :: fields ∧
            code = insertText fields (n.span.start + 1) script := by
  cases hobjects : t.exportedObjects p.legacyTarget.toList script with
  | nil => exact ⟨script, attachRenderFields_of_no_export hbuilt h hobjects, fun _ => rfl, nofun⟩
  | cons n later =>
    obtain ⟨hbrace, hcode⟩ := attachRenderFields_of_export hbuilt h hobjects
    refine ⟨_, hcode, nofun, fun n' later' heq => ?_⟩
    obtain ⟨rfl, -⟩ := List.cons.inj heq
    exact ⟨hbrace, p.fields, rfl, rfl⟩

/-! A script that exports an object inside an exported object, both in the left side of an
assignment: `f(m={a:m={}}).x={}`. -/

namespace NestedExports

def source : List Char :=
  ['f', '(', 'm', '=', '{', 'a', ':', 'm', '=', '{', '}', '}', ')', '.', 'x', '=', '{', '}']

def innerObject : Tree := .node 8 .object ⟨9, 11⟩ []

def inner : Tree := .node 7 (.assignment ⟨7, 8⟩) ⟨7, 11⟩ [innerObject]

def property : Tree := .node 6 .property ⟨5, 11⟩ [inner]

def outerObject : Tree := .node 5 .object ⟨4, 12⟩ [property]

def outer : Tree := .node 4 (.assignment ⟨2, 3⟩) ⟨2, 12⟩ [outerObject]

def member : Tree := .node 3 .other ⟨0, 15⟩ [outer]

def lastObject : Tree := .node 9 .object ⟨16, 18⟩ []

def last : Tree := .node 2 (.assignment ⟨0, 15⟩) ⟨0, 18⟩ [member, lastObject]

def statement : Tree := .node 1 .expressionStatement ⟨0, 18⟩ [last]

def tree : Tree := .node 0 .program ⟨0, 18⟩ [statement]

theorem built_tree : tree.Built := by
  have hopen := ((((((((TreeBuilder.Reachable.start.openNode .program ⟨0, 18⟩).openNode
    .expressionStatement ⟨0, 18⟩).openNode (.assignment ⟨0, 15⟩) ⟨0, 18⟩).openNode
    .other ⟨0, 15⟩).openNode (.assignment ⟨2, 3⟩) ⟨2, 12⟩).openNode .object ⟨4, 12⟩).openNode
    .property ⟨5, 11⟩).openNode (.assignment ⟨7, 8⟩) ⟨7, 11⟩).openNode .object ⟨9, 11⟩
  have hleft := hopen.closeNode.closeNode.closeNode.closeNode.closeNode.closeNode
  exact ⟨_, (hleft.openNode .object ⟨16, 18⟩).closeNode.closeNode.closeNode.closeNode, rfl⟩

theorem assignment_cases {a : Tree} (ha : a ∈ tree.preorder) {left : Span}
    (hleft : a.kind = .assignment left) :
    (a = last ∧ left = ⟨0, 15⟩) ∨ (a = outer ∧ left = ⟨2, 3⟩) ∨ (a = inner ∧ left = ⟨7, 8⟩) := by
  change a ∈ [tree, statement, last, member, outer, outerObject, property, inner, innerObject,
    lastObject] at ha
  simp only [List.mem_cons, List.not_mem_nil, or_false] at ha
  rcases ha with rfl | rfl | rfl | rfl | rfl | rfl | rfl | rfl | rfl | rfl <;> cases hleft
  · exact .inl ⟨rfl, rfl⟩
  · exact .inr (.inl ⟨rfl, rfl⟩)
  · exact .inr (.inr ⟨rfl, rfl⟩)

theorem object_cases {x : Option Tree × Tree} (hx : x ∈ tree.trail none)
    (hkind : x.2.kind = .object) :
    x = (some inner, innerObject) ∨ x = (some outer, outerObject) ∨
      x = (some last, lastObject) := by
  change x ∈ [(some inner, innerObject), (some property, inner), (some outerObject, property),
    (some outer, outerObject), (some member, outer), (some last, member), (some last, lastObject),
    (some statement, last), (some tree, statement), (none, tree)] at hx
  simp only [List.mem_cons, List.not_mem_nil, or_false] at hx
  rcases hx with rfl | rfl | rfl | rfl | rfl | rfl | rfl | rfl | rfl | rfl <;> cases hkind
  · exact .inl rfl
  · exact .inr (.inl rfl)
  · exact .inr (.inr rfl)

theorem ofScript_tree : tree.OfScript source where
  inRange := by decide
  nested := by decide
  objects := by
    unfold Tree.ObjectsOpen
    decide
  exports := by
    have hno : ∀ e ∈ tree.preorder, e.kind ≠ .exportDefault := by decide
    intro e he hkind
    exact absurd hkind (hno e he)
  leftSide := by
    intro a ha left hleft
    rcases assignment_cases ha hleft with ⟨rfl, rfl⟩ | ⟨rfl, rfl⟩ | ⟨rfl, rfl⟩ <;> decide
  leftApart := by
    intro a ha left hleft x hx hkind
    rcases assignment_cases ha hleft with ⟨rfl, rfl⟩ | ⟨rfl, rfl⟩ | ⟨rfl, rfl⟩
    · rcases object_cases hx hkind with rfl | rfl | rfl
      · exact .inr (.inr ⟨_, rfl, by decide⟩)
      · exact .inr (.inr ⟨_, rfl, by decide⟩)
      · exact .inl (Span.disjoint_of_le (by decide))
    · rcases object_cases hx hkind with rfl | rfl | rfl <;>
        exact .inl (Span.disjoint_of_le (by decide))
    · rcases object_cases hx hkind with rfl | rfl | rfl
      · exact .inl (Span.disjoint_of_le (by decide))
      · refine .inr (.inl ?_)
        change inner ∈ [outerObject, property, inner, innerObject]
        simp
      · exact .inl (Span.disjoint_of_le (by decide))

end NestedExports

/-- The inner object is the first one in post-order, and the only one that is patched. -/
theorem attachRenderFields_eq_insertText_nested :
    NestedExports.tree.Built ∧ NestedExports.tree.OfScript NestedExports.source ∧
      ∃ fields, ExportPatch.opening { legacyTarget := "m" } = '{' :: fields ∧
        attachRenderFields { legacyTarget := "m" } NestedExports.tree NestedExports.source
          = .ok ⟨insertText fields 10 NestedExports.source, 2⟩ := by
  have hobjects : NestedExports.tree.exportedObjects
      (ExportPatch.legacyTarget { legacyTarget := "m" }).toList NestedExports.source
        = [NestedExports.innerObject, NestedExports.outerObject] := rfl
  obtain ⟨code, hcode, -, hfirst⟩ := attachRenderFields_eq_insertText { legacyTarget := "m" }
    NestedExports.built_tree NestedExports.ofScript_tree
  obtain ⟨-, fields, hfields, rfl⟩ := hfirst _ _ hobjects
  rw [hobjects] at hcode
  exact ⟨NestedExports.built_tree, NestedExports.ofScript_tree, fields, hfields, hcode⟩

end ComponentCompiler
