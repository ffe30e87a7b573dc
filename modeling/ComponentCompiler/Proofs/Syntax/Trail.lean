import ComponentCompiler.Proofs.Syntax.Rewrite

/-!
# The trail of a walk

A walk links nodes and visits them; which links it makes does not depend on what the visitor does.
So a walk is the same as visiting a list of cursors one after another, and that list can be said
beforehand: the nodes in post-order, each with the links that are there when it is visited.

In a tree whose nodes are numbered by the order in which they were opened, no link is ever
overwritten by that of another node, and the parent of a node that is visited is the node above it.

## Main definitions

* `Tree.Numbered` — the nodes of a tree in pre-order have the numbers 0, 1, ….
* `TreeBuilder.Reachable`, `Tree.Built` — what can be built.
* `Tree.trail` — the nodes in post-order, each with the node above it.
* `Walk.cursors`, `Walk.visitEach` — the cursors of a walk, and the visits of them.

## Main results

* `Tree.Built.numbered` — trees that were built are numbered.
* `Walk.below_eq_visitEach` — **a walk visits its cursors, one after another**.
* `Walk.trail_cursors` — **each node is visited with the node above it as its parent**.
-/

namespace ComponentCompiler

/-! ### Numbered trees -/

/-- The nodes of a tree in pre-order have the numbers 0, 1, …. -/
def Tree.Numbered (t : Tree) : Prop := t.preorder.map Tree.id = List.range t.size

namespace TreeBuilder

/-- What can become of an empty builder. -/
inductive Reachable : TreeBuilder → Prop where
  /-- The empty builder. -/
  | start : Reachable {}
  /-- A node is opened. -/
  | openNode {b : TreeBuilder} (h : Reachable b) (kind : NodeKind) (span : Span) :
      Reachable (b.openNode kind span)
  /-- The innermost open node is closed. -/
  | closeNode {b : TreeBuilder} (h : Reachable b) : Reachable b.closeNode

end TreeBuilder

/-- The tree comes from a builder. -/
def Tree.Built (t : Tree) : Prop := ∃ b : TreeBuilder, b.Reachable ∧ b.finish = .ok t

theorem Tree.preorderAll_eq_flatMap (ts : List Tree) :
    Tree.preorderAll ts = ts.flatMap Tree.preorder := by
  induction ts with
  | nil => rfl
  | cons t ts ih => rw [Tree.preorderAll, List.flatMap_cons, ih]

/-- The numbers of an open node and of the complete trees below it, in the order in which they were
given out. -/
def OpenNode.ids (n : OpenNode) : List Nat := n.toTree.preorder.map Tree.id

theorem OpenNode.ids_eq (n : OpenNode) :
    n.ids = n.id :: (n.done.reverse.flatMap Tree.preorder).map Tree.id := by
  rw [ids, toTree, Tree.preorder, List.map_cons, Tree.preorderAll_eq_flatMap]
  rfl

namespace TreeBuilder

/-- All numbers, in the order in which they were given out. -/
def ids (b : TreeBuilder) : List Nat :=
  (b.roots.reverse.flatMap Tree.preorder).map Tree.id ++ b.stack.reverse.flatMap OpenNode.ids

theorem count_closeNode (b : TreeBuilder) : b.closeNode.count = b.count := by
  unfold closeNode
  split <;> rfl

/-- A closed node keeps its numbers where they are. -/
theorem ids_closeNode (b : TreeBuilder) : b.closeNode.ids = b.ids := by
  obtain ⟨count, stack, roots⟩ := b
  match stack with
  | [] => rfl
  | [n] =>
    simp only [closeNode, ids, OpenNode.ids, List.reverse_cons, List.reverse_nil,
      List.flatMap_append, List.map_append, List.flatMap_singleton, List.nil_append,
      List.append_nil, List.flatMap_nil]
  | n :: parent :: rest =>
    have hparent : ({ parent with done := n.toTree :: parent.done } : OpenNode).ids
        = parent.ids ++ n.ids := by
      rw [OpenNode.ids_eq, OpenNode.ids_eq parent]
      simp only [List.reverse_cons, List.flatMap_append, List.map_append, List.flatMap_singleton,
        List.cons_append, OpenNode.ids]
    simp only [closeNode, ids, List.reverse_cons, List.flatMap_append, List.flatMap_singleton,
      List.append_assoc, hparent]

theorem Reachable.ids_eq_range {b : TreeBuilder} (h : b.Reachable) :
    b.ids = List.range b.count := by
  induction h with
  | start => rfl
  | @openNode b h kind span ih =>
    have hids : (b.openNode kind span).ids = b.ids ++ [b.count] := by
      simp only [TreeBuilder.openNode, ids, List.reverse_cons, List.flatMap_append,
        List.flatMap_singleton, List.append_assoc]
      rfl
    rw [hids, ih]
    exact List.range_succ.symm
  | @closeNode b h ih =>
    rw [ids_closeNode, ih, count_closeNode]

end TreeBuilder

/-- **Trees that were built are numbered.** -/
theorem Tree.Built.numbered {t : Tree} (h : t.Built) : t.Numbered := by
  obtain ⟨⟨count, stack, roots⟩, hb, hfinish⟩ := h
  have hids := hb.ids_eq_range
  match roots, stack, hfinish with
  | [t'], [], hfinish =>
    obtain rfl : t' = t := Except.ok.inj hfinish
    have hpre : t'.preorder.map Tree.id = List.range count := by
      simpa [TreeBuilder.ids] using hids
    have hcount : t'.size = count := by
      have := congrArg List.length hpre
      simpa [Tree.size] using this
    rw [Tree.Numbered, hpre, hcount]
  | [], [], hfinish | [], _ :: _, hfinish | [_], _ :: _, hfinish | _ :: _ :: _, [], hfinish
  | _ :: _ :: _, _ :: _, hfinish => cases hfinish

/-! ### Nodes with the nodes above them -/

namespace Tree

mutual

/-- The nodes of a tree in post-order, each with the node above it; `parent` is above the tree. -/
def trail (parent : Option Tree) : Tree → List (Option Tree × Tree)
  | .node i k s ts => trailAll (.node i k s ts) ts ++ [(parent, .node i k s ts)]

/-- The nodes of the trees below a node, tree by tree. -/
def trailAll (parent : Tree) : List Tree → List (Option Tree × Tree)
  | [] => []
  | t :: ts => t.trail (some parent) ++ trailAll parent ts

end

mutual

theorem mem_trail {x : Option Tree} {n : Tree} : ∀ (t : Tree) (parent : Option Tree),
    (x, n) ∈ t.trail parent ↔
      (x = parent ∧ n = t) ∨ ∃ p ∈ t.preorder, x = some p ∧ n ∈ p.children
  | .node i k s ts, parent => by
    rw [trail, List.mem_append, List.mem_singleton, mem_trailAll ts, Prod.mk.injEq, preorder]
    constructor
    · rintro ((⟨rfl, hn⟩ | ⟨p, hp, hx⟩) | h)
      · exact .inr ⟨_, List.mem_cons_self, rfl, hn⟩
      · exact .inr ⟨p, List.mem_cons_of_mem _ hp, hx⟩
      · exact .inl h
    · rintro (h | ⟨p, hp, hx, hn⟩)
      · exact .inr h
      · rcases List.mem_cons.1 hp with rfl | hp
        · exact .inl (.inl ⟨hx, hn⟩)
        · exact .inl (.inr ⟨p, hp, hx, hn⟩)

theorem mem_trailAll {x : Option Tree} {n : Tree} : ∀ (ts : List Tree) (parent : Tree),
    (x, n) ∈ trailAll parent ts ↔
      (x = some parent ∧ n ∈ ts) ∨ ∃ p ∈ preorderAll ts, x = some p ∧ n ∈ p.children
  | [], parent => by simp [trailAll, preorderAll]
  | t :: ts, parent => by
    rw [trailAll, List.mem_append, mem_trail t, mem_trailAll ts, preorderAll]
    constructor
    · rintro ((⟨hx, rfl⟩ | ⟨p, hp, h⟩) | (⟨hx, hn⟩ | ⟨p, hp, h⟩))
      · exact .inl ⟨hx, List.mem_cons_self⟩
      · exact .inr ⟨p, List.mem_append_left _ hp, h⟩
      · exact .inl ⟨hx, List.mem_cons_of_mem _ hn⟩
      · exact .inr ⟨p, List.mem_append_right _ hp, h⟩
    · rintro (⟨hx, hn⟩ | ⟨p, hp, h⟩)
      · rcases List.mem_cons.1 hn with rfl | hn
        · exact .inl (.inl ⟨hx, rfl⟩)
        · exact .inr (.inl ⟨hx, hn⟩)
      · rcases List.mem_append.1 hp with hp | hp
        · exact .inl (.inr ⟨p, hp, h⟩)
        · exact .inr (.inr ⟨p, hp, h⟩)

end

mutual

theorem mem_postorder {n : Tree} : ∀ {t : Tree}, n ∈ t.postorder ↔ n ∈ t.preorder
  | .node i k s ts => by
    rw [postorder, preorder, List.mem_append, List.mem_singleton, List.mem_cons, mem_postorderAll,
      or_comm]

theorem mem_postorderAll {n : Tree} : ∀ {ts : List Tree}, n ∈ postorderAll ts ↔ n ∈ preorderAll ts
  | [] => Iff.rfl
  | t :: ts => by
    rw [postorderAll, preorderAll, List.mem_append, List.mem_append, mem_postorder,
      mem_postorderAll]

end

/-- In a tree without two nodes of one number, a node is found by its number. -/
theorem find?_of_mem {t n : Tree} (h : (t.preorder.map Tree.id).Nodup) (hn : n ∈ t.preorder) :
    t.find? n.id = some n := by
  rw [find?]
  generalize t.preorder = ns at h hn
  induction ns with
  | nil => cases hn
  | cons m ms ih =>
    obtain ⟨hm, hms⟩ := List.nodup_cons.1 h
    rcases List.mem_cons.1 hn with rfl | hn
    · simp
    · have hne : (m.id == n.id) = false := by
        rw [beq_eq_false_iff_ne]
        exact fun heq => hm (heq ▸ List.mem_map.2 ⟨n, hn, rfl⟩)
      rw [List.find?_cons, hne]
      exact ih hms hn

end Tree

/-! ### The cursors of a walk -/

namespace Walk

variable {σ ε : Type}

mutual

/-- The links behind a walk of a tree. -/
def linked (parent : Option Nat) : Tree → Links → Links
  | .node i _ _ ts, links => linkedAll i ts (links.setIfInBounds i parent)

/-- The links behind a walk of the trees below a node. -/
def linkedAll (parent : Nat) : List Tree → Links → Links
  | [], links => links
  | t :: ts, links => linkedAll parent ts (linked (some parent) t links)

end

/-- The cursor at a node, with the links that are there. -/
def cursorAt (w : Walk σ ε) (links : Links) (n : Tree) : Cursor σ :=
  { tree := w.tree, links, hooks := w.hooks, node := n }

mutual

/-- The cursors of a walk of a tree, in the order of the visits. -/
def cursors (w : Walk σ ε) (parent : Option Nat) : Tree → Links → List (Cursor σ)
  | .node i k s ts, links =>
      w.cursorsAll i ts (links.setIfInBounds i parent) ++
        [w.cursorAt (linkedAll i ts (links.setIfInBounds i parent)) (.node i k s ts)]

/-- The cursors of a walk of the trees below a node. -/
def cursorsAll (w : Walk σ ε) (parent : Nat) : List Tree → Links → List (Cursor σ)
  | [], _ => []
  | t :: ts, links =>
      w.cursors (some parent) t links ++ w.cursorsAll parent ts (linked (some parent) t links)

end

/-- Visit a node with the links that its cursor has. -/
def visitAt (w : Walk σ ε) (c : Cursor σ) : EStateM ε (WalkState σ) Unit := fun s =>
  match w.visit c s.desk with
  | .ok _ d => .ok () ⟨c.links, d⟩
  | .error e d => .error e ⟨c.links, d⟩

theorem visitNode_eq_visitAt (w : Walk σ ε) (n : Tree) (s : WalkState σ) :
    w.visitNode n s = w.visitAt (w.cursorAt s.links n) s := rfl

theorem visitAt_of_ok {w : Walk σ ε} {c : Cursor σ} {d d' : Desk σ} (h : w.visit c d = .ok () d')
    (links : Links) : w.visitAt c ⟨links, d⟩ = .ok () ⟨c.links, d'⟩ := by
  rw [visitAt, h]

theorem visitAt_of_error {w : Walk σ ε} {c : Cursor σ} {d d' : Desk σ} {e : ε}
    (h : w.visit c d = .error e d') (links : Links) :
    w.visitAt c ⟨links, d⟩ = .error e ⟨c.links, d'⟩ := by
  rw [visitAt, h]

/-- Visit nodes one after another. -/
def visitEach (w : Walk σ ε) : List (Cursor σ) → EStateM ε (WalkState σ) Unit
  | [] => pure ()
  | c :: cs => do
      w.visitAt c
      w.visitEach cs

theorem visitEach_append (w : Walk σ ε) (cs ds : List (Cursor σ)) :
    w.visitEach (cs ++ ds) = (w.visitEach cs >>= fun _ => w.visitEach ds) := by
  induction cs with
  | nil => rw [List.nil_append, visitEach, pure_bind]
  | cons c cs ih => rw [List.cons_append, visitEach, ih, visitEach, bind_assoc]

/-- The links before the first visit do not matter. -/
theorem visitEach_links (w : Walk σ ε) {cs : List (Cursor σ)} (h : cs ≠ []) (links links' : Links)
    (d : Desk σ) : w.visitEach cs ⟨links, d⟩ = w.visitEach cs ⟨links', d⟩ := by
  cases cs with
  | nil => exact absurd rfl h
  | cons c cs => rfl

mutual

/-- **A walk visits its cursors, one after another.** -/
theorem below_eq_visitEach (w : Walk σ ε) : ∀ (t : Tree) (parent : Option Nat) (links : Links)
    (d : Desk σ),
    w.below parent t ⟨links, d⟩ = w.visitEach (w.cursors parent t links) ⟨links, d⟩ ∧
      ∀ s, w.below parent t ⟨links, d⟩ = .ok () s → s.links = linked parent t links
  | .node i k sp ts, parent, links, d => by
    obtain ⟨hall, hlinks⟩ := belowAll_eq_visitEach w ts i (links.setIfInBounds i parent) d
    have hlink : link i parent ⟨links, d⟩
        = (.ok () ⟨links.setIfInBounds i parent, d⟩ : EStateM.Result ε _ _) := rfl
    -- the visit of the node itself comes last, with the links that its children left
    have hlast : ∀ s : WalkState σ, w.visitEach [w.cursorAt s.links (.node i k sp ts)] s
        = w.visitNode (.node i k sp ts) s := by
      intro s
      rw [visitEach, visitEach, bind_pure_unit, visitNode_eq_visitAt]
    rw [below, bind_of_ok hlink, cursors,
      visitEach_links w (by simp) links (links.setIfInBounds i parent), visitEach_append]
    cases hrun : w.belowAll i ts ⟨links.setIfInBounds i parent, d⟩ with
    | error e s =>
      rw [bind_of_error hrun, bind_of_error (hall.symm.trans hrun)]
      exact ⟨rfl, nofun⟩
    | ok _ s =>
      have hs : s.links = linkedAll i ts (links.setIfInBounds i parent) := hlinks s hrun
      rw [bind_of_ok hrun, bind_of_ok (hall.symm.trans hrun), ← hs, hlast]
      refine ⟨rfl, fun s' hs' => ?_⟩
      rw [linked, ← hs]
      rw [visitNode] at hs'
      split at hs'
      · cases hs'
        rfl
      · cases hs'

theorem belowAll_eq_visitEach (w : Walk σ ε) : ∀ (ts : List Tree) (parent : Nat) (links : Links)
    (d : Desk σ),
    w.belowAll parent ts ⟨links, d⟩ = w.visitEach (w.cursorsAll parent ts links) ⟨links, d⟩ ∧
      ∀ s, w.belowAll parent ts ⟨links, d⟩ = .ok () s → s.links = linkedAll parent ts links
  | [], parent, links, d => by
    refine ⟨rfl, ?_⟩
    rintro s ⟨⟩
    rfl
  | t :: ts, parent, links, d => by
    obtain ⟨hfirst, hlinks⟩ := below_eq_visitEach w t (some parent) links d
    rw [belowAll, cursorsAll, visitEach_append]
    cases hrun : w.below (some parent) t ⟨links, d⟩ with
    | error e s =>
      rw [bind_of_error hrun, bind_of_error (hfirst.symm.trans hrun)]
      exact ⟨rfl, nofun⟩
    | ok _ s =>
      obtain ⟨links', d'⟩ := s
      obtain rfl : links' = linked (some parent) t links := hlinks _ hrun
      rw [bind_of_ok hrun, bind_of_ok (hfirst.symm.trans hrun)]
      exact belowAll_eq_visitEach w ts parent _ d'

end

mutual

/-- The nodes are visited in post-order. -/
theorem node_cursors (w : Walk σ ε) : ∀ (t : Tree) (parent : Option Nat) (links : Links),
    (w.cursors parent t links).map Cursor.node = t.postorder
  | .node i k s ts, parent, links => by
    rw [cursors, List.map_append, node_cursorsAll w ts, Tree.postorder]
    rfl

theorem node_cursorsAll (w : Walk σ ε) : ∀ (ts : List Tree) (parent : Nat) (links : Links),
    (w.cursorsAll parent ts links).map Cursor.node = Tree.postorderAll ts
  | [], parent, links => rfl
  | t :: ts, parent, links => by
    rw [cursorsAll, List.map_append, node_cursors w t, node_cursorsAll w ts, Tree.postorderAll]

end

mutual

theorem hooks_cursors (w : Walk σ ε) : ∀ (t : Tree) (parent : Option Nat) (links : Links),
    ∀ c ∈ w.cursors parent t links, c.hooks = w.hooks
  | .node i k s ts, parent, links, c, hc => by
    rw [cursors, List.mem_append, List.mem_singleton] at hc
    rcases hc with hc | rfl
    · exact hooks_cursorsAll w ts i _ c hc
    · rfl

theorem hooks_cursorsAll (w : Walk σ ε) : ∀ (ts : List Tree) (parent : Nat) (links : Links),
    ∀ c ∈ w.cursorsAll parent ts links, c.hooks = w.hooks
  | [], parent, links, c, hc => nomatch hc
  | t :: ts, parent, links, c, hc => by
    rw [cursorsAll, List.mem_append] at hc
    rcases hc with hc | hc
    · exact hooks_cursors w t (some parent) links c hc
    · exact hooks_cursorsAll w ts parent _ c hc

end

/-! ### Parents -/

mutual

theorem size_linked : ∀ (t : Tree) (parent : Option Nat) (links : Links),
    (linked parent t links).size = links.size
  | .node i k s ts, parent, links => by
    rw [linked, size_linkedAll ts, Array.size_setIfInBounds]

theorem size_linkedAll : ∀ (ts : List Tree) (parent : Nat) (links : Links),
    (linkedAll parent ts links).size = links.size
  | [], parent, links => rfl
  | t :: ts, parent, links => by
    rw [linkedAll, size_linkedAll ts, size_linked t]

end

mutual

/-- Only the nodes of a tree are linked when it is walked. -/
theorem getElem?_linked {j : Nat} : ∀ (t : Tree) (parent : Option Nat) (links : Links),
    j ∉ t.preorder.map Tree.id → (linked parent t links)[j]? = links[j]?
  | .node i k s ts, parent, links, hj => by
    rw [Tree.preorder, List.map_cons, List.mem_cons, not_or] at hj
    have hne : i ≠ j := Ne.symm hj.1
    rw [linked, getElem?_linkedAll ts i _ hj.2, Array.getElem?_setIfInBounds_ne hne]

theorem getElem?_linkedAll {j : Nat} : ∀ (ts : List Tree) (parent : Nat) (links : Links),
    j ∉ (Tree.preorderAll ts).map Tree.id → (linkedAll parent ts links)[j]? = links[j]?
  | [], parent, links, _ => rfl
  | t :: ts, parent, links, hj => by
    rw [Tree.preorderAll, List.map_append, List.mem_append, not_or] at hj
    rw [linkedAll, getElem?_linkedAll ts parent _ hj.2, getElem?_linked t (some parent) links hj.1]

end

mutual

/-- **Each node is visited with the node above it as its parent**, if no two nodes of the whole tree
have one number and there is room for all links. -/
theorem trail_cursors (w : Walk σ ε) (hw : (w.tree.preorder.map Tree.id).Nodup) :
    ∀ (t : Tree) (parent : Option Nat) (links : Links), (∀ n ∈ t.preorder, n ∈ w.tree.preorder) →
      (t.preorder.map Tree.id).Nodup → (∀ n ∈ t.preorder, n.id < links.size) →
      (w.cursors parent t links).map (fun c => (c.parent, c.node))
        = t.trail (parent.bind w.tree.find?)
  | .node i k s ts, parent, links, hsub, hnodup, hroom => by
    rw [Tree.preorder, List.map_cons, List.nodup_cons] at hnodup
    obtain ⟨(hi : i ∉ (Tree.preorderAll ts).map Tree.id), hts⟩ := hnodup
    have hself : w.tree.find? i = some (.node i k s ts) :=
      Tree.find?_of_mem hw (hsub _ (Tree.mem_preorder_self _))
    have hlink : (links.setIfInBounds i parent)[i]? = some parent :=
      Array.getElem?_setIfInBounds_self_of_lt (hroom _ (Tree.mem_preorder_self _))
    have hchildren := trailAll_cursorsAll w hw ts i (links.setIfInBounds i parent) hself
      (fun n hn => hsub n (List.mem_cons_of_mem _ hn)) hts (fun n hn => by
        rw [Array.size_setIfInBounds]
        exact hroom n (List.mem_cons_of_mem _ hn))
    -- the links of the nodes below have other numbers, so the node's own link is still there
    have hparent : (w.cursorAt (linkedAll i ts (links.setIfInBounds i parent))
        (.node i k s ts)).parent = parent.bind w.tree.find? := by
      show ((linkedAll i ts (links.setIfInBounds i parent))[i]?.join).bind w.tree.find? = _
      rw [getElem?_linkedAll ts i _ hi, hlink]
      rfl
    rw [cursors, Tree.trail, List.map_append, hchildren, List.map_singleton, hparent]
    rfl

theorem trailAll_cursorsAll (w : Walk σ ε) (hw : (w.tree.preorder.map Tree.id).Nodup) :
    ∀ (ts : List Tree) (parent : Nat) (links : Links) {p : Tree}, w.tree.find? parent = some p →
      (∀ n ∈ Tree.preorderAll ts, n ∈ w.tree.preorder) →
      ((Tree.preorderAll ts).map Tree.id).Nodup → (∀ n ∈ Tree.preorderAll ts, n.id < links.size) →
      (w.cursorsAll parent ts links).map (fun c => (c.parent, c.node)) = Tree.trailAll p ts
  | [], parent, links, p, hp, hsub, hnodup, hroom => rfl
  | t :: ts, parent, links, p, hp, hsub, hnodup, hroom => by
    rw [Tree.preorderAll, List.map_append, List.nodup_append] at hnodup
    obtain ⟨ht, hts, -⟩ := hnodup
    have hfirst := trail_cursors w hw t (some parent) links
      (fun n hn => hsub n (List.mem_append_left _ hn)) ht
      (fun n hn => hroom n (List.mem_append_left _ hn))
    have hrest := trailAll_cursorsAll w hw ts parent (linked (some parent) t links) hp
      (fun n hn => hsub n (List.mem_append_right _ hn)) hts (fun n hn => by
        rw [size_linked]
        exact hroom n (List.mem_append_right _ hn))
    rw [cursorsAll, List.map_append, hfirst, hrest, Tree.trailAll, Option.bind_some, hp]

end

/-- A walk of a numbered tree, from links that have room for all its nodes. -/
theorem trail_cursors_of_numbered (w : Walk σ ε) (h : w.tree.Numbered) (links : Links)
    (hlinks : links.size = w.tree.size) :
    (w.cursors none w.tree links).map (fun c => (c.parent, c.node)) = w.tree.trail none := by
  rw [Tree.Numbered] at h
  have hnodup : (w.tree.preorder.map Tree.id).Nodup := by
    rw [h]
    exact List.nodup_range
  refine w.trail_cursors hnodup w.tree none links (fun _ hn => hn) hnodup fun n hn => ?_
  have hmem : n.id ∈ w.tree.preorder.map Tree.id := List.mem_map.2 ⟨n, hn, rfl⟩
  rw [h, List.mem_range] at hmem
  omega

end Walk

end ComponentCompiler
