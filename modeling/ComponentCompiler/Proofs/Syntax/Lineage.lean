import ComponentCompiler.Proofs.Syntax.Trail

/-!
# Links and lines of descent

The links that are there when a node is visited can be said without the walk.  A walk writes one
link for each node that it reaches, in pre-order (`Tree.pedigree`); when it visits a node, it has
reached all nodes up to the last one below that node and no others.  In a tree that was built, the
numbers grow in pre-order, so these are the nodes whose number is at most the largest one in the
subtree (`Tree.lastId`).

The nodes above a node are among them, since their numbers are smaller.  So the links followed from
a node that is visited lead through all nodes above it up to the root, and end there.

## Main definitions

* `Tree.lineage` — the nodes in post-order, each with all nodes above it.
* `Tree.pedigree`, `linkAll` — the links of a tree, and writing them.
* `Tree.lastId` — the largest number in a tree.

## Main results

* `Walk.links_of_mem_cursors` — **the links at a visit**.
* `Walk.getElem?_links_of_mem_cursors` — the link of each node at a visit.
* `Walk.ancestorsOf_of_mem_cursors` — **the links lead to the root**.
-/

namespace ComponentCompiler

namespace Tree

/-! ### Subtrees -/

mutual

theorem preorder_sublist {n : Tree} : ∀ {t : Tree}, n ∈ t.preorder → n.preorder.Sublist t.preorder
  | .node i k s ts, h => by
    rw [preorder] at h
    rcases List.mem_cons.1 h with rfl | h
    · exact List.Sublist.refl _
    · show n.preorder.Sublist (.node i k s ts :: preorderAll ts)
      exact (preorder_sublist_all h).cons _

theorem preorder_sublist_all {n : Tree} :
    ∀ {ts : List Tree}, n ∈ preorderAll ts → n.preorder.Sublist (preorderAll ts)
  | t :: ts, h => by
    rw [preorderAll] at h ⊢
    rcases List.mem_append.1 h with h | h
    · exact (preorder_sublist h).trans (List.sublist_append_left _ _)
    · exact (preorder_sublist_all h).trans (List.sublist_append_right _ _)

end

theorem mem_preorderAll_of_mem {n : Tree} {ts : List Tree} (h : n ∈ ts) : n ∈ preorderAll ts := by
  rw [preorderAll_eq_flatMap]
  exact List.mem_flatMap.2 ⟨n, h, n.mem_preorder_self⟩

/-- The numbers of the nodes grow in pre-order. -/
def Ascending (ns : List Tree) : Prop := ns.Pairwise fun n m => n.id < m.id

theorem Numbered.ascending {t : Tree} (h : t.Numbered) : Ascending t.preorder := by
  rw [Numbered] at h
  have hrange : (t.preorder.map Tree.id).Pairwise (· < ·) := by
    rw [h]
    exact List.pairwise_lt_range
  exact List.pairwise_map.1 hrange

theorem Ascending.nodup {ns : List Tree} (h : Ascending ns) : (ns.map Tree.id).Nodup :=
  List.pairwise_map.2 (h.imp Nat.ne_of_lt)

/-- The largest number in a tree. -/
def lastId (t : Tree) : Nat := (t.preorder.map Tree.id).max?.getD 0

theorem max?_id_preorder (t : Tree) : (t.preorder.map Tree.id).max? = some t.lastId := by
  have hself : t.id ∈ t.preorder.map Tree.id := List.mem_map.2 ⟨t, t.mem_preorder_self, rfl⟩
  obtain ⟨i, hi⟩ := Option.isSome_iff_exists.1 (List.isSome_max?_of_mem hself)
  rw [lastId, hi, Option.getD_some]

theorem id_le_lastId {t n : Tree} (h : n ∈ t.preorder) : n.id ≤ t.lastId :=
  (List.max?_eq_some_iff.1 t.max?_id_preorder).2 n.id (List.mem_map.2 ⟨n, h, rfl⟩)

theorem exists_id_eq_lastId (t : Tree) : ∃ n ∈ t.preorder, n.id = t.lastId :=
  List.mem_map.1 (List.max?_eq_some_iff.1 t.max?_id_preorder).1

/-! ### Lines of descent -/

mutual

/-- The nodes of a tree in post-order, each with all nodes above it, nearest first; `above` are
above the tree. -/
def lineage (above : List Tree) : Tree → List (List Tree × Tree)
  | .node i k s ts => lineageAll (.node i k s ts :: above) ts ++ [(above, .node i k s ts)]

/-- The nodes of some trees, tree by tree. -/
def lineageAll (above : List Tree) : List Tree → List (List Tree × Tree)
  | [] => []
  | t :: ts => t.lineage above ++ lineageAll above ts

end

mutual

theorem node_lineage : ∀ (t : Tree) (above : List Tree),
    (t.lineage above).map Prod.snd = t.postorder
  | .node i k s ts, above => by
    rw [lineage, List.map_append, node_lineageAll ts, postorder]
    rfl

theorem node_lineageAll : ∀ (ts : List Tree) (above : List Tree),
    (lineageAll above ts).map Prod.snd = postorderAll ts
  | [], _ => rfl
  | t :: ts, above => by
    rw [lineageAll, List.map_append, node_lineage t, node_lineageAll ts, postorderAll]

end

theorem mem_preorder_of_mem_lineage {t : Tree} {above : List Tree} {x : List Tree × Tree}
    (h : x ∈ t.lineage above) : x.2 ∈ t.preorder := by
  rw [← mem_postorder, ← node_lineage t above]
  exact List.mem_map.2 ⟨x, h, rfl⟩

mutual

/-- The first of the nodes above a node is its parent, and the others are above the parent. -/
theorem mem_lineage_cases {path : List Tree} {n : Tree} : ∀ (t : Tree) (above : List Tree),
    (path, n) ∈ t.lineage above → (path = above ∧ n = t) ∨
      ∃ p ps, path = p :: ps ∧ (ps, p) ∈ t.lineage above ∧ n ∈ p.children
  | .node i k s ts, above, h => by
    rw [lineage, List.mem_append, List.mem_singleton] at h
    rcases h with h | h
    · have hself : (above, node i k s ts) ∈ (node i k s ts).lineage above := by
        rw [lineage]
        exact List.mem_append_right _ (List.mem_singleton_self _)
      rcases mem_lineageAll_cases ts _ h with ⟨rfl, hn⟩ | ⟨p, ps, rfl, hp, hn⟩
      · exact .inr ⟨_, _, rfl, hself, hn⟩
      · refine .inr ⟨p, ps, rfl, ?_, hn⟩
        rw [lineage]
        exact List.mem_append_left _ hp
    · exact .inl ⟨congrArg Prod.fst h, congrArg Prod.snd h⟩

theorem mem_lineageAll_cases {path : List Tree} {n : Tree} : ∀ (ts : List Tree) (above : List Tree),
    (path, n) ∈ lineageAll above ts → (path = above ∧ n ∈ ts) ∨
      ∃ p ps, path = p :: ps ∧ (ps, p) ∈ lineageAll above ts ∧ n ∈ p.children
  | t :: ts, above, h => by
    rw [lineageAll, List.mem_append] at h
    rcases h with h | h
    · rcases mem_lineage_cases t above h with ⟨rfl, rfl⟩ | ⟨p, ps, rfl, hp, hn⟩
      · exact .inl ⟨rfl, List.mem_cons_self⟩
      · exact .inr ⟨p, ps, rfl, List.mem_append_left _ hp, hn⟩
    · rcases mem_lineageAll_cases ts above h with ⟨rfl, hn⟩ | ⟨p, ps, rfl, hp, hn⟩
      · exact .inl ⟨rfl, List.mem_cons_of_mem t hn⟩
      · exact .inr ⟨p, ps, rfl, List.mem_append_right _ hp, hn⟩

end

/-! ### The links of a tree -/

mutual

/-- The links of a tree in pre-order: the number of each node and that of the node above it. -/
def pedigree (parent : Option Nat) : Tree → List (Nat × Option Nat)
  | .node i _ _ ts => (i, parent) :: pedigreeAll i ts

/-- The links of the trees below a node. -/
def pedigreeAll (parent : Nat) : List Tree → List (Nat × Option Nat)
  | [] => []
  | t :: ts => t.pedigree (some parent) ++ pedigreeAll parent ts

end

mutual

theorem id_pedigree : ∀ (t : Tree) (parent : Option Nat),
    (t.pedigree parent).map Prod.fst = t.preorder.map Tree.id
  | .node i k s ts, parent => by
    rw [pedigree, preorder, List.map_cons, List.map_cons, id_pedigreeAll ts]
    rfl

theorem id_pedigreeAll : ∀ (ts : List Tree) (parent : Nat),
    (pedigreeAll parent ts).map Prod.fst = (preorderAll ts).map Tree.id
  | [], _ => rfl
  | t :: ts, parent => by
    rw [pedigreeAll, preorderAll, List.map_append, List.map_append, id_pedigree t,
      id_pedigreeAll ts]

end

theorem exists_node_of_mem_pedigree {t : Tree} {parent : Option Nat} {x : Nat × Option Nat}
    (h : x ∈ t.pedigree parent) : ∃ n ∈ t.preorder, n.id = x.1 := by
  have hmem : x.1 ∈ t.preorder.map Tree.id := by
    rw [← id_pedigree t parent]
    exact List.mem_map.2 ⟨x, h, rfl⟩
  exact List.mem_map.1 hmem

theorem exists_node_of_mem_pedigreeAll {ts : List Tree} {parent : Nat} {x : Nat × Option Nat}
    (h : x ∈ pedigreeAll parent ts) : ∃ n ∈ preorderAll ts, n.id = x.1 := by
  have hmem : x.1 ∈ (preorderAll ts).map Tree.id := by
    rw [← id_pedigreeAll ts parent]
    exact List.mem_map.2 ⟨x, h, rfl⟩
  exact List.mem_map.1 hmem

mutual

/-- The link of a node goes to the first of the nodes above it. -/
theorem mem_pedigree {path : List Tree} {n : Tree} : ∀ (t : Tree) (above : List Tree),
    (path, n) ∈ t.lineage above →
      (n.id, path.head?.map Tree.id) ∈ t.pedigree (above.head?.map Tree.id)
  | .node i k s ts, above, h => by
    rw [lineage, List.mem_append, List.mem_singleton] at h
    rcases h with h | h
    · exact List.mem_cons_of_mem _ (mem_pedigreeAll ts (.node i k s ts) above h)
    · cases h
      exact List.mem_cons_self

theorem mem_pedigreeAll {path : List Tree} {n : Tree} :
    ∀ (ts : List Tree) (parent : Tree) (above : List Tree),
      (path, n) ∈ lineageAll (parent :: above) ts →
        (n.id, path.head?.map Tree.id) ∈ pedigreeAll parent.id ts
  | t :: ts, parent, above, h => by
    rw [lineageAll, List.mem_append] at h
    rw [pedigreeAll, List.mem_append]
    rcases h with h | h
    · exact .inl (mem_pedigree t (parent :: above) h)
    · exact .inr (mem_pedigreeAll ts parent above h)

end

end Tree

/-- Write links, one after another. -/
def linkAll (links : Links) (xs : List (Nat × Option Nat)) : Links :=
  xs.foldl (fun links x => links.setIfInBounds x.1 x.2) links

theorem linkAll_append (links : Links) (xs ys : List (Nat × Option Nat)) :
    linkAll links (xs ++ ys) = linkAll (linkAll links xs) ys := List.foldl_append

theorem getElem?_linkAll_of_not_mem {xs : List (Nat × Option Nat)} {i : Nat}
    (h : i ∉ xs.map Prod.fst) (links : Links) : (linkAll links xs)[i]? = links[i]? := by
  induction xs generalizing links with
  | nil => rfl
  | cons x xs ih =>
    rw [List.map_cons, List.mem_cons, not_or] at h
    show (linkAll (links.setIfInBounds x.1 x.2) xs)[i]? = _
    rw [ih h.2, Array.getElem?_setIfInBounds_ne (Ne.symm h.1)]

theorem getElem?_linkAll_of_mem {xs : List (Nat × Option Nat)} (hnodup : (xs.map Prod.fst).Nodup)
    {x : Nat × Option Nat} (h : x ∈ xs) {links : Links} (hroom : x.1 < links.size) :
    (linkAll links xs)[x.1]? = some x.2 := by
  induction xs generalizing links with
  | nil => cases h
  | cons y xs ih =>
    rw [List.map_cons, List.nodup_cons] at hnodup
    show (linkAll (links.setIfInBounds y.1 y.2) xs)[x.1]? = _
    rcases List.mem_cons.1 h with rfl | h
    · rw [getElem?_linkAll_of_not_mem hnodup.1, Array.getElem?_setIfInBounds_self_of_lt hroom]
    · exact ih hnodup.2 h (by rw [Array.size_setIfInBounds]; exact hroom)

/-! ### The links at a visit -/

namespace Walk

variable {σ ε : Type}

mutual

/-- A walk of a tree writes its links. -/
theorem linked_eq_linkAll : ∀ (t : Tree) (parent : Option Nat) (links : Links),
    linked parent t links = linkAll links (t.pedigree parent)
  | .node i k s ts, parent, links => by
    rw [linked, linkedAll_eq_linkAll ts, Tree.pedigree]
    rfl

theorem linkedAll_eq_linkAll : ∀ (ts : List Tree) (parent : Nat) (links : Links),
    linkedAll parent ts links = linkAll links (Tree.pedigreeAll parent ts)
  | [], _, _ => rfl
  | t :: ts, parent, links => by
    rw [linkedAll, linkedAll_eq_linkAll ts, linked_eq_linkAll t, Tree.pedigreeAll, linkAll_append]

end

theorem node_mem_preorder {w : Walk σ ε} {t : Tree} {parent : Option Nat} {links : Links}
    {c : Cursor σ} (h : c ∈ w.cursors parent t links) : c.node ∈ t.preorder := by
  rw [← Tree.mem_postorder, ← w.node_cursors t parent links]
  exact List.mem_map.2 ⟨c, h, rfl⟩

theorem node_mem_preorderAll {w : Walk σ ε} {ts : List Tree} {parent : Nat} {links : Links}
    {c : Cursor σ} (h : c ∈ w.cursorsAll parent ts links) : c.node ∈ Tree.preorderAll ts := by
  rw [← Tree.mem_postorderAll, ← w.node_cursorsAll ts parent links]
  exact List.mem_map.2 ⟨c, h, rfl⟩

mutual

/-- **The links at a visit** are those that were there before, with the links of all nodes up to the
last one below the node being visited. -/
theorem links_of_mem_cursors (w : Walk σ ε) : ∀ (t : Tree) (parent : Option Nat) (links : Links),
    Tree.Ascending t.preorder → ∀ c ∈ w.cursors parent t links,
      c.links = linkAll links ((t.pedigree parent).filter fun x => x.1 ≤ c.node.lastId)
  | .node i k s ts, parent, links, hasc, c, hc => by
    have hbelow := List.pairwise_cons.1 hasc
    rw [cursors, List.mem_append, List.mem_singleton] at hc
    rcases hc with hc | rfl
    · have hnode := node_mem_preorderAll hc
      have hi : i ≤ c.node.lastId :=
        Nat.le_trans (Nat.le_of_lt (hbelow.1 c.node hnode))
          (Tree.id_le_lastId c.node.mem_preorder_self)
      rw [links_of_mem_cursorsAll w ts i _ hbelow.2 c hc, Tree.pedigree, List.filter_cons,
        if_pos (decide_eq_true hi)]
      rfl
    · have hall : ((Tree.node i k s ts).pedigree parent).filter
          (fun x => x.1 ≤ (Tree.node i k s ts).lastId) = (Tree.node i k s ts).pedigree parent := by
        refine List.filter_eq_self.2 fun x hx => decide_eq_true ?_
        obtain ⟨n, hn, hid⟩ := Tree.exists_node_of_mem_pedigree hx
        rw [← hid]
        exact Tree.id_le_lastId hn
      show linkedAll i ts (links.setIfInBounds i parent) = _
      rw [linkedAll_eq_linkAll]
      exact (congrArg (linkAll links) hall).symm

theorem links_of_mem_cursorsAll (w : Walk σ ε) : ∀ (ts : List Tree) (parent : Nat) (links : Links),
    Tree.Ascending (Tree.preorderAll ts) → ∀ c ∈ w.cursorsAll parent ts links,
      c.links = linkAll links ((Tree.pedigreeAll parent ts).filter fun x => x.1 ≤ c.node.lastId)
  | t :: ts, parent, links, hasc, c, hc => by
    rw [Tree.preorderAll] at hasc
    obtain ⟨hfirst, hrest, hcross⟩ := List.pairwise_append.1 hasc
    rw [cursorsAll, List.mem_append] at hc
    rw [Tree.pedigreeAll, List.filter_append]
    rcases hc with hc | hc
    · -- the walk has not reached the trees behind this one
      have hnone : (Tree.pedigreeAll parent ts).filter (fun x => x.1 ≤ c.node.lastId) = [] := by
        refine List.filter_eq_nil_iff.2 fun x hx => ?_
        obtain ⟨n, hn, hid⟩ := Tree.exists_node_of_mem_pedigreeAll hx
        obtain ⟨m, hm, hlast⟩ := c.node.exists_id_eq_lastId
        have hmt : m ∈ t.preorder := (Tree.preorder_sublist (node_mem_preorder hc)).subset hm
        have hlt := hcross m hmt n hn
        rw [decide_eq_true_eq, ← hid, ← hlast]
        omega
      rw [hnone, List.append_nil]
      exact links_of_mem_cursors w t (some parent) links hfirst c hc
    · -- the walk has reached all of the trees before this one
      have hall : (t.pedigree (some parent)).filter (fun x => x.1 ≤ c.node.lastId)
          = t.pedigree (some parent) := by
        refine List.filter_eq_self.2 fun x hx => decide_eq_true ?_
        obtain ⟨n, hn, hid⟩ := Tree.exists_node_of_mem_pedigree hx
        rw [← hid]
        exact Nat.le_trans (Nat.le_of_lt (hcross n hn c.node (node_mem_preorderAll hc)))
          (Tree.id_le_lastId c.node.mem_preorder_self)
      rw [hall, linkAll_append, ← linked_eq_linkAll]
      exact links_of_mem_cursorsAll w ts parent _ hrest c hc

end

/-! ### Whole trees -/

variable {w : Walk σ ε} {links : Links}

theorem id_lt_size {t n : Tree} (h : t.Numbered) (hn : n ∈ t.preorder) : n.id < t.size := by
  have hmem : n.id ∈ t.preorder.map Tree.id := List.mem_map.2 ⟨n, hn, rfl⟩
  rw [Tree.Numbered] at h
  rwa [h, List.mem_range] at hmem

/-- Some links of a tree, one for each node: each node among them is linked to the node above it. -/
theorem getElem?_linkAll_pedigree {t : Tree} (h : t.Numbered) (hlinks : links.size = t.size)
    (keep : Nat → Bool) {x : List Tree × Tree} (hx : x ∈ t.lineage []) :
    (linkAll links ((t.pedigree none).filter fun y => keep y.1))[x.2.id]?
      = if keep x.2.id then some (x.1.head?.map Tree.id) else links[x.2.id]? := by
  have hnode := Tree.mem_preorder_of_mem_lineage hx
  have hfst : ((t.pedigree none).filter fun y => keep y.1).map Prod.fst
      = (t.preorder.map Tree.id).filter keep := by
    rw [← Tree.id_pedigree t none, List.filter_map]
    rfl
  by_cases hkeep : keep x.2.id
  · have hmem : (x.2.id, x.1.head?.map Tree.id) ∈ (t.pedigree none).filter fun y => keep y.1 :=
      List.mem_filter.2 ⟨Tree.mem_pedigree t [] hx, hkeep⟩
    have hnodup : (((t.pedigree none).filter fun y => keep y.1).map Prod.fst).Nodup := by
      rw [hfst]
      exact h.ascending.nodup.filter _
    rw [if_pos hkeep]
    exact getElem?_linkAll_of_mem hnodup hmem (by rw [hlinks]; exact id_lt_size h hnode)
  · have hnot : x.2.id ∉ ((t.pedigree none).filter fun y => keep y.1).map Prod.fst := by
      rw [hfst]
      exact fun hmem => hkeep (List.mem_filter.1 hmem).2
    rw [if_neg hkeep, getElem?_linkAll_of_not_mem hnot]

/-- Behind a walk each node is linked to the node above it. -/
theorem getElem?_linked_none {t : Tree} (h : t.Numbered) (hlinks : links.size = t.size)
    {x : List Tree × Tree} (hx : x ∈ t.lineage []) :
    (linked none t links)[x.2.id]? = some (x.1.head?.map Tree.id) := by
  have hall : (t.pedigree none).filter (fun _ => true) = t.pedigree none :=
    List.filter_eq_self.2 fun _ _ => rfl
  have := getElem?_linkAll_pedigree h hlinks (fun _ => true) hx
  rwa [hall, if_pos rfl, ← linked_eq_linkAll] at this

/-- The link of each node at a visit. -/
theorem getElem?_links_of_mem_cursors (h : w.tree.Numbered) (hlinks : links.size = w.tree.size)
    {c : Cursor σ} (hc : c ∈ w.cursors none w.tree links) {x : List Tree × Tree}
    (hx : x ∈ w.tree.lineage []) :
    c.links[x.2.id]?
      = if x.2.id ≤ c.node.lastId then some (x.1.head?.map Tree.id) else links[x.2.id]? := by
  rw [links_of_mem_cursors w w.tree none links h.ascending c hc,
    getElem?_linkAll_pedigree h hlinks (fun i => i ≤ c.node.lastId) hx]
  simp only [decide_eq_true_eq]

mutual

theorem tree_of_mem_cursors (w : Walk σ ε) : ∀ (t : Tree) (parent : Option Nat) (links : Links),
    ∀ c ∈ w.cursors parent t links, c.tree = w.tree
  | .node i k s ts, parent, links, c, hc => by
    rw [cursors, List.mem_append, List.mem_singleton] at hc
    rcases hc with hc | rfl
    · exact tree_of_mem_cursorsAll w ts i _ c hc
    · rfl

theorem tree_of_mem_cursorsAll (w : Walk σ ε) : ∀ (ts : List Tree) (parent : Nat) (links : Links),
    ∀ c ∈ w.cursorsAll parent ts links, c.tree = w.tree
  | t :: ts, parent, links, c, hc => by
    rw [cursorsAll, List.mem_append] at hc
    rcases hc with hc | hc
    · exact tree_of_mem_cursors w t (some parent) links c hc
    · exact tree_of_mem_cursorsAll w ts parent _ c hc

end

/-- In a tree whose numbers grow in pre-order, a node has a smaller number than those below it. -/
theorem id_lt_of_mem_children {t p n : Tree} (h : Tree.Ascending t.preorder) (hp : p ∈ t.preorder)
    (hn : n ∈ p.children) : p.id < n.id := by
  have hasc : Tree.Ascending p.preorder := h.sublist (Tree.preorder_sublist hp)
  obtain ⟨i, k, s, ts⟩ := p
  exact (List.pairwise_cons.1 hasc).1 n (Tree.mem_preorderAll_of_mem hn)

/-- **The links lead to the root**: followed from a node that the walk has reached, they meet the
nodes above it and no others. -/
theorem ancestorsOf_of_mem_cursors (h : w.tree.Numbered) (hlinks : links.size = w.tree.size)
    {c : Cursor σ} (hc : c ∈ w.cursors none w.tree links) (k : Nat) {path : List Tree} {n : Tree}
    (hn : (path, n) ∈ w.tree.lineage []) (hle : n.id ≤ c.node.lastId) :
    c.ancestorsOf k n.id = path.take k := by
  induction k generalizing path n with
  | zero => rfl
  | succ k ih =>
    have hlink := getElem?_links_of_mem_cursors h hlinks hc hn
    rw [if_pos hle] at hlink
    have htree := tree_of_mem_cursors w w.tree none links c hc
    rcases Tree.mem_lineage_cases w.tree [] hn with ⟨rfl, -⟩ | ⟨p, ps, rfl, hp, hchild⟩
    · have hparent : c.parentOf n.id = none := by
        rw [Cursor.parentOf, hlink]
        rfl
      rw [Cursor.ancestorsOf, hparent, List.take_nil]
    · have hpmem : p ∈ w.tree.preorder := Tree.mem_preorder_of_mem_lineage hp
      have hparent : c.parentOf n.id = some p := by
        rw [Cursor.parentOf, hlink, htree]
        exact Tree.find?_of_mem h.ascending.nodup hpmem
      have hlt := id_lt_of_mem_children h.ascending hpmem hchild
      rw [Cursor.ancestorsOf, hparent, List.take_succ_cons]
      exact congrArg (p :: ·) (ih hp (by omega))

end Walk

end ComponentCompiler
