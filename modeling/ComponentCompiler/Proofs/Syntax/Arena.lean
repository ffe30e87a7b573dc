import ComponentCompiler.Proofs.Syntax.Lineage
import Mathlib.Data.List.Basic
import Mathlib.Logic.Relation

/-!
# What a builder makes of its calls

A builder is driven by calls that open and close nodes.  What these calls mean can be said without
trees: a *ledger* notes every node that is opened, under the number of nodes opened before it and
with the innermost node that is open then, and it keeps the numbers of the nodes that are open.  A
builder tells the same: its complete trees and its open nodes, read in pre-order, are the entries of
the ledger.

So the ledger decides how a build ends.  If it ends with a tree, that tree is an *arena*: its child
lists, as lists of numbers, hold every number but that of the root once, each behind the number of
its parent, and walking them from the root gives the numbers in order.

## Main definitions

* `BuildCall`, `TreeBuilder.run` — calls of a builder.
* `Ledger`, `Ledger.run` — what calls mean.
* `Tree.entries` — the entries of a tree.
* `Tree.childIds`, `IsArena` — child lists, and when they make a tree.

## Main results

* `Accounts.call`, `accounts_run` — a builder and a ledger that take the same calls agree.
* `TreeBuilder.finish_cases` — how a build ends.
* `Tree.Numbered.isArena` — a numbered tree is an arena.
* `calls_decide_build` — **the calls decide how a build ends, and a tree that is built is an
  arena**.
-/

namespace ComponentCompiler

/-! ### Calls -/

/-- A call of a builder. -/
inductive BuildCall where
  /-- Open a node. -/
  | openNode (kind : NodeKind) (span : Span)
  /-- Open a node and close it at once. -/
  | leaf (kind : NodeKind) (span : Span)
  /-- Close the innermost open node. -/
  | close
  deriving DecidableEq, Repr

namespace TreeBuilder

/-- Take a call. -/
def call (b : TreeBuilder) : BuildCall → TreeBuilder
  | .openNode kind span => b.openNode kind span
  | .leaf kind span => b.leaf kind span
  | .close => b.closeNode

/-- Take calls one after another, from the beginning. -/
def run (calls : List BuildCall) : TreeBuilder := calls.foldl call {}

end TreeBuilder

/-- What is noted of a node. -/
structure Entry where
  /-- The number of the node. -/
  id : Nat
  /-- The kind of the node. -/
  kind : NodeKind
  /-- The range of the node. -/
  span : Span
  /-- The number of the node above it. -/
  parent : Option Nat
  deriving DecidableEq, Repr

/-- Whether nothing was open when the node was opened. -/
def Entry.isRoot (e : Entry) : Bool := e.parent.isNone

/-- What calls mean: the nodes that were opened, and those that are still open. -/
structure Ledger where
  /-- The nodes in the order in which they were opened. -/
  opened : List Entry := []
  /-- The numbers of the nodes that are open, innermost first. -/
  pending : List Nat := []
  deriving DecidableEq, Repr

namespace Ledger

/-- A node is opened below the innermost open one, if there is one. -/
def openNode (l : Ledger) (kind : NodeKind) (span : Span) : Ledger where
  opened := l.opened ++ [⟨l.opened.length, kind, span, l.pending.head?⟩]
  pending := l.opened.length :: l.pending

/-- The innermost open node is closed, if there is one. -/
def close (l : Ledger) : Ledger := { l with pending := l.pending.tail }

/-- Note a call. -/
def call (l : Ledger) : BuildCall → Ledger
  | .openNode kind span => l.openNode kind span
  | .leaf kind span => (l.openNode kind span).close
  | .close => l.close

/-- Note calls one after another, from the beginning. -/
def run (calls : List BuildCall) : Ledger := calls.foldl call {}

/-- Some node behind the first was opened while none was open. -/
def ManyRoots (l : Ledger) : Prop := ∃ e ∈ l.opened.tail, e.parent = none

end Ledger

/-! ### The entries of a tree -/

namespace Tree

mutual

/-- The nodes of a tree in pre-order, each with the number of the node above it; `parent` is above
the tree. -/
def entries (parent : Option Nat) : Tree → List Entry
  | .node i k s ts => ⟨i, k, s, parent⟩ :: entriesAll i ts

/-- The nodes of the trees below a node, tree by tree. -/
def entriesAll (parent : Nat) : List Tree → List Entry
  | [] => []
  | t :: ts => t.entries (some parent) ++ entriesAll parent ts

end

theorem entriesAll_append (parent : Nat) (ts us : List Tree) :
    entriesAll parent (ts ++ us) = entriesAll parent ts ++ entriesAll parent us := by
  induction ts with
  | nil => rfl
  | cons t ts ih => rw [List.cons_append, entriesAll, entriesAll, ih, List.append_assoc]

mutual

theorem id_entries : ∀ (t : Tree) (parent : Option Nat),
    (t.entries parent).map Entry.id = t.preorder.map Tree.id
  | .node i k s ts, parent => by
    rw [entries, preorder, List.map_cons, List.map_cons, id_entriesAll ts]
    rfl

theorem id_entriesAll : ∀ (ts : List Tree) (parent : Nat),
    (entriesAll parent ts).map Entry.id = (preorderAll ts).map Tree.id
  | [], _ => rfl
  | t :: ts, parent => by
    rw [entriesAll, preorderAll, List.map_append, List.map_append, id_entries t,
      id_entriesAll ts]

end

theorem length_entries (t : Tree) (parent : Option Nat) : (t.entries parent).length = t.size := by
  have h := congrArg List.length (t.id_entries parent)
  rwa [List.length_map, List.length_map] at h

mutual

/-- Below a node, every node has a parent. -/
theorem roots_entries_some (parent : Nat) : ∀ t : Tree,
    (t.entries (some parent)).countP Entry.isRoot = 0
  | .node i k s ts => by
    rw [entries, List.countP_cons_of_neg Bool.false_ne_true]
    exact roots_entriesAll i ts

theorem roots_entriesAll (parent : Nat) : ∀ ts : List Tree,
    (entriesAll parent ts).countP Entry.isRoot = 0
  | [] => rfl
  | t :: ts => by
    rw [entriesAll, List.countP_append, roots_entries_some parent t, roots_entriesAll parent ts]

end

theorem roots_entries_none (t : Tree) : (t.entries none).countP Entry.isRoot = 1 := by
  obtain ⟨i, k, s, ts⟩ := t
  rw [entries, List.countP_cons_of_pos rfl, roots_entriesAll]

end Tree

/-! ### The entries of a builder -/

/-- A tree that goes below an open node is the last below it. -/
theorem OpenNode.entries_addTree (n : OpenNode) (t : Tree)
    (parent : Option Nat) :
    ({ n with done := t :: n.done } : OpenNode).toTree.entries parent
      = n.toTree.entries parent ++ t.entries (some n.id) := by
  simp only [OpenNode.toTree, Tree.entries, List.reverse_cons, Tree.entriesAll_append,
    Tree.entriesAll, List.append_nil, List.cons_append]

namespace TreeBuilder

/-- The entries of open nodes and of the trees below them, outermost first. -/
def openEntries : List OpenNode → List Entry
  | [] => []
  | n :: rest => openEntries rest ++ n.toTree.entries (rest.head?.map OpenNode.id)

/-- The entries of a builder: complete trees, and then the open nodes. -/
def entries (b : TreeBuilder) : List Entry :=
  b.roots.reverse.flatMap (Tree.entries none) ++ openEntries b.stack

theorem entries_openNode (b : TreeBuilder) (kind : NodeKind) (span : Span) :
    (b.openNode kind span).entries
      = b.entries ++ [⟨b.count, kind, span, b.stack.head?.map OpenNode.id⟩] := by
  rw [entries, entries, List.append_assoc]
  rfl

theorem entries_closeNode (b : TreeBuilder) : b.closeNode.entries = b.entries := by
  obtain ⟨count, stack, roots⟩ := b
  match stack with
  | [] => rfl
  | [n] => simp [closeNode, entries, openEntries]
  | n :: parent :: rest =>
    have hparent := parent.entries_addTree n.toTree (rest.head?.map OpenNode.id)
    simp only [closeNode, entries, openEntries, hparent, List.append_assoc, List.head?_cons,
      Option.map_some]

theorem roots_openEntries (stack : List OpenNode) :
    (openEntries stack).countP Entry.isRoot = min 1 stack.length := by
  induction stack with
  | nil => rfl
  | cons n rest ih =>
    rw [openEntries, List.countP_append, ih]
    cases rest with
    | nil => exact (congrArg _ n.toTree.roots_entries_none)
    | cons m rest =>
      rw [List.head?_cons, Option.map_some, Tree.roots_entries_some]
      simp

/-- There is a root for every complete tree, and one more if a node is open. -/
theorem roots_entries (b : TreeBuilder) :
    b.entries.countP Entry.isRoot = b.roots.length + min 1 b.stack.length := by
  have hroots : ∀ ts : List Tree,
      (ts.flatMap (Tree.entries none)).countP Entry.isRoot = ts.length := by
    intro ts
    induction ts with
    | nil => rfl
    | cons t ts ih =>
      rw [List.flatMap_cons, List.countP_append, Tree.roots_entries_none, ih, List.length_cons]
      omega
  rw [entries, List.countP_append, hroots, List.length_reverse, roots_openEntries]

theorem entries_eq_nil {b : TreeBuilder} : b.entries = [] ↔ b.roots = [] ∧ b.stack = [] := by
  constructor
  · intro h
    have hroots := b.roots_entries
    rw [h, List.countP_nil] at hroots
    constructor
    · exact List.eq_nil_of_length_eq_zero (by omega)
    · exact List.eq_nil_of_length_eq_zero (by omega)
  · rintro ⟨hroots, hstack⟩
    rw [entries, hroots, hstack]
    rfl

/-- How a build ends. -/
theorem finish_cases (b : TreeBuilder) :
    (b.roots = [] ∧ b.stack = [] ∧ b.finish = .error .empty) ∨
    (1 < b.roots.length + min 1 b.stack.length ∧ b.finish = .error .multipleRoots) ∨
    (b.roots = [] ∧ 0 < b.stack.length ∧ b.finish = .error (.unclosed b.stack.length)) ∨
    ∃ t, b.roots = [t] ∧ b.stack = [] ∧ b.finish = .ok t := by
  obtain ⟨count, stack, roots⟩ := b
  match roots, stack with
  | [], [] => exact .inl ⟨rfl, rfl, rfl⟩
  | [], n :: rest => exact .inr (.inr (.inl ⟨rfl, Nat.succ_pos _, rfl⟩))
  | [t], [] => exact .inr (.inr (.inr ⟨t, rfl, rfl, rfl⟩))
  | [t], n :: rest => exact .inr (.inl ⟨by simp, rfl⟩)
  | t :: u :: ts, stack =>
    have hroots : 1 < (t :: u :: ts).length + min 1 stack.length := by
      rw [List.length_cons, List.length_cons]
      omega
    exact .inr (.inl ⟨hroots, rfl⟩)

end TreeBuilder

/-! ### Builder and ledger -/

/-- A ledger accounts for a builder. -/
structure Accounts (l : Ledger) (b : TreeBuilder) : Prop where
  /-- The builder has come from its calls. -/
  reachable : b.Reachable
  /-- The same nodes were opened, below the same nodes. -/
  opened : b.entries = l.opened
  /-- The same nodes are open. -/
  pending : b.stack.map OpenNode.id = l.pending
  /-- The next number is the same. -/
  count : b.count = l.opened.length
  /-- The first node was opened when none was open. -/
  first : ∀ e ∈ l.opened.head?, e.parent = none

namespace Accounts

variable {l : Ledger} {b : TreeBuilder}

theorem opened_eq_nil (h : Accounts l b) : l.opened = [] ↔ b.roots = [] ∧ b.stack = [] := by
  rw [← h.opened, TreeBuilder.entries_eq_nil]

/-- No node is open before the first one. -/
theorem pending_eq_nil (h : Accounts l b) (hnone : l.opened = []) : l.pending = [] := by
  rw [← h.pending, (h.opened_eq_nil.1 hnone).2, List.map_nil]

theorem openNode (h : Accounts l b) (kind : NodeKind) (span : Span) :
    Accounts (l.openNode kind span) (b.openNode kind span) where
  reachable := h.reachable.openNode kind span
  opened := by
    rw [TreeBuilder.entries_openNode, Ledger.openNode, h.opened, h.count, ← List.head?_map,
      h.pending]
  pending := by
    rw [Ledger.openNode, TreeBuilder.openNode, List.map_cons, h.pending, h.count]
  count := by
    rw [Ledger.openNode, TreeBuilder.openNode, List.length_append, h.count]
    rfl
  first := by
    intro e he
    rw [Ledger.openNode, List.head?_append] at he
    cases hopened : l.opened with
    | nil =>
      rw [h.pending_eq_nil hopened, hopened] at he
      cases he
      rfl
    | cons e' es =>
      rw [hopened] at he
      exact h.first e (by rwa [hopened])

theorem closeNode (h : Accounts l b) : Accounts l.close b.closeNode where
  reachable := h.reachable.closeNode
  opened := b.entries_closeNode.trans h.opened
  pending := by
    rw [Ledger.close, ← h.pending, TreeBuilder.closeNode]
    split <;> simp_all
  count := b.count_closeNode.trans h.count
  first := h.first

/-- A builder and a ledger that take the same call still agree. -/
theorem call (h : Accounts l b) (c : BuildCall) : Accounts (l.call c) (b.call c) := by
  cases c with
  | openNode kind span => exact h.openNode kind span
  | leaf kind span => exact (h.openNode kind span).closeNode
  | close => exact h.closeNode

theorem foldl (h : Accounts l b) (calls : List BuildCall) :
    Accounts (calls.foldl Ledger.call l) (calls.foldl TreeBuilder.call b) := by
  induction calls generalizing l b with
  | nil => exact h
  | cons c calls ih => exact ih (h.call c)

theorem length_pending (h : Accounts l b) : l.pending.length = b.stack.length := by
  rw [← h.pending, List.length_map]

/-- The ledger has many roots if the builder has: the first node is a root, so that there is one
more behind it. -/
theorem manyRoots_iff (h : Accounts l b) :
    l.ManyRoots ↔ 1 < b.roots.length + min 1 b.stack.length := by
  rw [← b.roots_entries, h.opened]
  cases hopened : l.opened with
  | nil => simp [Ledger.ManyRoots, hopened]
  | cons e es =>
    have hroot : e.isRoot := by
      rw [Entry.isRoot, h.first e (by rw [hopened]; rfl)]
      rfl
    rw [List.countP_cons_of_pos hroot, Nat.lt_add_left_iff_pos, List.countP_pos_iff]
    simp [Ledger.ManyRoots, hopened, Entry.isRoot]

end Accounts

theorem accounts_run (calls : List BuildCall) :
    Accounts (Ledger.run calls) (TreeBuilder.run calls) :=
  Accounts.foldl ⟨.start, rfl, rfl, rfl, by simp⟩ calls

/-! ### Arenas -/

/-- The numbers met on a walk of some nodes in pre-order, when the children of each node are
given. -/
inductive Visits (children : Nat → List Nat) : List Nat → List Nat → Prop where
  /-- There is no node to walk. -/
  | nil : Visits children [] []
  /-- A node, the nodes below it, and then the other nodes. -/
  | cons {i : Nat} {is below behind : List Nat} :
      Visits children (children i) below → Visits children is behind →
        Visits children (i :: is) (i :: below ++ behind)

/-- The child lists of the numbers below `n` make a tree with the root 0, numbered in pre-order. -/
structure IsArena (n : Nat) (children : Nat → List Nat) : Prop where
  /-- Each number but that of the root occurs in one child list, and once in it. -/
  once : ∀ j, ((List.range n).flatMap children).count j = if 0 < j ∧ j < n then 1 else 0
  /-- A child has a larger number than its parent. -/
  later : ∀ i, ∀ j ∈ children i, i < j
  /-- Child lists grow. -/
  growing : ∀ i, (children i).Pairwise (· < ·)
  /-- Each node is below the root. -/
  reached : ∀ j < n, Relation.ReflTransGen (fun i j => j ∈ children i) 0 j
  /-- In pre-order the numbers come one after another. -/
  ordered : Visits children [0] (List.range n)

namespace Tree

/-- The numbers of the children of the node with a given number. -/
def childIds (t : Tree) (i : Nat) : List Nat := ((t.find? i).toList.flatMap children).map id

theorem childIds_of_mem {t n : Tree} (h : t.Numbered) (hn : n ∈ t.preorder) :
    t.childIds n.id = n.children.map id := by
  rw [childIds, find?_of_mem h.ascending.nodup hn]
  simp

theorem mem_childIds {t : Tree} {i j : Nat} (h : j ∈ t.childIds i) :
    ∃ n ∈ t.preorder, n.id = i ∧ ∃ m ∈ n.children, m.id = j := by
  obtain ⟨m, hm, rfl⟩ := List.mem_map.1 h
  obtain ⟨n, hn, hm⟩ := List.mem_flatMap.1 hm
  have hfound := Option.mem_toList.1 hn
  exact ⟨n, List.mem_of_find?_eq_some hfound, by simpa using List.find?_some hfound, m, hm, rfl⟩

theorem sublist_preorderAll (ts : List Tree) : ts.Sublist (preorderAll ts) := by
  induction ts with
  | nil => exact List.Sublist.refl _
  | cons t ts ih =>
    rw [preorderAll, ← List.singleton_append]
    exact (List.singleton_sublist.2 t.mem_preorder_self).append ih

mutual

/-- Every node is the root or a child. -/
theorem preorder_perm : ∀ t : Tree, t.preorder.Perm (t :: t.preorder.flatMap children)
  | .node i k s ts => by
    rw [preorder, List.flatMap_cons]
    exact (preorderAll_perm ts).cons _

theorem preorderAll_perm : ∀ ts : List Tree,
    (preorderAll ts).Perm (ts ++ (preorderAll ts).flatMap children)
  | [] => .nil
  | t :: ts => by
    rw [preorderAll, List.flatMap_append]
    refine ((preorder_perm t).append (preorderAll_perm ts)).trans ?_
    rw [List.cons_append, List.cons_append, List.perm_cons, ← List.append_assoc,
      ← List.append_assoc]
    exact List.perm_append_comm.append_right _

end

mutual

theorem visits_preorder {t : Tree} (h : t.Numbered) {is behind : List Nat}
    (hbehind : Visits t.childIds is behind) : ∀ u : Tree, (∀ n ∈ u.preorder, n ∈ t.preorder) →
    Visits t.childIds (u.id :: is) (u.preorder.map id ++ behind)
  | .node i k s ts, hu => by
    have hchildren : t.childIds i = ts.map id := childIds_of_mem h (hu _ (mem_preorder_self _))
    have hbelow := visits_preorderAll h ts fun n hn => hu n (List.mem_cons_of_mem _ hn)
    exact .cons (hchildren ▸ hbelow) hbehind

theorem visits_preorderAll {t : Tree} (h : t.Numbered) : ∀ ts : List Tree,
    (∀ n ∈ preorderAll ts, n ∈ t.preorder) → Visits t.childIds (ts.map id) ((preorderAll ts).map id)
  | [], _ => .nil
  | u :: ts, hts => by
    rw [preorderAll, List.map_append]
    refine visits_preorder h ?_ u fun n hn => hts n (List.mem_append_left _ hn)
    exact visits_preorderAll h ts fun n hn => hts n (List.mem_append_right _ hn)

end

namespace Numbered

variable {t : Tree}

theorem id_eq_zero (h : t.Numbered) : t.id = 0 := by
  obtain ⟨i, k, s, ts⟩ := t
  have hhead := congrArg List.head? h
  simpa [preorder, size, List.head?_range] using hhead

/-- The child lists hold the numbers of all nodes but the root. -/
theorem range_perm (h : t.Numbered) :
    (List.range t.size).Perm (0 :: (List.range t.size).flatMap t.childIds) := by
  have hlists : (List.range t.size).flatMap t.childIds = (t.preorder.flatMap children).map id := by
    rw [← h, List.flatMap_map, List.map_flatMap]
    exact List.flatMap_congr fun n hn => childIds_of_mem h hn
  have hnodes := (preorder_perm t).map id
  rwa [h, List.map_cons, h.id_eq_zero, ← hlists] at hnodes

theorem count_childIds (h : t.Numbered) (j : Nat) :
    ((List.range t.size).flatMap t.childIds).count j = if 0 < j ∧ j < t.size then 1 else 0 := by
  have hcount := h.range_perm.count_eq j
  rw [List.nodup_range.count, List.count_cons] at hcount
  have hsize : 0 < t.size := List.length_pos_of_mem t.mem_preorder_self
  simp only [List.mem_range, beq_iff_eq] at hcount
  split_ifs at hcount ⊢ <;> omega

theorem lt_of_mem_childIds (h : t.Numbered) {i j : Nat} (hj : j ∈ t.childIds i) : i < j := by
  obtain ⟨n, hn, rfl, m, hm, rfl⟩ := mem_childIds hj
  exact Walk.id_lt_of_mem_children h.ascending hn hm

theorem pairwise_childIds (h : t.Numbered) (i : Nat) : (t.childIds i).Pairwise (· < ·) := by
  cases hfound : t.find? i with
  | none => simp [childIds, hfound]
  | some n =>
    have hn : n ∈ t.preorder := List.mem_of_find?_eq_some hfound
    have hchildren : n.children.Sublist n.preorder := by
      obtain ⟨i, k, s, ts⟩ := n
      exact (sublist_preorderAll ts).cons _
    have hascending := h.ascending.sublist (hchildren.trans (preorder_sublist hn))
    simpa [childIds, hfound] using List.pairwise_map.2 hascending

/-- A node is reached by way of its parent, which has a smaller number. -/
theorem reached (h : t.Numbered) (j : Nat) (hj : j < t.size) :
    Relation.ReflTransGen (fun i j => j ∈ t.childIds i) 0 j := by
  induction j using Nat.strongRecOn with
  | ind j ih =>
    rcases Nat.eq_zero_or_pos j with rfl | hpos
    · exact .refl
    · have hmem : j ∈ (List.range t.size).flatMap t.childIds := by
        rw [← List.count_pos_iff, h.count_childIds, if_pos ⟨hpos, hj⟩]
        exact Nat.one_pos
      obtain ⟨i, hi, hij⟩ := List.mem_flatMap.1 hmem
      exact (ih i (h.lt_of_mem_childIds hij) (List.mem_range.1 hi)).tail hij

/-- **A numbered tree is an arena.** -/
theorem isArena (h : t.Numbered) : IsArena t.size t.childIds where
  once := h.count_childIds
  later _ _ hj := h.lt_of_mem_childIds hj
  growing := h.pairwise_childIds
  reached := h.reached
  ordered := by
    have hvisits := visits_preorder h .nil t fun _ hn => hn
    rwa [h, List.append_nil, h.id_eq_zero] at hvisits

end Numbered

end Tree

/-! ### How a build ends -/

/-- A tree with the entries of a ledger, whose child lists make an arena. -/
structure Tree.Renders (t : Tree) (l : Ledger) : Prop where
  /-- The nodes are those that were opened, each below the node that was innermost then. -/
  entries_eq : t.entries none = l.opened
  /-- There are as many as were opened. -/
  size_eq : t.size = l.opened.length
  /-- The child lists make an arena. -/
  arena : IsArena t.size t.childIds

namespace Accounts

variable {l : Ledger} {b : TreeBuilder}

theorem renders_of_finish (h : Accounts l b) {t : Tree} (hfinish : b.finish = .ok t)
    (hroots : b.roots = [t]) (hstack : b.stack = []) : t.Renders l := by
  have hbuilt : t.Built := ⟨b, h.reachable, hfinish⟩
  have hentries : t.entries none = l.opened := by
    rw [← h.opened, TreeBuilder.entries, hroots, hstack]
    simp [TreeBuilder.openEntries]
  refine ⟨hentries, ?_, hbuilt.numbered.isArena⟩
  rw [← hentries, t.length_entries]

/-- How a build ends, as its ledger tells. -/
theorem finish_cases (h : Accounts l b) :
    (l.opened = [] ∧ b.finish = .error .empty) ∨
    (l.ManyRoots ∧ b.finish = .error .multipleRoots) ∨
    (¬ l.ManyRoots ∧ 0 < l.pending.length ∧ b.finish = .error (.unclosed l.pending.length)) ∨
    (l.opened ≠ [] ∧ ¬ l.ManyRoots ∧ l.pending = [] ∧ ∃ t, b.finish = .ok t ∧ t.Renders l) := by
  rw [h.opened_eq_nil, h.manyRoots_iff, h.length_pending, ← h.pending, List.map_eq_nil_iff]
  rcases b.finish_cases with ⟨hroots, hstack, hfinish⟩ | hmany | ⟨hroots, hopen, hfinish⟩ |
    ⟨t, hroots, hstack, hfinish⟩
  · exact .inl ⟨⟨hroots, hstack⟩, hfinish⟩
  · exact .inr (.inl hmany)
  · refine .inr (.inr (.inl ⟨?_, hopen, hfinish⟩))
    rw [hroots, List.length_nil]
    omega
  · have hrenders := h.renders_of_finish hfinish hroots hstack
    refine .inr (.inr (.inr ⟨?_, ?_, hstack, t, hfinish, hrenders⟩))
    · intro hnil
      exact List.cons_ne_nil t [] (hroots.symm.trans (h.opened_eq_nil.1 hnil).1)
    · rw [hroots, hstack, List.length_singleton, List.length_nil]
      decide

end Accounts

theorem Ledger.ManyRoots.opened_ne_nil {l : Ledger} (h : l.ManyRoots) : l.opened ≠ [] := by
  intro hnil
  simp [Ledger.ManyRoots, hnil] at h

/-- **The calls decide how a build ends, and a tree that is built is an arena.**  There is no tree
if no node was opened, or else if some node behind the first was opened while none was open, or else
if nodes are still open, where calls that close nothing do not count.  Otherwise there is one: its
nodes are those that were opened, each below the node that was innermost then, and its child lists
make an arena. -/
theorem calls_decide_build (calls : List BuildCall) :
    let l := Ledger.run calls
    let made := (TreeBuilder.run calls).finish
    (made = .error .empty ↔ l.opened = []) ∧
    (made = .error .multipleRoots ↔ l.ManyRoots) ∧
    (∀ k, made = .error (.unclosed k) ↔ ¬ l.ManyRoots ∧ 0 < k ∧ l.pending.length = k) ∧
    ((∃ t, made = .ok t ∧ t.Renders l) ↔
      l.opened ≠ [] ∧ ¬ l.ManyRoots ∧ l.pending = []) := by
  intro l made
  have h : Accounts l (TreeBuilder.run calls) := accounts_run calls
  rcases h.finish_cases with ⟨hnone, hmade⟩ | ⟨hmany, hmade⟩ | ⟨hone, hopen, hmade⟩ |
    ⟨hsome, hone, hclosed, t, hmade, ht⟩
  · have hone : ¬ l.ManyRoots := fun hmany => hmany.opened_ne_nil hnone
    have hpending := h.pending_eq_nil hnone
    refine ⟨iff_of_true hmade hnone, ?_, fun k => iff_of_false ?_ ?_, ?_⟩
    · simp [made, hmade, hone]
    · simp [made, hmade]
    · rw [hpending, List.length_nil]
      omega
    · simp [made, hmade, hnone]
  · simp [made, hmade, hmany, hmany.opened_ne_nil]
  · have hpending : l.pending ≠ [] := List.length_pos_iff.1 hopen
    have hsome : l.opened ≠ [] := fun hnone => hpending (h.pending_eq_nil hnone)
    refine ⟨?_, ?_, fun k => ?_, ?_⟩
    · simp [made, hmade, hsome]
    · simp [made, hmade, hone]
    · have hcount : l.pending.length = k ↔ 0 < k ∧ l.pending.length = k := by omega
      simpa [made, hmade, hone] using hcount
    · simp [made, hmade, hpending]
  · refine ⟨?_, ?_, fun k => iff_of_false ?_ ?_, iff_of_true ⟨t, hmade, ht⟩ ⟨hsome, hone, hclosed⟩⟩
    · simp [made, hmade, hsome]
    · simp [made, hmade, hone]
    · simp [made, hmade]
    · rw [hclosed, List.length_nil]
      omega

/-- Calls with closes too many, and the child lists of the tree. -/
example :
    let calls := [.close, .openNode .program ⟨0, 9⟩, .openNode .expressionStatement ⟨0, 9⟩,
      .leaf .object ⟨0, 3⟩, .close, .leaf .other ⟨4, 9⟩, .close, .close]
    (TreeBuilder.run calls).finish.toOption.map (fun t => (List.range t.size).map t.childIds)
      = some [[1, 3], [2], [], []] := by
  decide

end ComponentCompiler
