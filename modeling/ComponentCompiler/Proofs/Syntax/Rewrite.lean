import ComponentCompiler.Proofs.Buffer
import ComponentCompiler.Syntax.Walk

/-!
# Nested rewrites compose

A visitor that replaces the text of a node by a function of the text it finds there need not care
what was done below: a walk with such a visitor gives what rewriting the tree from the leaves up
gives.  The rewritten text is said here without buffers, by recursion on the tree (`Tree.emit`): the
gaps between the nodes below a node are copied, those nodes are emitted in their places, and the
node's own function is applied to the result.

The invariant of the walk is that the cells of every subtree that was walked hold no insertion and
show the emitted text of the subtree, while all other cells are still untouched.

## Main definitions

* `Tree.LaidOut` — ranges are not empty, fit the text, nest, and stand in source order.
* `Tree.seen`, `Tree.emit` — the text of a node before and behind its own rewriting.
* `rewriter`, `recorded` — the visitor, and a visitor with a record of the texts it finds.

## Main results

* `below_rewrites` — the invariant, for the subtree of any node.
* `walk_rewriter_eq_emit` — a whole walk.
-/

namespace ComponentCompiler

/-- What is done with the text of each node; `none` leaves a node alone. -/
abbrev Rewriting := Tree → Option (List Char → List Char)

namespace Tree

/-- The range of a node holds characters of a text of the given size, and the ranges of the nodes
directly below it lie in it, disjoint and in source order. -/
structure Placed (size : Nat) (n : Tree) : Prop where
  /-- The range holds a character. -/
  nonempty : n.span.start < n.span.stop
  /-- The range ends in the text. -/
  inside : n.span.stop ≤ size
  /-- The range holds the ranges of the nodes directly below. -/
  contains : ∀ c ∈ n.children, n.span.start ≤ c.span.start ∧ c.span.stop ≤ n.span.stop
  /-- Each of them ends before the next one starts. -/
  ordered : n.children.Pairwise fun c d => c.span.stop ≤ d.span.start

/-- Every node of the tree is placed in a text of the given size. -/
def LaidOut (size : Nat) (t : Tree) : Prop := ∀ n ∈ t.preorder, n.Placed size

mutual

/-- The text that a tree becomes: its own rewriting, applied to the gaps between the trees below
and what these become. -/
def emit (f : Rewriting) (s : List Char) : Tree → List Char
  | .node i k span ts =>
      (f (.node i k span ts)).getD (fun cs => cs) (weave f s span.stop span.start ts)

/-- The text from a position up to `stop` with each of the trees there replaced by what it
becomes. -/
def weave (f : Rewriting) (s : List Char) (stop : Nat) : Nat → List Tree → List Char
  | start, [] => segment s start stop
  | start, t :: ts => segment s start t.span.start ++ t.emit f s ++ weave f s stop t.span.stop ts

end

/-- The text of a node when the nodes below it are rewritten and it is not. -/
def seen (f : Rewriting) (s : List Char) (n : Tree) : List Char :=
  weave f s n.span.stop n.span.start n.children

theorem emit_eq_seen (f : Rewriting) (s : List Char) (t : Tree) :
    t.emit f s = (f t).getD (fun cs => cs) (t.seen f s) := by
  cases t
  rfl

theorem mem_preorder_self (t : Tree) : t ∈ t.preorder := by
  cases t
  exact List.mem_cons_self

theorem LaidOut.placed {size : Nat} {t : Tree} (h : t.LaidOut size) : t.Placed size :=
  h t t.mem_preorder_self

end Tree

/-! ### The visitor -/

variable {σ : Type}

/-- The visitor that rewrites: it replaces the text of a node by a function of it, or does
nothing. -/
def rewriter (f : Rewriting) : Visitor σ RangeError := fun c =>
  match f c.node with
  | none => pure ()
  | some g => do c.patch (g (← c.text))

/-- A visitor that first records the node and the text it finds there. -/
def recorded (v : Visitor (List (Tree × List Char)) RangeError) :
    Visitor (List (Tree × List Char)) RangeError := fun c => do
  let cs ← c.text
  Edit.note (· ++ [(c.node, cs)])
  v c

/-- A visitor rewrites by `f` and notes by `watch` when, at a node whose text can be read and that
has no hooks, this is all it does. -/
def Rewrites (f : Rewriting) (watch : σ → Tree → List Char → σ) (v : Visitor σ RangeError) : Prop :=
  ∀ (c : Cursor σ) (b : Buffer) (notes : σ) (cs : List Char), c.hooks = [] →
    b.slice c.node.span.start c.node.span.stop = .ok cs →
      v c ⟨b, notes⟩ = match f c.node with
        | none => .ok () ⟨b, watch notes c.node cs⟩
        | some g =>
            Edit.replace c.node.span.start c.node.span.stop (g cs) ⟨b, watch notes c.node cs⟩

theorem bind_of_ok {ε τ α β : Type} {x : EStateM ε τ α} {f : α → EStateM ε τ β} {s s' : τ} {a : α}
    (h : x s = .ok a s') : (x >>= f) s = f a s' := by
  show EStateM.bind x f s = f a s'
  rw [EStateM.bind, h]

theorem bind_of_error {ε τ α β : Type} {x : EStateM ε τ α} {s s' : τ} {e : ε}
    (h : x s = .error e s') (f : α → EStateM ε τ β) : (x >>= f) s = .error e s' := by
  show EStateM.bind x f s = _
  rw [EStateM.bind, h]

theorem bind_eq_ok {ε τ α β : Type} {x : EStateM ε τ α} {f : α → EStateM ε τ β} {s s'' : τ}
    {b : β} :
    (x >>= f) s = .ok b s'' ↔ ∃ a s', x s = .ok a s' ∧ f a s' = .ok b s'' := by
  cases h : x s with
  | ok a s' =>
    rw [bind_of_ok h]
    constructor
    · exact fun h => ⟨a, s', rfl, h⟩
    · rintro ⟨_, _, ⟨⟩, h⟩
      exact h
  | error e s' =>
    rw [bind_of_error h]
    exact iff_of_false nofun nofun

theorem text_of_slice {c : Cursor σ} {b : Buffer} {cs : List Char}
    (h : b.slice c.node.span.start c.node.span.stop = .ok cs) (notes : σ) :
    c.text ⟨b, notes⟩ = .ok cs ⟨b, notes⟩ := by
  show Edit.slice _ _ _ = _
  rw [Edit.slice, h]

/-- Without hooks a patch is a replacement. -/
theorem patch_of_no_hooks {c : Cursor σ} (hc : c.hooks = []) (t : List Char) (d : Desk σ) :
    c.patch t d = Edit.replace c.node.span.start c.node.span.stop t d := by
  rw [Cursor.patch, Cursor.patchTree, hc]
  rfl

theorem rewrites_rewriter (f : Rewriting) :
    Rewrites f (fun notes _ _ => notes) (rewriter f : Visitor σ RangeError) := by
  intro c b notes cs hc hcs
  rw [rewriter]
  cases f c.node with
  | none => rfl
  | some g =>
    show (c.text >>= fun cs => c.patch (g cs)) ⟨b, notes⟩ = _
    rw [bind_of_ok (text_of_slice hcs notes), patch_of_no_hooks hc]

theorem rewrites_recorded (f : Rewriting) :
    Rewrites f (fun notes n cs => notes ++ [(n, cs)]) (recorded (rewriter f)) := by
  intro c b notes cs hc hcs
  have hnote : Edit.note (· ++ [(c.node, cs)]) ⟨b, notes⟩
      = (.ok () ⟨b, notes ++ [(c.node, cs)]⟩ : EStateM.Result RangeError _ _) := rfl
  rw [recorded, bind_of_ok (text_of_slice hcs notes), bind_of_ok hnote]
  exact rewrites_rewriter f c b _ cs hc hcs

/-! ### The walk -/

/-- The notes behind a list of visits. -/
def noteAll (f : Rewriting) (s : List Char) (watch : σ → Tree → List Char → σ) (notes : σ)
    (ns : List Tree) : σ :=
  ns.foldl (fun notes n => watch notes n (n.seen f s)) notes

theorem noteAll_cons (f : Rewriting) (s : List Char) (watch : σ → Tree → List Char → σ)
    (notes : σ) (n : Tree) (ns : List Tree) :
    noteAll f s watch notes (n :: ns)
      = noteAll f s watch (watch notes n (n.seen f s)) ns := rfl

theorem noteAll_append (f : Rewriting) (s : List Char) (watch : σ → Tree → List Char → σ)
    (notes : σ) (ns ms : List Tree) :
    noteAll f s watch notes (ns ++ ms) = noteAll f s watch (noteAll f s watch notes ns) ms :=
  List.foldl_append

theorem link_apply (i : Nat) (parent : Option Nat) (links : Links) (d : Desk σ) :
    Walk.link i parent ⟨links, d⟩
      = (.ok () ⟨links.setIfInBounds i parent, d⟩ : EStateM.Result RangeError _ _) := rfl

/-- A visit turns cells that show what a node is seen as into cells that show what it becomes. -/
theorem visitNode_rewrites {w : Walk σ RangeError} {f : Rewriting} {s : List Char}
    {watch : σ → Tree → List Char → σ} (hooks : w.hooks = []) (hv : Rewrites f watch w.visit)
    {n : Tree} (hn : n.span.start < n.span.stop) {A M : List Cell} (hA : A.length = n.span.start)
    (hM : M.length = n.span.stop - n.span.start) (hs : Buffer.Shows M (n.seen f s))
    (Z : List Cell) (tail : List Char) (links : Links) (notes : σ) :
    ∃ N : List Cell,
      w.visitNode n ⟨links, ⟨⟨A ++ M ++ Z, tail⟩, notes⟩⟩
        = .ok () ⟨links, ⟨⟨A ++ N ++ Z, tail⟩, watch notes n (n.seen f s)⟩⟩
      ∧ N.length = n.span.stop - n.span.start ∧ Buffer.Shows N (n.emit f s) := by
  have hM0 : M ≠ [] := List.length_pos_iff.1 (by omega)
  have hstop : A.length + M.length = n.span.stop := by omega
  have hslice := hs.slice A Z tail
  have hreplace := fun t => Buffer.replace_cells A hM0 Z tail t
  rw [hA] at hstop
  rw [hA, hstop] at hslice
  simp only [hA, hstop] at hreplace
  have hvisit := hv ⟨w.tree, links, w.hooks, n⟩ _ notes _ hooks hslice
  rw [Tree.emit_eq_seen]
  cases hf : f n with
  | none =>
    refine ⟨M, ?_, hM, hs⟩
    simp only [hf] at hvisit
    rw [Walk.visitNode, hvisit]
  | some g =>
    refine ⟨Buffer.overwrite (g (n.seen f s)) (M.length - 1) M, ?_, ?_, hs.overwrite hM0 _⟩
    · simp only [hf, Edit.replace, hreplace] at hvisit
      rw [Walk.visitNode, hvisit]
    · rw [Buffer.length_overwrite, hM]

mutual

/-- Walking a subtree whose cells are untouched leaves cells that show what it becomes, and leaves
all other cells alone. -/
theorem below_rewrites {w : Walk σ RangeError} {f : Rewriting} {s : List Char}
    {watch : σ → Tree → List Char → σ} (hooks : w.hooks = []) (hv : Rewrites f watch w.visit) :
    ∀ (t : Tree), t.LaidOut s.length → ∀ (parent : Option Nat) (A Z : List Cell) (tail : List Char)
      (links : Links) (notes : σ), A.length = t.span.start →
      ∃ (links' : Links) (M : List Cell),
        w.below parent t ⟨links, ⟨⟨A ++ (segment s t.span.start t.span.stop).map Cell.ofChar ++ Z,
            tail⟩, notes⟩⟩
          = .ok () ⟨links', ⟨⟨A ++ M ++ Z, tail⟩, noteAll f s watch notes t.postorder⟩⟩
        ∧ M.length = t.span.stop - t.span.start ∧ Buffer.Shows M (t.emit f s)
  | .node i k span ts, h, parent, A, Z, tail, links, notes, hA => by
    have hp := h.placed
    obtain ⟨links', M, hrun, hM, hs⟩ :=
      belowAll_rewrites (s := s) hooks hv ts (fun n hn => h n (List.mem_cons_of_mem _ hn))
        span.start span.stop (Nat.le_of_lt hp.nonempty) hp.inside hp.contains hp.ordered i A Z tail
        (links.setIfInBounds i parent) notes hA
    obtain ⟨N, hvisit, hN, hs'⟩ :=
      visitNode_rewrites hooks hv (n := .node i k span ts) hp.nonempty hA hM hs Z tail links'
        (noteAll f s watch notes (Tree.postorderAll ts))
    refine ⟨links', N, ?_, hN, hs'⟩
    rw [Walk.below, bind_of_ok (link_apply i parent links _)]
    simp only [Tree.span]
    rw [bind_of_ok hrun, hvisit, Tree.postorder, noteAll_append]
    rfl

/-- The same for the trees below one node, with the gaps around them. -/
theorem belowAll_rewrites {w : Walk σ RangeError} {f : Rewriting} {s : List Char}
    {watch : σ → Tree → List Char → σ} (hooks : w.hooks = []) (hv : Rewrites f watch w.visit) :
    ∀ (ts : List Tree), (∀ n ∈ Tree.preorderAll ts, n.Placed s.length) →
      ∀ (start stop : Nat), start ≤ stop → stop ≤ s.length →
      (∀ c ∈ ts, start ≤ c.span.start ∧ c.span.stop ≤ stop) →
      ts.Pairwise (fun c d => c.span.stop ≤ d.span.start) →
      ∀ (parent : Nat) (A Z : List Cell) (tail : List Char) (links : Links) (notes : σ),
      A.length = start →
      ∃ (links' : Links) (M : List Cell),
        w.belowAll parent ts ⟨links, ⟨⟨A ++ (segment s start stop).map Cell.ofChar ++ Z, tail⟩,
            notes⟩⟩
          = .ok () ⟨links', ⟨⟨A ++ M ++ Z, tail⟩, noteAll f s watch notes (Tree.postorderAll ts)⟩⟩
        ∧ M.length = stop - start ∧ Buffer.Shows M (Tree.weave f s stop start ts)
  | [], _, start, stop, _, hstop, _, _, _, A, Z, tail, links, notes, _ => by
    refine ⟨links, _, rfl, ?_, Buffer.shows_ofChar _⟩
    rw [List.length_map, length_segment hstop]
  | t :: ts, h, start, stop, hle, hstop, hin, hord, parent, A, Z, tail, links, notes, hA => by
    have ht : t.LaidOut s.length := fun n hn => h n (List.mem_append_left _ hn)
    have hp := ht.placed
    obtain ⟨hstart, hend⟩ := hin t List.mem_cons_self
    obtain ⟨hfirst, hrest⟩ := List.pairwise_cons.1 hord
    -- the range falls into the gap in front of the first tree, that tree, and what is behind it
    have hcut : segment s start stop = segment s start t.span.start
        ++ (segment s t.span.start t.span.stop ++ segment s t.span.stop stop) := by
      rw [segment_append_segment s (Nat.le_of_lt hp.nonempty) hend,
        segment_append_segment s hstart (Nat.le_trans (Nat.le_of_lt hp.nonempty) hend)]
    have hgap : (segment s start t.span.start).length = t.span.start - start :=
      length_segment (Nat.le_trans (Nat.le_of_lt hp.nonempty) hp.inside) start
    obtain ⟨links₁, M, hrun, hM, hs⟩ :=
      below_rewrites (s := s) hooks hv t ht (some parent)
        (A ++ (segment s start t.span.start).map Cell.ofChar)
        ((segment s t.span.stop stop).map Cell.ofChar ++ Z) tail links notes
        (by rw [List.length_append, List.length_map, hgap]; omega)
    obtain ⟨links₂, N, hrun', hN, hs'⟩ :=
      belowAll_rewrites (s := s) hooks hv ts (fun n hn => h n (List.mem_append_right _ hn))
        t.span.stop stop hend hstop
        (fun c hc => ⟨hfirst c hc, (hin c (List.mem_cons_of_mem _ hc)).2⟩)
        hrest parent (A ++ (segment s start t.span.start).map Cell.ofChar ++ M) Z tail links₁
        (noteAll f s watch notes t.postorder)
        (by rw [List.length_append, List.length_append, List.length_map, hgap, hM]
            have := hp.nonempty
            omega)
    refine ⟨links₂, (segment s start t.span.start).map Cell.ofChar ++ M ++ N, ?_, ?_, ?_⟩
    · simp only [List.append_assoc] at hrun hrun'
      simp only [hcut, List.map_append, List.append_assoc]
      rw [Walk.belowAll, bind_of_ok hrun, hrun', Tree.postorderAll, noteAll_append]
    · rw [List.length_append, List.length_append, List.length_map, hgap, hM, hN]
      have := hp.nonempty
      omega
    · rw [Tree.weave]
      exact ((Buffer.shows_ofChar _).append hs).append hs'

end

/-! ### The whole walk -/

theorem noteAll_const (f : Rewriting) (s : List Char) (notes : σ) (ns : List Tree) :
    noteAll f s (fun notes _ _ => notes) notes ns = notes := by
  induction ns with
  | nil => rfl
  | cons n ns ih => exact ih

theorem noteAll_record (f : Rewriting) (s : List Char) (notes : List (Tree × List Char))
    (ns : List Tree) :
    noteAll f s (fun notes n cs => notes ++ [(n, cs)]) notes ns
      = notes ++ ns.map fun n => (n, n.seen f s) := by
  induction ns generalizing notes with
  | nil => simp [noteAll]
  | cons n ns ih =>
    rw [noteAll_cons, ih, List.map_cons, List.append_assoc, List.singleton_append]

/-- A walk from an untouched buffer, for any visitor that rewrites. -/
theorem run_rewrites {w : Walk σ RangeError} {f : Rewriting} {s : List Char}
    {watch : σ → Tree → List Char → σ} (hooks : w.hooks = []) (hv : Rewrites f watch w.visit)
    (h : w.tree.LaidOut s.length) (links : Links) (notes : σ) :
    ∃ (links' : Links) (b : Buffer),
      w.run ⟨links, ⟨.ofText s, notes⟩⟩
        = .ok () ⟨links', ⟨b, noteAll f s watch notes w.tree.postorder⟩⟩
      ∧ b.text = s.take w.tree.span.start ++ w.tree.emit f s ++ s.drop w.tree.span.stop := by
  have hp := h.placed
  have hle : w.tree.span.start ≤ w.tree.span.stop := Nat.le_of_lt hp.nonempty
  have hcells : s.map Cell.ofChar = (s.take w.tree.span.start).map Cell.ofChar
      ++ (segment s w.tree.span.start w.tree.span.stop).map Cell.ofChar
      ++ (s.drop w.tree.span.stop).map Cell.ofChar := by
    rw [← List.map_append, ← List.map_append, take_append_segment s hle, List.take_append_drop]
  obtain ⟨links', M, hrun, -, hs⟩ :=
    below_rewrites hooks hv w.tree h none ((s.take w.tree.span.start).map Cell.ofChar)
      ((s.drop w.tree.span.stop).map Cell.ofChar) [] links notes (by
        rw [List.length_map, List.length_take, Nat.min_eq_left (Nat.le_trans hle hp.inside)])
  refine ⟨links', ⟨(s.take w.tree.span.start).map Cell.ofChar ++ M
    ++ (s.drop w.tree.span.stop).map Cell.ofChar, []⟩, ?_, ?_⟩
  · rw [Walk.run, Buffer.ofText, hcells]
    exact hrun
  · rw [Buffer.text, List.append_nil]
    exact (((Buffer.shows_ofChar _).append hs).append (Buffer.shows_ofChar _)).2

/-- **Nested rewrites compose.**  A walk with a rewriting visitor over a laid out tree never stops,
leaves the text with the tree replaced by what it becomes, and finds at each node the text that the
node is seen as. -/
theorem walk_rewriter_eq_emit {s : List Char} {t : Tree} (h : t.LaidOut s.length) (f : Rewriting)
    (links : Links) :
    (∀ (τ : Type) (notes : τ), ∃ (links' : Links) (b : Buffer),
      Walk.run { tree := t, visit := rewriter f } ⟨links, ⟨.ofText s, notes⟩⟩
        = .ok () ⟨links', ⟨b, notes⟩⟩
      ∧ b.text = s.take t.span.start ++ t.emit f s ++ s.drop t.span.stop) ∧
    ∃ (links' : Links) (b : Buffer),
      Walk.run { tree := t, visit := recorded (rewriter f) } ⟨links, ⟨.ofText s, []⟩⟩
        = .ok () ⟨links', ⟨b, t.postorder.map fun n => (n, n.seen f s)⟩⟩
      ∧ b.text = s.take t.span.start ++ t.emit f s ++ s.drop t.span.stop := by
  constructor
  · intro τ notes
    obtain ⟨links', b, hrun, hb⟩ :=
      run_rewrites (w := { tree := t, visit := rewriter f }) rfl (rewrites_rewriter f) h links notes
    rw [noteAll_const] at hrun
    exact ⟨links', b, hrun, hb⟩
  · obtain ⟨links', b, hrun, hb⟩ :=
      run_rewrites (w := { tree := t, visit := recorded (rewriter f) }) rfl (rewrites_recorded f) h
        links []
    rw [noteAll_record, List.nil_append] at hrun
    exact ⟨links', b, hrun, hb⟩

/-- The tree of `a+b`: a program that is one statement, and the two operands in it. -/
def sumTree : Tree :=
  .node 0 .program ⟨0, 3⟩ [.node 1 .expressionStatement ⟨0, 3⟩
    [.node 2 .other ⟨0, 1⟩ [], .node 3 .other ⟨2, 3⟩ []]]

/-- Put brackets around the operands and a semicolon behind the statement. -/
def sumRewriting : Rewriting := fun n =>
  match n.kind with
  | .other => some fun cs => '(' :: cs ++ [')']
  | .expressionStatement => some fun cs => cs ++ [';']
  | _ => none

/-- The program and the statement share their whole range, the first operand its start. -/
theorem walk_rewriter_sumTree :
    (((((({} : TreeBuilder).openNode .program ⟨0, 3⟩).openNode .expressionStatement ⟨0, 3⟩).leaf
      .other ⟨0, 1⟩).leaf .other ⟨2, 3⟩).closeNode.closeNode).finish = .ok sumTree ∧
    sumTree.LaidOut 3 ∧ ∃ (links : Links) (b : Buffer),
    Walk.run { tree := sumTree, visit := rewriter sumRewriting }
        ⟨sumTree.noLinks, ⟨.ofText ['a', '+', 'b'], ()⟩⟩ = .ok () ⟨links, ⟨b, ()⟩⟩
      ∧ b.text = ['(', 'a', ')', '+', '(', 'b', ')', ';'] := by
  have h : sumTree.LaidOut 3 := by
    intro n hn
    simp only [sumTree, Tree.preorder, Tree.preorderAll, List.append_nil, List.mem_cons,
      List.cons_append, List.nil_append, List.not_mem_nil, or_false] at hn
    rcases hn with rfl | rfl | rfl | rfl <;> exact ⟨by decide, by decide, by decide, by decide⟩
  exact ⟨rfl, h,
    (walk_rewriter_eq_emit (s := ['a', '+', 'b']) h sumRewriting sumTree.noLinks).1 Unit ()⟩

end ComponentCompiler
