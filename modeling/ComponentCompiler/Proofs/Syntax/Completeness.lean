import ComponentCompiler.Proofs.Buffer.Frame
import ComponentCompiler.Proofs.Syntax.Lineage
import Mathlib.Data.List.Forall2

/-!
# What a walk visits and links

A walk is a recursion over the tree; it can as well be done with a list of what is still to do
(`Walk.perform`), from which one step at a time is taken.

A walk is watched here by giving its visitor a log (`Walk.logged`): each call is entered with its
cursor and with the error it ended with, if any.  Apart from the log nothing changes.  The entries
are the nodes in post-order, each visited with links that lead from it to the root, up to the last
node or to the first call that fails.

The tree is no part of what a walk changes: kinds, ranges and children are those of the tree that
every call is given.  The buffer is in the hands of visitor and hooks, and keeps its size if they
change it by replacements only (`Edit.Patches`), as everything does that a cursor offers.

## Main definitions

* `Walk.perform` — a walk step by step.
* `Visit`, `Walk.logged` — calls of a visitor, and a walk with a log of them.
* `Walk.visits` — the calls of a list of visits.
* `Edit.Patches`, `Walk.Patches` — the buffer is changed by replacements only.

## Main results

* `Walk.perform_eq_run` — step by step, a walk is the same.
* `Walk.visitEach_logged` — a log of visits holds their calls, and changes nothing else.
* `Walk.visits_cases` — calls end with the last visit or with the first failure.
* `Edit.patches_bind`, `Cursor.patches_patchTree` — what visitors are made of.
* `walk_visits_once_and_links` — the whole walk.
-/

namespace ComponentCompiler

variable {σ ε α β : Type}

/-! ### Step by step -/

namespace Walk

/-- What a walk still has to do with a node. -/
inductive Step where
  /-- Link it, and go on with what is below it. -/
  | enter (parent : Option Nat) (node : Tree)
  /-- Visit it. -/
  | visit (node : Tree)

/-- How many steps come of a step, itself included. -/
def Step.count : Step → Nat
  | .enter _ n => 2 * n.size
  | .visit _ => 1

/-- The same for a list of steps. -/
def countAll : List Step → Nat
  | [] => 0
  | step :: steps => step.count + countAll steps

theorem countAll_append (front back : List Step) :
    countAll (front ++ back) = countAll front + countAll back := by
  induction front with
  | nil => rw [List.nil_append, countAll, Nat.zero_add]
  | cons step steps ih => rw [List.cons_append, countAll, countAll, ih, Nat.add_assoc]

/-- Enter the nodes below a node. -/
def enterAll (parent : Nat) (ts : List Tree) : List Step := ts.map (.enter (some parent))

theorem countAll_enterAll (parent : Nat) (ts : List Tree) :
    countAll (enterAll parent ts) = 2 * (Tree.preorderAll ts).length := by
  induction ts with
  | nil => rfl
  | cons t ts ih =>
    rw [enterAll, List.map_cons, countAll, ← enterAll, ih, Tree.preorderAll, List.length_append,
      Step.count, Tree.size, Nat.mul_add]

/-- A walk done step by step: a node that is entered leaves, on top of what there is to do, the
nodes below it and then its own visit. -/
def perform (w : Walk σ ε) : List Step → EStateM ε (WalkState σ) Unit
  | [] => pure ()
  | .enter parent (.node i k s ts) :: steps => do
      link i parent
      w.perform (enterAll i ts ++ .visit (.node i k s ts) :: steps)
  | .visit n :: steps => do
      w.visitNode n
      w.perform steps
termination_by steps => countAll steps
decreasing_by
  · rw [countAll_append, countAll_enterAll]
    simp only [countAll, Step.count, Tree.size, Tree.preorder, List.length_cons]
    omega
  · simp only [countAll, Step.count]
    omega

mutual

theorem perform_enter (w : Walk σ ε) : ∀ (t : Tree) (parent : Option Nat) (steps : List Step),
    w.perform (.enter parent t :: steps) = (w.below parent t >>= fun _ => w.perform steps)
  | .node i k s ts, parent, steps => by
    rw [perform, perform_enterAll w ts, perform, below]
    simp only [bind_assoc]

theorem perform_enterAll (w : Walk σ ε) : ∀ (ts : List Tree) (i : Nat) (steps : List Step),
    w.perform (enterAll i ts ++ steps) = (w.belowAll i ts >>= fun _ => w.perform steps)
  | [], _, _ => by rw [enterAll, List.map_nil, List.nil_append, belowAll, pure_bind]
  | t :: ts, i, steps => by
    rw [enterAll, List.map_cons, List.cons_append, perform_enter w t, ← enterAll,
      perform_enterAll w ts, belowAll, bind_assoc]

end

/-- **Step by step, a walk is the same.** -/
theorem perform_eq_run (w : Walk σ ε) : w.perform [.enter none w.tree] = w.run := by
  have hdone : (fun _ : Unit => w.perform []) = pure := by
    funext _
    rw [perform]
  rw [perform_enter, hdone, bind_pure, run]

end Walk

/-! ### The log -/

/-- One call of a visitor. -/
structure Visit (σ ε : Type) where
  /-- What the visitor was given. -/
  cursor : Cursor σ
  /-- The error it ended with, if it failed. -/
  failure : Option ε

/-- A desk with a log beside the notes. -/
def Desk.withLog (d : Desk σ) (log : List (Visit σ ε)) : Desk (σ × List (Visit σ ε)) :=
  ⟨d.buffer, (d.notes, log)⟩

/-- The same for the state of a walk. -/
def WalkState.withLog (s : WalkState σ) (log : List (Visit σ ε)) :
    WalkState (σ × List (Visit σ ε)) :=
  ⟨s.links, s.desk.withLog log⟩

namespace Walk

/-- The same for what a walk ends with. -/
def withLog (log : List (Visit σ ε)) :
    EStateM.Result ε (WalkState σ) Unit → EStateM.Result ε (WalkState (σ × List (Visit σ ε))) Unit
  | .ok _ s => .ok () (s.withLog log)
  | .error e s => .error e (s.withLog log)

/-- The walk with every call of its visitor entered in a log. -/
def logged (w : Walk σ ε) : Walk (σ × List (Visit σ ε)) ε where
  tree := w.tree
  visit c d :=
    let given : Cursor σ := { tree := c.tree, links := c.links, hooks := w.hooks, node := c.node }
    match w.visit given ⟨d.buffer, d.notes.1⟩ with
    | .ok _ d' => .ok () (d'.withLog (d.notes.2 ++ [⟨given, none⟩]))
    | .error e d' => .error e (d'.withLog (d.notes.2 ++ [⟨given, some e⟩]))

/-- The calls of a list of visits: they end with the first one that fails. -/
def visits (w : Walk σ ε) : List (Cursor σ) → Desk σ → List (Visit σ ε)
  | [], _ => []
  | c :: cs, d =>
      match w.visit c d with
      | .ok _ d' => ⟨c, none⟩ :: w.visits cs d'
      | .error e _ => [⟨c, some e⟩]

/-- A cursor of the walk with a log, which has no hooks of its own. -/
def lift (c : Cursor σ) : Cursor (σ × List (Visit σ ε)) :=
  { tree := c.tree, links := c.links, hooks := [], node := c.node }

mutual

theorem cursors_logged (w : Walk σ ε) : ∀ (t : Tree) (parent : Option Nat) (links : Links),
    w.logged.cursors parent t links = (w.cursors parent t links).map lift
  | .node i k s ts, parent, links => by
    rw [cursors, cursors, List.map_append, cursorsAll_logged w ts]
    rfl

theorem cursorsAll_logged (w : Walk σ ε) : ∀ (ts : List Tree) (parent : Nat) (links : Links),
    w.logged.cursorsAll parent ts links = (w.cursorsAll parent ts links).map lift
  | [], _, _ => rfl
  | t :: ts, parent, links => by
    rw [cursorsAll, cursorsAll, List.map_append, cursors_logged w t, cursorsAll_logged w ts]

end

/-- A log of visits holds their calls, and changes nothing else. -/
theorem visitEach_logged (w : Walk σ ε) {cs : List (Cursor σ)} (hooks : ∀ c ∈ cs, c.hooks = w.hooks)
    (links : Links) (d : Desk σ) (log : List (Visit σ ε)) :
    w.logged.visitEach (cs.map lift) ⟨links, d.withLog log⟩
      = withLog (log ++ w.visits cs d) (w.visitEach cs ⟨links, d⟩) := by
  induction cs generalizing links d log with
  | nil =>
    rw [visits, List.append_nil]
    rfl
  | cons c cs ih =>
    -- the walk with a log hands the hooks of `w` on, which are those of the cursor
    have hgiven : Cursor.mk c.tree c.links w.hooks c.node = c := by
      rw [← hooks c List.mem_cons_self]
    have hcs : ∀ c ∈ cs, c.hooks = w.hooks := fun c hc => hooks c (List.mem_cons_of_mem _ hc)
    rw [List.map_cons, visitEach, visitEach, visits]
    cases hv : w.visit c d with
    | ok _ d' =>
      have hlog : w.logged.visit (lift c) (d.withLog log)
          = .ok () (d'.withLog (log ++ [⟨c, none⟩])) := by
        simp only [logged, lift, Desk.withLog, hgiven, hv]
      rw [bind_of_ok (visitAt_of_ok hlog links), bind_of_ok (visitAt_of_ok hv links)]
      show w.logged.visitEach (cs.map lift) ⟨c.links, d'.withLog (log ++ [⟨c, none⟩])⟩ = _
      rw [ih hcs, List.append_assoc]
      rfl
    | error e d' =>
      have hlog : w.logged.visit (lift c) (d.withLog log)
          = .error e (d'.withLog (log ++ [⟨c, some e⟩])) := by
        simp only [logged, lift, Desk.withLog, hgiven, hv]
      rw [bind_of_error (visitAt_of_error hlog links), bind_of_error (visitAt_of_error hv links)]
      rfl

/-- **Calls end with the last visit or with the first failure.** -/
theorem visits_cases (w : Walk σ ε) (cs : List (Cursor σ)) (links : Links) (d : Desk σ) :
    (w.visits cs d = cs.map (fun c => ⟨c, none⟩) ∧ ∃ s, w.visitEach cs ⟨links, d⟩ = .ok () s) ∨
    ∃ done c rest e d', cs = done ++ c :: rest ∧
      w.visits cs d = done.map (fun c => ⟨c, none⟩) ++ [⟨c, some e⟩] ∧
      w.visitEach cs ⟨links, d⟩ = .error e ⟨c.links, d'⟩ := by
  induction cs generalizing links d with
  | nil => exact .inl ⟨rfl, ⟨links, d⟩, rfl⟩
  | cons c cs ih =>
    rw [visits, visitEach]
    cases hv : w.visit c d with
    | ok _ d' =>
      rw [bind_of_ok (visitAt_of_ok hv links)]
      rcases ih c.links d' with ⟨hvisits, hrun⟩ | ⟨done, f, rest, e, d'', rfl, hvisits, hrun⟩
      · exact .inl ⟨congrArg (Visit.mk c none :: ·) hvisits, hrun⟩
      · exact .inr ⟨c :: done, f, rest, e, d'', rfl, congrArg (Visit.mk c none :: ·) hvisits, hrun⟩
    | error e d' =>
      rw [bind_of_error (visitAt_of_error hv links)]
      exact .inr ⟨[], c, cs, e, d', rfl, rfl, rfl⟩

/-- The calls are those of the first visits. -/
theorem cursor_visits (w : Walk σ ε) (cs : List (Cursor σ)) (d : Desk σ) :
    (w.visits cs d).map Visit.cursor = cs.take (w.visits cs d).length := by
  induction cs generalizing d with
  | nil => rfl
  | cons c cs ih =>
    rw [visits]
    cases w.visit c d with
    | ok _ d' => exact congrArg (c :: ·) (ih d')
    | error e d' => rfl

end Walk

/-! ### Replacements only -/

namespace Edit

/-- The desk as a computation leaves it, whether it stops or not. -/
def leaves (x : Edit σ ε α) (d : Desk σ) : Desk σ :=
  match x d with
  | .ok _ d' => d'
  | .error _ d' => d'

/-- The computation changes the buffer by replacements only. -/
def Patches (x : Edit σ ε α) : Prop :=
  ∀ d, ∃ ps, (x.leaves d).buffer = d.buffer.afterAll ps

theorem Patches.size_eq {x : Edit σ ε α} (h : x.Patches) (d : Desk σ) :
    (x.leaves d).buffer.size = d.buffer.size := by
  obtain ⟨ps, hps⟩ := h d
  rw [hps, Buffer.size_afterAll]

/-- A computation that does not touch the buffer. -/
theorem patches_of_buffer_eq {x : Edit σ ε α} (h : ∀ d, (x.leaves d).buffer = d.buffer) :
    x.Patches := fun d => ⟨[], h d⟩

theorem patches_pure (a : α) : (pure a : Edit σ ε α).Patches := patches_of_buffer_eq fun _ => rfl

theorem patches_throw (e : ε) : (throw e : Edit σ ε α).Patches := patches_of_buffer_eq fun _ => rfl

theorem patches_note (f : σ → σ) : (note f : Edit σ ε Unit).Patches :=
  patches_of_buffer_eq fun _ => rfl

theorem patches_slice (start stop : Nat) : (slice start stop : Edit σ RangeError _).Patches := by
  refine patches_of_buffer_eq fun d => ?_
  rw [leaves, slice]
  cases d.buffer.slice start stop <;> rfl

theorem patches_replace (start stop : Nat) (t : List Char) :
    (replace start stop t : Edit σ RangeError Unit).Patches := by
  intro d
  refine ⟨[⟨start, stop, t⟩], ?_⟩
  show _ = d.buffer.after ⟨start, stop, t⟩
  rw [leaves, replace, Buffer.after]
  cases d.buffer.replace start stop t <;> rfl

theorem patches_bind {x : Edit σ ε α} (hx : x.Patches) {f : α → Edit σ ε β}
    (hf : ∀ a, (f a).Patches) : (x >>= f).Patches := by
  intro d
  obtain ⟨ps, hps⟩ := hx d
  rw [leaves] at hps ⊢
  cases hrun : x d with
  | ok a d' =>
    rw [hrun] at hps
    obtain ⟨qs, hqs⟩ := hf a d'
    rw [bind_of_ok hrun]
    refine ⟨ps ++ qs, hqs.trans ?_⟩
    rw [show d'.buffer = d.buffer.afterAll ps from hps]
    exact List.foldl_append.symm
  | error e d' =>
    rw [hrun] at hps
    rw [bind_of_error hrun]
    exact ⟨ps, hps⟩

theorem patches_mapError {ε' : Type} (f : ε → ε') {x : Edit σ ε α} (hx : x.Patches) :
    (x.mapError f).Patches := by
  intro d
  obtain ⟨ps, hps⟩ := hx d
  refine ⟨ps, ?_⟩
  rw [← hps, leaves, leaves, mapError]
  cases x d <;> rfl

theorem patches_forM {γ : Type} {xs : List γ} {f : γ → Edit σ ε PUnit}
    (h : ∀ x ∈ xs, (f x).Patches) : (xs.forM f).Patches := by
  induction xs with
  | nil => exact patches_pure _
  | cons x xs ih =>
    rw [List.forM_eq_forM, List.forM_cons]
    exact patches_bind (h x List.mem_cons_self) fun _ =>
      ih fun y hy => h y (List.mem_cons_of_mem x hy)

end Edit

/-- The hook changes the buffer by replacements only. -/
def Hook.Patches (h : Hook σ) : Prop := ∀ event, (h.run event).Patches

namespace Cursor

theorem patches_text (c : Cursor σ) : c.text.Patches := Edit.patches_slice _ _

/-- Replacing the text of a node, with hooks that make replacements only. -/
theorem patches_patchTree {c : Cursor σ} (hooks : ∀ h ∈ c.hooks, h.Patches) (n : Tree)
    (t : List Char) : (c.patchTree n t).Patches := by
  refine Edit.patches_bind (Edit.patches_forM fun h hh => ?_) fun _ => Edit.patches_replace _ _ _
  exact hooks h (List.mem_filter.1 hh).1 _

theorem patches_patchNode {c : Cursor σ} (hooks : ∀ h ∈ c.hooks, h.Patches) (i : Nat)
    (t : List Char) : (c.patchNode i t).Patches := by
  rw [patchNode]
  cases c.tree.find? i with
  | none => exact Edit.patches_pure ()
  | some n => exact patches_patchTree hooks n t

end Cursor

namespace Walk

/-- Hooks and visitor change the buffer by replacements only, the visitor as long as the hooks that
it is given do. -/
structure Patches (w : Walk σ ε) : Prop where
  /-- The hooks. -/
  hooks : ∀ h ∈ w.hooks, h.Patches
  /-- The visitor. -/
  visit : ∀ c : Cursor σ, (∀ h ∈ c.hooks, h.Patches) → (w.visit c).Patches

/-- The state that a walk ends in, whether it stops or not. -/
def endState : EStateM.Result ε (WalkState σ) Unit → WalkState σ
  | .ok _ s => s
  | .error _ s => s

theorem size_visitEach {w : Walk σ ε} {cs : List (Cursor σ)} (h : ∀ c ∈ cs, (w.visit c).Patches)
    (links : Links) (d : Desk σ) :
    (endState (w.visitEach cs ⟨links, d⟩)).desk.buffer.size = d.buffer.size := by
  induction cs generalizing links d with
  | nil => rfl
  | cons c cs ih =>
    have hsize := (h c List.mem_cons_self).size_eq d
    rw [Edit.leaves] at hsize
    rw [visitEach]
    cases hv : w.visit c d with
    | ok _ d' =>
      rw [hv] at hsize
      rw [bind_of_ok (visitAt_of_ok hv links), ih fun c hc => h c (List.mem_cons_of_mem _ hc)]
      exact hsize
    | error e d' =>
      rw [hv] at hsize
      rw [bind_of_error (visitAt_of_error hv links)]
      exact hsize

end Walk

/-! ### The whole walk -/

namespace Tree

mutual

/-- Every node is once in post-order. -/
theorem postorder_perm : ∀ t : Tree, t.postorder.Perm t.preorder
  | .node i k s ts => by
    rw [postorder, preorder]
    exact List.perm_append_comm.trans ((postorderAll_perm ts).cons _)

theorem postorderAll_perm : ∀ ts : List Tree, (postorderAll ts).Perm (preorderAll ts)
  | [] => List.Perm.refl []
  | t :: ts => by
    rw [postorderAll, preorderAll]
    exact (postorder_perm t).append (postorderAll_perm ts)

end

end Tree

namespace Walk

variable {w : Walk σ ε} {links : Links}

theorem run_logged (w : Walk σ ε) (links : Links) (d : Desk σ) :
    w.logged.run ⟨links, d.withLog []⟩
      = withLog (w.visits (w.cursors none w.tree links) d) (w.run ⟨links, d⟩) := by
  rw [run, run, (below_eq_visitEach w w.tree none links d).1,
    (below_eq_visitEach w.logged w.logged.tree none links _).1, cursors_logged]
  exact visitEach_logged w (hooks_cursors w w.tree none links) links d []

/-- The visits go through the nodes in post-order, each with links that lead through the nodes above
it. -/
theorem forall₂_cursors_lineage (h : w.tree.Numbered) (hlinks : links.size = w.tree.size) :
    List.Forall₂ (fun c x => c.node = x.2 ∧ ∀ k, c.ancestorsOf k x.2.id = x.1.take k)
      (w.cursors none w.tree links) (w.tree.lineage []) := by
  have heq : (w.cursors none w.tree links).map Cursor.node = (w.tree.lineage []).map Prod.snd := by
    rw [node_cursors, Tree.node_lineage]
  rw [← List.forall₂_eq_eq_eq, List.forall₂_map_left_iff, List.forall₂_map_right_iff] at heq
  have hnodes := List.forall₂_iff_zip.1 heq
  rw [List.forall₂_iff_zip]
  refine ⟨hnodes.1, fun {c x} hcx => ?_⟩
  have hnode : c.node = x.2 := hnodes.2 hcx
  obtain ⟨hc, hx⟩ := List.of_mem_zip hcx
  refine ⟨hnode, fun k => ancestorsOf_of_mem_cursors h hlinks hc k hx ?_⟩
  rw [hnode]
  exact Tree.id_le_lastId x.2.mem_preorder_self

/-- A walk without a failure makes all calls. -/
theorem run_of_no_failure {d : Desk σ}
    (h : ∀ v ∈ w.visits (w.cursors none w.tree links) d, v.failure = none) :
    (w.visits (w.cursors none w.tree links) d).map Visit.cursor = w.cursors none w.tree links ∧
      ∃ s, w.run ⟨links, d⟩ = .ok () s ∧ s.links = linked none w.tree links := by
  have hrun := w.below_eq_visitEach w.tree none links d
  rcases w.visits_cases (w.cursors none w.tree links) links d with
    ⟨hvisits, s, hs⟩ | ⟨done, c, rest, e, d', -, hvisits, -⟩
  · have hok : w.run ⟨links, d⟩ = .ok () s := hrun.1.trans hs
    refine ⟨?_, s, hok, hrun.2 s hok⟩
    rw [hvisits, List.map_map]
    exact List.map_id _
  · rw [hvisits] at h
    have := h ⟨c, some e⟩ (List.mem_append_right _ (List.mem_singleton_self _))
    cases this

/-- A call that fails is the last one, and the walk ends with the links it was given. -/
theorem run_of_failure {d : Desk σ} {v : Visit σ ε} {e : ε}
    (hv : v ∈ w.visits (w.cursors none w.tree links) d) (he : v.failure = some e) :
    ∃ done rest d', w.cursors none w.tree links = done ++ v.cursor :: rest ∧
      (w.visits (w.cursors none w.tree links) d).map Visit.cursor = done ++ [v.cursor] ∧
      w.run ⟨links, d⟩ = .error e ⟨v.cursor.links, d'⟩ := by
  have hrun := (w.below_eq_visitEach w.tree none links d).1
  have hnone : ∀ cs : List (Cursor σ), v ∉ cs.map fun c => (⟨c, none⟩ : Visit σ ε) := by
    intro cs hmem
    obtain ⟨c, -, rfl⟩ := List.mem_map.1 hmem
    cases he
  rcases w.visits_cases (w.cursors none w.tree links) links d with
    ⟨hvisits, -⟩ | ⟨done, c, rest, e', d', hcs, hvisits, hs⟩
  · rw [hvisits] at hv
    exact absurd hv (hnone _)
  · rw [hvisits, List.mem_append, List.mem_singleton] at hv
    rcases hv with hv | rfl
    · exact absurd hv (hnone done)
    · obtain rfl : e' = e := Option.some.inj he
      refine ⟨done, rest, d', hcs, ?_, hrun.trans hs⟩
      rw [hvisits, List.map_append, List.map_map]
      exact congrArg (· ++ [c]) (List.map_id done)

end Walk

/-- **A walk visits every node once and links it**, done step by step or by recursion.  The log of a
walk holds the nodes in post-order, each with the links leading to the root, and always with the
same tree.  If no call failed, every node was visited and is linked to the node above it.  If a call
failed, it was the last one; the nodes up to the last one below its node are linked, and all others
keep the links they had.  The buffer keeps its size if all edits are patches. -/
theorem walk_visits_once_and_links (w : Walk σ ε) (hbuilt : w.tree.Built) (links : Links)
    (hlinks : links.size = w.tree.size) (d : Desk σ) :
    w.perform [.enter none w.tree] = w.run ∧ ∃ log : List (Visit σ ε),
      w.logged.run ⟨links, d.withLog []⟩ = Walk.withLog log (w.run ⟨links, d⟩) ∧
      (∀ v ∈ log, v.cursor.tree = w.tree) ∧
      List.Forall₂ (fun v x => v.cursor.node = x.2 ∧
        ∀ k, v.cursor.ancestorsOf k x.2.id = x.1.take k)
        log ((w.tree.lineage []).take log.length) ∧
      ((∀ v ∈ log, v.failure = none) → ∃ s, w.run ⟨links, d⟩ = .ok () s ∧
        log.map (·.cursor.node) = w.tree.postorder ∧
        (log.map (·.cursor.node.id)).Perm (List.range w.tree.size) ∧
        ∀ x ∈ w.tree.lineage [], s.links[x.2.id]? = some (x.1.head?.map Tree.id)) ∧
      (∀ v ∈ log, ∀ e, v.failure = some e → ∃ s before rest,
        w.run ⟨links, d⟩ = .error e s ∧
        log.map (·.cursor.node) = before ++ [v.cursor.node] ∧
        w.tree.postorder = before ++ v.cursor.node :: rest ∧
        ∀ x ∈ w.tree.lineage [], s.links[x.2.id]? =
          if x.2.id ≤ v.cursor.node.lastId then some (x.1.head?.map Tree.id)
          else links[x.2.id]?) ∧
      (w.Patches → (Walk.endState (w.run ⟨links, d⟩)).desk.buffer.size = d.buffer.size) := by
  have hnum := hbuilt.numbered
  have hnodes := w.node_cursors w.tree none links
  have hprefix := w.cursor_visits (w.cursors none w.tree links) d
  refine ⟨w.perform_eq_run, w.visits (w.cursors none w.tree links) d, w.run_logged links d, ?_, ?_,
    ?_, ?_, ?_⟩
  · intro v hv
    have hmem : v.cursor ∈ (w.cursors none w.tree links).take _ :=
      hprefix ▸ List.mem_map.2 ⟨v, hv, rfl⟩
    exact w.tree_of_mem_cursors w.tree none links _ (List.mem_of_mem_take hmem)
  · have htake := List.forall₂_take (w.visits (w.cursors none w.tree links) d).length
      (Walk.forall₂_cursors_lineage hnum hlinks)
    rw [← hprefix, List.forall₂_map_left_iff] at htake
    exact htake
  · intro hall
    obtain ⟨hcursors, s, hs, hslinks⟩ := Walk.run_of_no_failure hall
    have hpost : (w.visits (w.cursors none w.tree links) d).map (·.cursor.node)
        = w.tree.postorder := by
      have := congrArg (List.map Cursor.node) hcursors
      rw [List.map_map, hnodes] at this
      exact this
    refine ⟨s, hs, hpost, ?_, fun x hx => ?_⟩
    · have hids := w.tree.postorder_perm.map Tree.id
      rw [← hpost, List.map_map, hnum] at hids
      exact hids
    · rw [hslinks, Walk.getElem?_linked_none hnum hlinks hx]
  · intro v hv e he
    obtain ⟨done, rest, d', hcs, hvisits, hs⟩ := Walk.run_of_failure hv he
    refine ⟨_, done.map Cursor.node, rest.map Cursor.node, hs, ?_, ?_, fun x hx => ?_⟩
    · have := congrArg (List.map Cursor.node) hvisits
      rw [List.map_map, List.map_append] at this
      exact this
    · rw [← hnodes, hcs, List.map_append, List.map_cons]
    · have hmem : v.cursor ∈ w.cursors none w.tree links := by
        rw [hcs]
        exact List.mem_append_right _ List.mem_cons_self
      exact Walk.getElem?_links_of_mem_cursors hnum hlinks hmem hx
  · intro hp
    rw [Walk.run, (w.below_eq_visitEach w.tree none links d).1]
    refine Walk.size_visitEach (fun c hc => hp.visit c ?_) links d
    rw [w.hooks_cursors w.tree none links c hc]
    exact hp.hooks

/-- A walk of `a+b` whose visitor counts the characters it finds, replaces the first operand, before
which a hook inserts a bracket, replaces the second operand ahead of its visit, and stops. -/
def haltingWalk : Walk Nat String where
  tree := sumTree
  hooks := [{ node := 2, run := fun _ => Edit.replace 0 0 ['('] }]
  visit c := do
    let cs ← c.text.mapError RangeError.message
    Edit.note (· + cs.length)
    (c.patch ('x' :: cs)).mapError RangeError.message
    (c.patchNode 3 ['y']).mapError RangeError.message
    throw "halt"

theorem patches_haltingWalk : haltingWalk.Patches where
  hooks := fun _ hh _ => by
    rw [List.mem_singleton.1 hh]
    exact Edit.patches_replace 0 0 ['(']
  visit := fun c hooks =>
    Edit.patches_bind (Edit.patches_mapError _ c.patches_text) fun _ =>
      Edit.patches_bind (Edit.patches_note _) fun _ =>
        Edit.patches_bind
            (Edit.patches_mapError _ (Cursor.patches_patchTree hooks c.node _)) fun _ =>
          Edit.patches_bind (Edit.patches_mapError _ (Cursor.patches_patchNode hooks 3 _)) fun _ =>
            Edit.patches_throw "halt"

theorem built_sumTree : sumTree.Built :=
  ⟨_, ((((TreeBuilder.Reachable.start.openNode .program ⟨0, 3⟩).openNode .expressionStatement
    ⟨0, 3⟩).openNode .other ⟨0, 1⟩).closeNode.openNode .other ⟨2, 3⟩).closeNode.closeNode.closeNode,
    rfl⟩

/-- The walk stops at its first visit, of the node numbered 2: the node numbered 3 keeps the link
that it had. -/
theorem walk_visits_once_and_links_halting :
    sumTree.Built ∧ haltingWalk.Patches ∧ ∃ (log : List (Visit Nat String)) (s : WalkState Nat),
      haltingWalk.logged.run
          ⟨#[none, none, none, some 0], Desk.withLog ⟨.ofText ['a', '+', 'b'], 0⟩ []⟩
        = .error "halt" (s.withLog log) ∧
      log.map (·.cursor.node) = [.node 2 .other ⟨0, 1⟩ []] ∧
      s.links = #[none, some 0, some 1, some 0] ∧ s.desk.buffer.text = ['(', 'x', 'a', '+', 'y'] ∧
      s.desk.buffer.size = 3 := by
  obtain ⟨-, log, hlog, -, -, -, -, hsize⟩ :=
    walk_visits_once_and_links haltingWalk built_sumTree #[none, none, none, some 0] rfl
      ⟨.ofText ['a', '+', 'b'], 0⟩
  have hsize := hsize patches_haltingWalk
  -- both runs are evaluated, which gives the log
  cases hlog
  exact ⟨built_sumTree, patches_haltingWalk, _, _, rfl, rfl, rfl, rfl, hsize⟩

end ComponentCompiler
