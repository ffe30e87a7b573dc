import ComponentCompiler.Proofs.Style.RoundTrip
import ComponentCompiler.Proofs.Style.Selector
import ComponentCompiler.Style.Scope

/-!
# Scoped stylesheets as text

Scoping that is finished changes the selectors of a stylesheet, each by itself, and nothing else.  A
stylesheet that can be printed so that it is read back can still be so when it is scoped: what was
scoped in the tree is what is scoped in the text.

## Main definitions

* `Stylesheet.selectors` — the selectors of a stylesheet, at every depth and in source order.
* `Stylesheet.mapSelectors` — a stylesheet with every selector changed.

## Main results

* `scope_eq_mapSelectors` — scoping changes every selector and nothing else.
* `printable_mapSelectors` — with scoped selectors a stylesheet can still be printed.
* `parse_print_scope` — the text of a scoped stylesheet is read as the scoped stylesheet.
-/

namespace ComponentCompiler.Style

/-! ### Selectors at every depth -/

mutual

/-- The selectors of a node and of the nodes in it. -/
def Node.selectors : Node → List String
  | .rule ss body => ss ++ Item.selectorsAll body
  | .group _ _ body => Item.selectorsAll body
  | _ => []

/-- The selectors of the nodes among items. -/
def Item.selectorsAll : List Item → List String
  | [] => []
  | .nested n :: is => n.selectors ++ Item.selectorsAll is
  | _ :: is => Item.selectorsAll is

end

mutual

/-- A node with its selectors, and those of the nodes in it, changed. -/
def Node.mapSelectors (f : String → String) : Node → Node
  | .rule ss body => .rule (ss.map f) (Item.mapSelectorsAll f body)
  | .group n p body => .group n p (Item.mapSelectorsAll f body)
  | n => n

/-- Items with the selectors of the nodes among them changed. -/
def Item.mapSelectorsAll (f : String → String) : List Item → List Item
  | [] => []
  | .nested n :: is => .nested (n.mapSelectors f) :: Item.mapSelectorsAll f is
  | i :: is => i :: Item.mapSelectorsAll f is

end

/-- The selectors of a stylesheet. -/
def Stylesheet.selectors (s : Stylesheet) : List String := s.rules.flatMap Node.selectors

/-- A stylesheet with its selectors changed. -/
def Stylesheet.mapSelectors (f : String → String) (s : Stylesheet) : Stylesheet :=
  ⟨s.rules.map (Node.mapSelectors f)⟩

/-! ### Finished work -/

namespace Progress

/-- The work on two values is finished when both were. -/
theorem both_finished {α β γ : Type} {g : α → β → γ} {p : Progress α} {b : β} {q : Progress β}
    (h : (p.both g b q).error = none) :
    p.error = none ∧ q.error = none ∧ (p.both g b q).value = g p.value q.value := by
  cases hp : p.error with
  | some e => simp [both, hp] at h
  | none =>
    simp only [both, hp] at h ⊢
    exact ⟨trivial, h, rfl⟩

end Progress

/-- Whether `f` gives the scoped form of selectors. -/
def Scopes (scope : String) (f : String → String) (ss : List String) : Prop :=
  ∀ s ∈ ss, scopeSelector scope s = .ok (f s)

/-- What scoping makes of a selector. -/
def scopedForm (scope s : String) : String := (scopedSelector scope s).value

theorem scopedSelectors_finished {scope : String} {ss : List String}
    (h : (scopedSelectors scope ss).error = none) :
    (scopedSelectors scope ss).value = ss.map (scopedForm scope) ∧
      Scopes scope (scopedForm scope) ss := by
  induction ss with
  | nil => exact ⟨rfl, fun _ hs => by cases hs⟩
  | cons s ss ih =>
    obtain ⟨hs, hss, hvalue⟩ := Progress.both_finished h
    obtain ⟨hmap, hall⟩ := ih hss
    refine ⟨?_, List.forall_mem_cons.2 ⟨?_, hall⟩⟩
    · rw [scopedSelectors, hvalue, hmap]
      rfl
    · unfold scopedForm
      unfold scopedSelector at hs ⊢
      split at hs
      · next s' hs' => rw [hs']
      · cases hs

mutual

/-- A node that is scoped has every selector scoped. -/
theorem scoped_finished {scope : String} : ∀ {n : Node}, (n.scoped scope).error = none →
    (n.scoped scope).value = n.mapSelectors (scopedForm scope) ∧
      Scopes scope (scopedForm scope) n.selectors
  | .rule ss body, h => by
    obtain ⟨hss, hbody, hvalue⟩ := Progress.both_finished h
    obtain ⟨hmap, hall⟩ := scopedSelectors_finished hss
    obtain ⟨hmap', hall'⟩ := scopedAll_finished _ hbody
    refine ⟨?_, List.forall_mem_append.2 ⟨hall, hall'⟩⟩
    rw [Node.scoped, hvalue, hmap, hmap']
    rfl
  | .group n p body, h => by
    obtain ⟨hmap, hall⟩ := scopedAll_finished body h
    exact ⟨congrArg (Node.group n p) hmap, hall⟩
  | .atRule _ _ _, _ => ⟨rfl, fun _ hs => by cases hs⟩
  | .comment _, _ => ⟨rfl, fun _ hs => by cases hs⟩

/-- Items that are scoped have every selector scoped. -/
theorem scopedAll_finished {scope : String} : ∀ (is : List Item),
    (Item.scopedAll scope is).error = none →
    (Item.scopedAll scope is).value = Item.mapSelectorsAll (scopedForm scope) is ∧
      Scopes scope (scopedForm scope) (Item.selectorsAll is)
  | [], _ => ⟨rfl, fun _ hs => by cases hs⟩
  | .nested n :: is, h => by
    obtain ⟨hn, his, hvalue⟩ := Progress.both_finished h
    obtain ⟨hmap, hall⟩ := scoped_finished (n := n) hn
    obtain ⟨hmap', hall'⟩ := scopedAll_finished _ his
    refine ⟨?_, List.forall_mem_append.2 ⟨hall, hall'⟩⟩
    rw [Item.scopedAll, hvalue, hmap']
    exact congrArg (fun m => Item.nested m :: _) hmap
  | .declaration p v :: is, h => by
    obtain ⟨hmap, hall⟩ := scopedAll_finished is h
    exact ⟨congrArg (Item.declaration p v :: ·) hmap, hall⟩
  | .comment text :: is, h => by
    obtain ⟨hmap, hall⟩ := scopedAll_finished is h
    exact ⟨congrArg (Item.comment text :: ·) hmap, hall⟩

end

/-- Scoping changes every selector, each by itself, and nothing else. -/
theorem scope_eq_mapSelectors {scope : String} {s s' : Stylesheet} (h : s.scope scope = .ok s') :
    s' = s.mapSelectors (scopedForm scope) ∧ Scopes scope (scopedForm scope) s.selectors := by
  have hnodes : ∀ {ns : List Node}, (Node.scopedAll scope ns).error = none →
      (Node.scopedAll scope ns).value = ns.map (Node.mapSelectors (scopedForm scope)) ∧
        Scopes scope (scopedForm scope) (ns.flatMap Node.selectors) := by
    intro ns hns
    induction ns with
    | nil => exact ⟨rfl, fun _ hs => by cases hs⟩
    | cons n ns ih =>
      obtain ⟨hn, hns, hvalue⟩ := Progress.both_finished hns
      obtain ⟨hmap, hall⟩ := scoped_finished hn
      obtain ⟨hmap', hall'⟩ := ih hns
      refine ⟨?_, List.forall_mem_append.2 ⟨hall, hall'⟩⟩
      rw [Node.scopedAll, hvalue, hmap, hmap']
      rfl
  unfold Stylesheet.scope Progress.toExcept at h
  split at h
  · cases h
  · next hfinished =>
    obtain ⟨hmap, hall⟩ := hnodes hfinished
    refine ⟨?_, hall⟩
    rw [← Except.ok.inj h]
    exact congrArg Stylesheet.mk hmap

/-! ### Scoped stylesheets can be printed -/

theorem selectorText_map {scope : String} (hscope : ∀ c ∈ scope.toList, isIdentChar c = true)
    {f : String → String} {ss : List String} (h : ∀ s ∈ ss, SelectorText s.toList)
    (hf : Scopes scope f ss) : ∀ s ∈ ss.map f, SelectorText s.toList := by
  intro s' hs'
  obtain ⟨s, hs, rfl⟩ := List.mem_map.1 hs'
  exact selectorText_scopeSelector hscope (h s hs) (hf s hs)

theorem head?_map {scope : String} {f : String → String} {ss : List String}
    (h : ∀ s ∈ ss, SelectorText s.toList) (hf : Scopes scope f ss)
    (hat : ∀ s ∈ ss.head?, s.toList.head? ≠ some '@') :
    ∀ s ∈ (ss.map f).head?, s.toList.head? ≠ some '@' := by
  cases ss with
  | nil => intro s hs; cases hs
  | cons s ss =>
    rintro _ ⟨⟩
    exact head?_scopeSelector (h s List.mem_cons_self) (hf s List.mem_cons_self) (hat s rfl)

mutual

/-- With scoped selectors, a node can still be printed. -/
theorem printable_mapSelectors {scope : String}
    (hscope : ∀ c ∈ scope.toList, isIdentChar c = true) {f : String → String} :
    ∀ {n : Node}, n.Printable → Scopes scope f n.selectors → (n.mapSelectors f).Printable
  | .rule _ _, ⟨hss, hat, hbody⟩, hf => by
    obtain ⟨hfss, hfbody⟩ := List.forall_mem_append.1 hf
    exact ⟨selectorText_map hscope hss hfss, head?_map hss hfss hat,
      printable_mapSelectorsAll hscope _ hbody hfbody⟩
  | .group _ _ _, ⟨hname, hgroup, hprelude, hbody⟩, hf =>
    ⟨hname, hgroup, hprelude, printable_mapSelectorsAll hscope _ hbody hf⟩
  | .atRule _ _ none, h, _ => h
  | .atRule _ _ (some _), h, _ => h
  | .comment _, h, _ => h

/-- With scoped selectors, items can still be printed. -/
theorem printable_mapSelectorsAll {scope : String}
    (hscope : ∀ c ∈ scope.toList, isIdentChar c = true) {f : String → String} :
    ∀ (is : List Item), Item.PrintableAll is → Scopes scope f (Item.selectorsAll is) →
      Item.PrintableAll (Item.mapSelectorsAll f is)
  | [], _, _ => trivial
  | .declaration _ _ :: _, ⟨hp, hv, his⟩, hf => ⟨hp, hv, printable_mapSelectorsAll hscope _ his hf⟩
  | .nested _ :: _, ⟨hn, his⟩, hf => by
    obtain ⟨hfn, hfis⟩ := List.forall_mem_append.1 hf
    exact ⟨printable_mapSelectors hscope hn hfn, printable_mapSelectorsAll hscope _ his hfis⟩
  | .comment _ :: is, his, hf => printable_mapSelectorsAll hscope is his hf

end

/-- **Scoping is faithful to the text**: a scoped stylesheet differs from the original in its
selectors only, each of which is the scoped form of the original one.  It can be printed, and what
is printed is read as the scoped stylesheet without its comments. -/
theorem parse_print_scope {scope : String} (hscope : ∀ c ∈ scope.toList, isIdentChar c = true)
    {s s' : Stylesheet} (h : s.Printable) (hs : s.scope scope = .ok s') :
    s'.Printable ∧ parse s'.print = .ok s'.withoutComments ∧
      ∃ f : String → String, (∀ sel ∈ s.selectors, scopeSelector scope sel = .ok (f sel)) ∧
        s' = s.mapSelectors f := by
  obtain ⟨rfl, hf⟩ := scope_eq_mapSelectors hs
  have hprintable : (s.mapSelectors (scopedForm scope)).Printable := by
    intro n' hn'
    obtain ⟨n, hn, rfl⟩ := List.mem_map.1 hn'
    exact printable_mapSelectors hscope (h n hn) fun sel hsel =>
      hf sel (List.mem_flatMap.2 ⟨n, hn, hsel⟩)
  refine ⟨hprintable, ?_, scopedForm scope, hf, rfl⟩
  rw [Reader.parse_eq_read, finish_read_print hprintable]

/-- The attribute goes in front of pseudo components and into nested rules. -/
theorem parse_print_scope_nestedSheet :
    nestedSheet.Printable ∧ ∃ s', nestedSheet.scope "v-1" = .ok s' ∧
      s'.selectors = ["a[v-1]:is(b, c)", "[title=\"x;\x7d\"][v-1]", "p[v-1]"] ∧
      s'.Printable ∧ parse s'.print = .ok s'.withoutComments := by
  have h : nestedSheet.Printable := by decide +kernel
  have hselectors : ((nestedSheet.scope "v-1").map Stylesheet.selectors).toOption
      = some ["a[v-1]:is(b, c)", "[title=\"x;\x7d\"][v-1]", "p[v-1]"] := by decide +kernel
  cases hs : nestedSheet.scope "v-1" with
  | error e =>
    rw [hs] at hselectors
    cases hselectors
  | ok s' =>
    rw [hs] at hselectors
    obtain ⟨hprintable, hparse, -⟩ := parse_print_scope (List.all_eq_true.1 rfl) h hs
    exact ⟨h, s', rfl, Option.some.inj hselectors, hprintable, hparse⟩

end ComponentCompiler.Style
