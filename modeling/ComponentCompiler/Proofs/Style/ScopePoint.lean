import ComponentCompiler.Proofs.Style.Components
import ComponentCompiler.Proofs.Style.Selector

/-!
# Where the attribute of a scope goes

The attribute goes behind the last component of a selector that is not a pseudo component, and in
front of all components if there is none.  It is a component of its own there, and the components
around it stay what they were.  Scoping the result again therefore finds the same place, just behind
the first attribute.

A backslash at the end of the selector is the one exception: it would escape the bracket of the
attribute.

## Main definitions

* `CutsAt ks as bs` — `bs` is the longest row of pseudo components at the end of `ks`.

## Main results

* `withScope_of_cutsAt` — the attribute goes where the components are cut.
* `components_withAttribute` — the components of a scoped selector.
* `scopeSelector_at_cut` — where the attribute goes, and that it goes there again.
-/

namespace ComponentCompiler.Style

open Text (trim)

/-! ### The last row of pseudo components -/

/-- The components `bs` are the longest row of pseudo components at the end of `ks`, and `as` are
the ones in front of them. -/
structure CutsAt (ks as bs : List Component) : Prop where
  /-- They are all components. -/
  all : ks = as ++ bs
  /-- Behind the cut stand pseudo components only. -/
  pseudo : ∀ k ∈ bs, k.kind = .pseudo
  /-- In front of the cut stands another one. -/
  longest : ∀ k ∈ as.getLast?, k.kind ≠ .pseudo

theorem scopePoint_of_cutsAt {ks as bs : List Component} (h : CutsAt ks as bs) :
    scopePoint ks = as.length := by
  have hpseudo : ∀ k ∈ bs.reverse, decide (k.kind = .pseudo) = true := by
    simpa using h.pseudo
  have hlongest : as.reverse.dropWhile (fun k => decide (k.kind = .pseudo)) = as.reverse := by
    cases hrev : as.reverse with
    | nil => rfl
    | cons k ks =>
      have hlast : as.getLast? = some k := by rw [← List.head?_reverse, hrev]; rfl
      rw [List.dropWhile_cons, if_neg (by simpa using h.longest k hlast)]
  rw [scopePoint, h.all, List.reverse_append, List.dropWhile_append_of_pos hpseudo, hlongest,
    List.length_reverse]

theorem exists_cutsAt (ks : List Component) : ∃ as bs, CutsAt ks as bs := by
  induction ks using List.reverseRecOn with
  | nil => exact ⟨[], [], rfl, by simp, by simp⟩
  | append_singleton ks k ih =>
    by_cases hk : k.kind = .pseudo
    · obtain ⟨as, bs, rfl, hpseudo, hlongest⟩ := ih
      refine ⟨as, bs ++ [k], by simp, ?_, hlongest⟩
      exact List.forall_mem_append.2 ⟨hpseudo, List.forall_mem_singleton.2 hk⟩
    · exact ⟨ks ++ [k], [], by simp, by simp, by simpa using hk⟩

/-- The attribute goes where the components are cut. -/
theorem withScope_of_cutsAt {ks as bs : List Component} (h : CutsAt ks as bs) (scope : String) :
    withScope scope ks
      = Component.textAll as ++ scopeAttribute scope ++ Component.textAll bs := by
  rw [withScope, scopePoint_of_cutsAt h, h.all, List.take_left, List.drop_left]

/-! ### The attribute as a component -/

theorem takeGroup_ident {cs : List Char} (h : ∀ c ∈ cs, isIdentChar c = true) (rest : List Char) :
    takeGroup '[' ']' none 0 (cs ++ ']' :: rest) = .ok ⟨cs ++ [']'], rest⟩ := by
  induction cs with
  | nil => rfl
  | cons c cs ih =>
    obtain ⟨hc, hcs⟩ := List.forall_mem_cons.1 h
    have hstep : groupStep '[' ']' none 0 c = some (none, 0) := by
      simp [groupStep, isQuote_eq_false_of_isIdentChar hc, ne_of_class hc (d := '[') (by decide),
        ne_of_class hc (d := ']') (by decide)]
    have hne : c ≠ '\\' := ne_of_class hc (by decide)
    rw [List.cons_append, takeGroup_cons (fun _ _ hb => absurd hb hne), hstep, Option.elim_some,
      ih hcs]
    rfl

/-- The attribute of a scope is a component. -/
theorem components_attribute {scope : String} (h : ∀ c ∈ scope.toList, isIdentChar c = true)
    (rest : List Char) :
    components (scopeAttribute scope ++ rest)
      = (components rest).map (⟨.simple, scopeAttribute scope⟩ :: ·) := by
  have htake : takeComponent '[' (scope.toList ++ ']' :: rest)
      = (.simple, .ok ⟨scope.toList ++ [']'], rest⟩) := by
    rw [← takeGroup_ident h]
    rfl
  have hsource : scopeAttribute scope ++ rest = '[' :: (scope.toList ++ ']' :: rest) := by
    simp [scopeAttribute]
  rw [hsource, components_cons htake]
  rfl

/-- The components of a selector with the attribute of a scope where it was cut. -/
theorem components_withAttribute {scope : String}
    (hscope : ∀ c ∈ scope.toList, isIdentChar c = true) {cs : List Char} {ks as bs : List Component}
    (hks : components cs = .ok ks) (hcut : CutsAt ks as bs) (hescape : endsEscaping cs = false) :
    components (Component.textAll as ++ scopeAttribute scope ++ Component.textAll bs)
      = .ok (as ++ ⟨.simple, scopeAttribute scope⟩ :: bs) := by
  have hcs := textAll_components hks
  rw [hcut.all, textAll_append] at hcs
  rw [hcut.all] at hks
  have hbar : (Component.textAll bs).head? ≠ some '|' := by
    cases bs with
    | nil => simp
    | cons k bs =>
      have hcolon := head?_of_pseudo hks k (by simp) (hcut.pseudo k List.mem_cons_self)
      obtain ⟨ds, hds⟩ := List.head?_eq_some_iff.1 hcolon
      simp [hds]
  have hexchange := components_exchange (hcs.symm ▸ hks) hbar (hcs.symm ▸ hescape)
    (scope.toList ++ ']' :: Component.textAll bs)
  have hsource : '[' :: (scope.toList ++ ']' :: Component.textAll bs)
      = scopeAttribute scope ++ Component.textAll bs := by simp [scopeAttribute]
  rw [hsource, components_attribute hscope, components_textAll_of_append hks] at hexchange
  rw [List.append_assoc, hexchange]
  rfl

/-! ### Scoped selectors -/

theorem scopeSelector_eq_error_iff {scope s : String} {e : SelectorError} :
    scopeSelector scope s = .error e ↔
      trim s.toList = [] ∧ e = .empty ∨ tokenize (String.ofList (trim s.toList)) = .error e := by
  unfold scopeSelector
  split
  · next hnil => simp [hnil, tokenize, components, Except.mapError, eq_comm]
  · next cs hne =>
    have hcs : trim s.toList ≠ [] := hne
    cases tokenize (String.ofList (trim s.toList)) <;> simp [Except.map, hcs]

theorem scopeSelector_of_components {scope s : String} {ks : List Component}
    (hne : trim s.toList ≠ []) (h : components (trim s.toList) = .ok ks) :
    scopeSelector scope s = .ok (String.ofList (withScope scope ks)) := by
  unfold scopeSelector
  split
  · next hnil => exact absurd hnil hne
  · rw [tokenize, String.toList_ofList, h]
    rfl

theorem tokenize_ofList {cs : List Char} {ks : List Component} (h : components cs = .ok ks) :
    tokenize (String.ofList cs) = .ok ks := by
  rw [tokenize, String.toList_ofList, h]
  rfl

/-- **Where the attribute of a scope goes.**  Scoping fails if nothing is left of the selector
without the blanks around it, or if it cannot be taken apart, and then with that error.  Otherwise
the attribute goes in front of the longest row of pseudo components at its end.  Unless the selector
ends with a backslash that escapes nothing, the attribute is a component there, the others are the
same as before, and a second scope goes right behind the first. -/
theorem scopeSelector_at_cut {scope : String} (hscope : ∀ c ∈ scope.toList, isIdentChar c = true)
    (s : String) :
    (∀ e, scopeSelector scope s = .error e ↔
        trim s.toList = [] ∧ e = .empty ∨ tokenize (String.ofList (trim s.toList)) = .error e) ∧
      ∀ out, scopeSelector scope s = .ok out → ∃ as bs,
        tokenize (String.ofList (trim s.toList)) = .ok (as ++ bs) ∧
        (∀ k ∈ bs, k.kind = .pseudo) ∧ (∀ k ∈ as.getLast?, k.kind ≠ .pseudo) ∧
        Component.textAll as ++ Component.textAll bs = trim s.toList ∧
        out.toList = Component.textAll as ++ scopeAttribute scope ++ Component.textAll bs ∧
        (endsEscaping (trim s.toList) = false →
          tokenize out = .ok (as ++ ⟨.simple, scopeAttribute scope⟩ :: bs) ∧
          ∀ scope', scopeSelector scope' out = .ok (String.ofList (Component.textAll as ++
            scopeAttribute scope ++ scopeAttribute scope' ++ Component.textAll bs))) := by
  refine ⟨fun e => scopeSelector_eq_error_iff, fun out hout => ?_⟩
  obtain ⟨ks, hks, rfl⟩ := components_of_scopeSelector hout
  obtain ⟨as, bs, hcut⟩ := exists_cutsAt ks
  have htext : Component.textAll as ++ Component.textAll bs = trim s.toList := by
    rw [← textAll_append, ← hcut.all, textAll_components hks]
  refine ⟨as, bs, hcut.all ▸ tokenize_ofList hks, hcut.pseudo, hcut.longest, htext, ?_, ?_⟩
  · rw [String.toList_ofList, withScope_of_cutsAt hcut]
  intro hescape
  have hscoped := components_withAttribute hscope hks hcut hescape
  rw [withScope_of_cutsAt hcut]
  refine ⟨tokenize_ofList hscoped, fun scope' => ?_⟩
  -- the scoped selector has no blanks around it, and its attribute is no pseudo component
  have htrim := trim_withAttribute scope (htext.symm ▸ Text.trim_trim s.toList)
  have hagain : CutsAt (as ++ ⟨.simple, scopeAttribute scope⟩ :: bs)
      (as ++ [⟨.simple, scopeAttribute scope⟩]) bs :=
    ⟨by simp, hcut.pseudo, by simp⟩
  rw [scopeSelector_of_components, withScope_of_cutsAt hagain]
  · simp [Component.textAll]
  · rw [String.toList_ofList, htrim]
    simp [scopeAttribute]
  · rw [String.toList_ofList, htrim, hscoped]

/-- A selector with an escape, a bar, a combinator and two pseudo components at its end. -/
theorem scopeSelector_at_cut_escaped :
    scopeSelector "v-1" " .a\\:b > |c:is(d, :e)::f " = .ok ".a\\:b > |c[v-1]:is(d, :e)::f" ∧
      endsEscaping (trim " .a\\:b > |c:is(d, :e)::f ".toList) = false ∧ ∃ as bs,
        tokenize ".a\\:b > |c[v-1]:is(d, :e)::f"
          = .ok (as ++ ⟨.simple, scopeAttribute "v-1"⟩ :: bs) ∧
        scopeSelector "v-2" ".a\\:b > |c[v-1]:is(d, :e)::f" = .ok (String.ofList
          (Component.textAll as ++ scopeAttribute "v-1" ++ scopeAttribute "v-2" ++
            Component.textAll bs)) := by
  have h : scopeSelector "v-1" " .a\\:b > |c:is(d, :e)::f "
      = .ok ".a\\:b > |c[v-1]:is(d, :e)::f" := by
    decide +kernel
  have hescape : endsEscaping (trim " .a\\:b > |c:is(d, :e)::f ".toList) = false := by
    decide +kernel
  obtain ⟨as, bs, -, -, -, -, -, hagain⟩ :=
    (scopeSelector_at_cut (List.all_eq_true.1 rfl) _).2 _ h
  exact ⟨h, hescape, as, bs, (hagain hescape).1, (hagain hescape).2 "v-2"⟩

-- A backslash at the end escapes the bracket of the attribute.
example :
    scopeSelector "v" "a\\" = .ok "a\\[v]" ∧
      tokenize "a\\[v]" = .error (.unbalanced '[' "a\\[v]") := by
  decide +kernel

end ComponentCompiler.Style
