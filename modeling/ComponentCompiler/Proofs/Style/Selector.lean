import ComponentCompiler.Proofs.Style.Closed
import ComponentCompiler.Style.Selector

/-!
# Selectors and the pieces they are cut into

Taking a selector apart and cutting it into pieces are two different readings of one text: the
first minds one kind of bracket at a time and knows nothing of comments, the second minds neither
names nor combinators.  On plain texts they agree as far as scoping needs it: a component ends where
a piece ends.  The attribute of a scope therefore never lands in a string, and since its own
brackets are closed again, whatever stands behind it stays in as many brackets as before.

## Main definitions

* `Aligned ps t` — what was taken and what is left are the sources of pieces.
* `attributePieces` — the pieces of the attribute of a scope.

## Main results

* `aligned_takeComponent`, `aligned_components` — components end where pieces end.
* `selectorText_withScope` — a selector that can be printed can be printed when it is scoped.
-/

namespace ComponentCompiler.Style

open Text (trim isBlank isPlainBlank)

/-! ### Taking whole pieces -/

/-- What was taken and what is left of the sources of pieces are the sources of pieces again. -/
def Aligned (ps : List Piece) (t : Taken) : Prop :=
  ∃ qs rs, ps = qs ++ rs ∧ qs.flatMap Piece.source = t.text ∧ rs.flatMap Piece.source = t.rest

theorem aligned_none (ps : List Piece) : Aligned ps ⟨[], ps.flatMap Piece.source⟩ :=
  ⟨[], ps, rfl, rfl, rfl⟩

theorem Aligned.cons {ps : List Piece} {t : Taken} (h : Aligned ps t) (p : Piece) :
    Aligned (p :: ps) (t.after p.source) := by
  obtain ⟨qs, rs, rfl, hqs, hrs⟩ := h
  exact ⟨p :: qs, rs, rfl, by rw [List.flatMap_cons, hqs]; rfl, hrs⟩

theorem Aligned.append (qs : List Piece) {rs : List Piece} {t : Taken} (h : Aligned rs t) :
    Aligned (qs ++ rs) (t.after (qs.flatMap Piece.source)) := by
  obtain ⟨qs', rs', rfl, hqs, hrs⟩ := h
  exact ⟨qs ++ qs', rs', by rw [List.append_assoc], by rw [List.flatMap_append, hqs]; rfl, hrs⟩

/-- Whether no quote stands in front of the first backslash. -/
def quoteFree : List Char → Bool
  | [] => true
  | c :: cs => c == '\\' || !isQuote c && quoteFree cs

/-- In plain pieces, what holds no quote is made of whole pieces. -/
theorem aligned_of_quoteFree {ps : List Piece} (h : Canonical ps) {t : Taken}
    (ht : t.all = ps.flatMap Piece.source) (hq : quoteFree t.text = true) : Aligned ps t := by
  obtain ⟨text, rest⟩ := t
  induction text generalizing ps with
  | nil => exact ⟨[], ps, rfl, rfl, ht.symm⟩
  | cons c text ih =>
    cases ps with
    | nil => cases ht
    | cons p ps =>
      -- plain pieces start neither with a backslash nor, unless they are strings, with a quote
      have hc : (c == '\\' || !isQuote c && quoteFree text) = true := hq
      cases p with
      | char d =>
        obtain ⟨rfl, hrest⟩ : c = d ∧ text ++ rest = ps.flatMap Piece.source := List.cons.inj ht
        have hb : (c == '\\') = false := by simpa using h.2.1
        rw [hb, h.1] at hc
        exact (ih h.tail hrest hc).cons (.char c)
      | string q body =>
        obtain ⟨rfl, -⟩ := List.cons.inj ht
        have hb : (c == '\\') = false := by simpa using ne_backslash_of_isQuote h.1
        rw [hb, h.1] at hc
        cases hc
      | _ => exact h.elim

/-- A character that is no quote is a piece of its own. -/
theorem exists_char_of_canonical {ps : List Piece} (h : Canonical ps) {c : Char} {cs : List Char}
    (hps : ps.flatMap Piece.source = c :: cs) (hc : isQuote c = false) :
    ∃ qs, ps = .char c :: qs ∧ Canonical qs ∧ qs.flatMap Piece.source = cs := by
  cases ps with
  | nil => cases hps
  | cons p ps =>
    cases p with
    | char d =>
      obtain ⟨rfl, hrest⟩ := List.cons.inj hps
      exact ⟨ps, rfl, h.tail, hrest⟩
    | string q body =>
      obtain ⟨rfl, -⟩ := List.cons.inj hps
      rw [h.1] at hc
      cases hc
    | _ => exact h.elim

/-- A quote starts a string. -/
theorem exists_string_of_canonical {ps : List Piece} (h : Canonical ps) {q : Char}
    {cs : List Char} (hps : ps.flatMap Piece.source = q :: cs) (hq : isQuote q = true) :
    ∃ body qs, ps = .string q body :: qs ∧ isStringBody q body = true ∧ Canonical qs ∧
      cs = body ++ q :: qs.flatMap Piece.source := by
  cases ps with
  | nil => cases hps
  | cons p ps =>
    cases p with
    | char d =>
      obtain ⟨rfl, -⟩ := List.cons.inj hps
      rw [h.1] at hq
      cases hq
    | string q' body =>
      simp only [List.flatMap_cons, Piece.source, List.cons_append, List.append_assoc,
        List.nil_append, List.cons.injEq] at hps
      obtain ⟨rfl, hrest⟩ := hps
      exact ⟨body, ps, rfl, h.2.1, h.tail, hrest.symm⟩
    | _ => exact h.elim

/-! ### Names and combinators -/

theorem isQuote_eq_false_of_isIdentChar {c : Char} (h : isIdentChar c = true) :
    isQuote c = false :=
  isQuote_eq_false_of_class h (by decide) (by decide)

theorem isQuote_eq_false_of_isPlainBlank {c : Char} (h : isPlainBlank c = true) :
    isQuote c = false :=
  isQuote_eq_false_of_class h rfl rfl

theorem quoteFree_cons {c : Char} {cs : List Char} (hc : isQuote c = false)
    (h : quoteFree cs = true) : quoteFree (c :: cs) = true := by
  simp [quoteFree, hc, h]

theorem quoteFree_takeIdent (cs : List Char) : quoteFree (takeIdent cs).text = true := by
  fun_induction takeIdent cs with
  | case5 c cs _ _ _ hc ih =>
    refine quoteFree_cons ?_ ih
    simp only [Bool.or_eq_true, beq_iff_eq] at hc
    rcases hc with rfl | hc
    · rfl
    · exact isQuote_eq_false_of_isIdentChar hc
  | _ => rfl

theorem quoteFree_takeCombinator (symbol : Bool) (cs : List Char) :
    quoteFree (takeCombinator symbol cs).text = true := by
  fun_induction takeCombinator symbol cs with
  | case2 _ ih => exact quoteFree_cons rfl (quoteFree_cons rfl ih)
  | case4 _ c cs _ hc ih => exact quoteFree_cons (isQuote_eq_false_of_isPlainBlank hc) ih
  | case5 _ c cs _ _ hc ih =>
    refine quoteFree_cons ?_ ih
    simp only [Bool.and_eq_true, Bool.or_eq_true, beq_iff_eq] at hc
    rcases hc with ⟨-, (rfl | rfl) | rfl⟩ <;> rfl
  | _ => rfl

theorem quoteFree_takeName {c : Char} (cs : List Char) (hc : isQuote c = false) :
    quoteFree (c :: (takeName c cs).text) = true := by
  unfold takeName
  split
  · rfl
  · rfl
  · refine quoteFree_cons hc ?_
    split
    · exact quoteFree_takeIdent _
    · rfl

theorem quoteFree_takeJoin {c : Char} {cs : List Char} (h : startsCombinator c cs = true) :
    quoteFree (c :: (takeJoin c cs).text) = true := by
  simp only [startsCombinator, Bool.or_eq_true, Bool.and_eq_true, beq_iff_eq] at h
  unfold takeJoin
  split
  · next d ds =>
    obtain rfl : d = '|' := by
      rcases h with (((h | h) | h) | h) | h
      · cases h
      · exact absurd h (by decide)
      · exact absurd h (by decide)
      · exact absurd h (by decide)
      · exact Option.some.inj h.2
    exact quoteFree_cons rfl (quoteFree_cons rfl (quoteFree_takeCombinator _ _))
  · refine quoteFree_cons ?_ (quoteFree_takeCombinator _ _)
    rcases h with (((h | rfl) | rfl) | rfl) | ⟨rfl, -⟩
    · exact isQuote_eq_false_of_isPlainBlank h
    all_goals rfl

/-! ### Strings and groups -/

/-- A string is taken whole. -/
theorem takeString_body {q : Char} (hq : isQuote q = true) {body : List Char}
    (h : isStringBody q body = true) (rest : List Char) :
    takeString q (body ++ q :: rest) = .ok ⟨body ++ [q], rest⟩ := by
  fun_induction isStringBody q body with
  | case1 c body ih =>
    rw [List.cons_append, List.cons_append, takeString, ih h]
    rfl
  | case2 c body hcs ih =>
    simp only [Bool.and_eq_true, bne_iff_ne] at h
    rw [List.cons_append, takeString, ih h.2, if_neg (by simpa using h.1.1)]
    · rfl
    · exact fun _ _ hb => absurd hb h.1.2
  | case3 =>
    rw [List.nil_append, takeString, if_pos (beq_self_eq_true q)]
    · rfl
    · exact fun _ _ hb => absurd hb (ne_backslash_of_isQuote hq)

theorem map_after_after (x : Except ComponentFault Taken) (cs ds : List Char) :
    (x.map (Taken.after ds)).map (Taken.after cs) = x.map (Taken.after (cs ++ ds)) := by
  cases x with
  | error e => rfl
  | ok t => simp [Except.map, Taken.after]

/-- In a group, a string is taken whole. -/
theorem takeGroup_body {opening closing q : Char} (hq : isQuote q = true) {body : List Char}
    (h : isStringBody q body = true) (depth : Nat) (rest : List Char) :
    takeGroup opening closing (some q) depth (body ++ q :: rest)
      = (takeGroup opening closing none depth rest).map (.after (body ++ [q])) := by
  fun_induction isStringBody q body with
  | case1 c body ih =>
    rw [List.cons_append, List.cons_append, takeGroup, ih h, map_after_after]
    rfl
  | case2 c body hcs ih =>
    simp only [Bool.and_eq_true, bne_iff_ne] at h
    rw [List.cons_append, takeGroup, if_neg (by simpa using h.1.1), ih h.2, map_after_after]
    · rfl
    · exact fun _ _ hb => absurd hb h.1.2
  | case3 =>
    rw [List.nil_append, takeGroup, if_pos (beq_self_eq_true q)]
    · rfl
    · exact fun _ _ hb => absurd hb (ne_backslash_of_isQuote hq)

theorem aligned_of_map_after {x : Except ComponentFault Taken} {p : Piece} {ps : List Piece}
    {t : Taken} (h : x.map (.after p.source) = .ok t) (hx : ∀ u, x = .ok u → Aligned ps u) :
    Aligned (p :: ps) t := by
  cases x with
  | error e => cases h
  | ok u =>
    obtain rfl := Except.ok.inj h
    exact (hx u rfl).cons p

/-- In a group, a character outside strings ends the group or is passed over. -/
theorem takeGroup_char {opening closing c : Char} (hq : isQuote c = false) (hb : c ≠ '\\')
    (depth : Nat) (cs : List Char) :
    takeGroup opening closing none depth (c :: cs) = .ok ⟨[c], cs⟩ ∨
      ∃ depth', takeGroup opening closing none depth (c :: cs)
        = (takeGroup opening closing none depth' cs).map (.after [c]) := by
  have hesc : ∀ d ds, c = '\\' → cs = d :: ds → False := fun _ _ h => absurd h hb
  cases depth with
  | zero =>
    rw [takeGroup.eq_3 _ _ _ _ hesc, hq]
    by_cases ho : (c == opening) = true
    · exact .inr ⟨1, by simp [ho]⟩
    · by_cases hc : (c == closing) = true
      · exact .inl (by simp [ho, hc])
      · exact .inr ⟨0, by simp [ho, hc]⟩
  | succ d =>
    rw [takeGroup.eq_4 _ _ _ _ _ hesc, hq]
    by_cases ho : (c == opening) = true
    · exact .inr ⟨d + 2, by simp [ho]⟩
    · by_cases hc : (c == closing) = true
      · exact .inr ⟨d, by simp [ho, hc]⟩
      · exact .inr ⟨d + 1, by simp [ho, hc]⟩

/-- In a group, a quote starts a string. -/
theorem takeGroup_quote {opening closing q : Char} (hq : isQuote q = true) (depth : Nat)
    (cs : List Char) :
    takeGroup opening closing none depth (q :: cs)
      = (takeGroup opening closing (some q) depth cs).map (.after [q]) := by
  have hesc : ∀ d ds, q = '\\' → cs = d :: ds → False :=
    fun _ _ h => absurd h (ne_backslash_of_isQuote hq)
  cases depth with
  | zero => rw [takeGroup.eq_3 _ _ _ _ hesc, if_pos hq]
  | succ d => rw [takeGroup.eq_4 _ _ _ _ _ hesc, if_pos hq]

/-- A group ends where a piece ends. -/
theorem aligned_takeGroup {opening closing : Char} {ps : List Piece} (h : Canonical ps)
    {depth : Nat} {t : Taken}
    (ht : takeGroup opening closing none depth (ps.flatMap Piece.source) = .ok t) :
    Aligned ps t := by
  induction ps generalizing depth t with
  | nil => cases ht
  | cons p ps ih =>
    cases p with
    | char c =>
      change takeGroup opening closing none depth (c :: ps.flatMap Piece.source) = .ok t at ht
      rcases takeGroup_char h.1 h.2.1 depth (ps.flatMap Piece.source) with hend | ⟨depth', hon⟩
      · obtain rfl := Except.ok.inj (hend.symm.trans ht)
        exact (aligned_none ps).cons (.char c)
      · exact aligned_of_map_after (p := .char c) (hon.symm.trans ht) fun u => ih h.tail
    | string q body =>
      rw [List.flatMap_cons, Piece.source, List.cons_append, List.cons_append, List.append_assoc,
        List.singleton_append, takeGroup_quote h.1, takeGroup_body h.1 h.2.1,
        map_after_after] at ht
      exact aligned_of_map_after (p := .string q body) ht fun u => ih h.tail
    | _ => exact h.elim

/-- The arguments of a pseudo component end where a piece ends. -/
theorem aligned_takeArguments {ps : List Piece} (h : Canonical ps) {t : Taken}
    (ht : takeArguments (ps.flatMap Piece.source) = .ok t) : Aligned ps t := by
  unfold takeArguments at ht
  split at ht
  · next cs hcs =>
    obtain ⟨qs, rfl, hqs, rfl⟩ := exists_char_of_canonical h hcs rfl
    exact aligned_of_map_after (p := .char '(') ht fun u => aligned_takeGroup hqs
  · obtain rfl := Except.ok.inj ht
    exact aligned_none ps

theorem aligned_takeCall {ps : List Piece} (h : Canonical ps) {t : Taken}
    (ht : takeCall (ps.flatMap Piece.source) = .ok t) : Aligned ps t := by
  obtain ⟨qs, rs, rfl, hqs, hrs⟩ := aligned_of_quoteFree h (all_takeIdent _) (quoteFree_takeIdent _)
  rw [takeCall, ← hrs, ← hqs] at ht
  cases harg : takeArguments (rs.flatMap Piece.source) with
  | error e =>
    rw [harg] at ht
    cases ht
  | ok u =>
    rw [harg] at ht
    obtain rfl := Except.ok.inj ht
    exact Aligned.append qs (aligned_takeArguments h.of_append.2 harg)

theorem aligned_takePseudo {ps : List Piece} (h : Canonical ps) {t : Taken}
    (ht : takePseudo (ps.flatMap Piece.source) = .ok t) : Aligned ps t := by
  unfold takePseudo at ht
  split at ht
  · next cs hcs =>
    obtain ⟨qs, rfl, hqs, rfl⟩ := exists_char_of_canonical h hcs rfl
    exact aligned_of_map_after (p := .char ':') ht fun u => aligned_takeCall hqs
  · exact aligned_takeCall h ht

/-! ### Components -/

/-- A component that is a bracket or a colon and what is taken behind it. -/
theorem aligned_after_char {ps : List Piece} (h : Canonical ps) {c : Char} {cs : List Char}
    (hps : ps.flatMap Piece.source = c :: cs) (hc : isQuote c = false) {t : Taken}
    (ht : ∀ qs, Canonical qs → qs.flatMap Piece.source = cs → Aligned qs t) :
    Aligned ps (t.after [c]) := by
  obtain ⟨qs, rfl, hqs, hcs⟩ := exists_char_of_canonical h hps hc
  exact (ht qs hqs hcs).cons (.char c)

/-- A component ends where a piece ends. -/
theorem aligned_takeComponent {ps : List Piece} (h : Canonical ps) {c : Char} {cs : List Char}
    (hps : ps.flatMap Piece.source = c :: cs) {t : Taken} (ht : (takeComponent c cs).2 = .ok t) :
    Aligned ps (t.after [c]) := by
  have hall : (t.after [c]).all = ps.flatMap Piece.source := by
    rw [hps, Taken.all_after, all_of_takeComponent ht]
    rfl
  -- one case for each kind of component, in the order in which they are told apart
  unfold takeComponent at ht
  split at ht
  · next hstart =>
    obtain rfl := Except.ok.inj ht
    exact aligned_of_quoteFree h hall (quoteFree_takeJoin hstart)
  split at ht
  · next hc =>
    obtain rfl : c = '[' := by simpa using hc
    exact aligned_after_char h hps rfl fun qs hqs hcs => aligned_takeGroup hqs (hcs ▸ ht)
  split at ht
  · next hc =>
    obtain rfl : c = '(' := by simpa using hc
    exact aligned_after_char h hps rfl fun qs hqs hcs => aligned_takeGroup hqs (hcs ▸ ht)
  split at ht
  · cases ht
  split at ht
  · cases ht
  split at ht
  · next hq =>
    obtain ⟨body, qs, rfl, hbody, -, rfl⟩ := exists_string_of_canonical h hps hq
    obtain rfl := Except.ok.inj ((takeString_body hq hbody _).symm.trans ht)
    exact ⟨[.string c body], qs, rfl, by simp [Piece.source, Taken.after], rfl⟩
  next hq =>
  split at ht
  · next hc =>
    obtain rfl : c = ':' := by simpa using hc
    exact aligned_after_char h hps rfl fun qs hqs hcs => aligned_takePseudo hqs (hcs ▸ ht)
  have hquote : isQuote c = false := by simpa using hq
  split at ht
  · obtain rfl := Except.ok.inj ht
    exact aligned_of_quoteFree h hall (quoteFree_cons hquote (quoteFree_takeIdent cs))
  split at ht
  · obtain rfl := Except.ok.inj ht
    exact aligned_of_quoteFree h hall (quoteFree_cons hquote rfl)
  · obtain rfl := Except.ok.inj ht
    exact aligned_of_quoteFree h hall (quoteFree_takeName cs hquote)

/-- However many components are counted off, they end where a piece ends. -/
theorem aligned_components {ps : List Piece} (h : Canonical ps) {ks : List Component}
    (hks : components (ps.flatMap Piece.source) = .ok ks) (i : Nat) :
    Aligned ps ⟨Component.textAll (ks.take i), Component.textAll (ks.drop i)⟩ := by
  generalize hcs : ps.flatMap Piece.source = cs at hks
  fun_induction components cs generalizing ps ks i with
  | case1 =>
    obtain rfl := Except.ok.inj hks
    rw [List.take_nil, List.drop_nil]
    exact ⟨[], ps, rfl, rfl, hcs⟩
  | case2 c cs e he => cases hks
  | case3 c cs t ht hlt ih =>
    obtain ⟨qs, rs, rfl, hqs, hrs⟩ := aligned_takeComponent h hcs ht
    cases hrest : components t.rest with
    | error e =>
      rw [hrest] at hks
      cases hks
    | ok ks' =>
      rw [hrest] at hks
      obtain rfl := Except.ok.inj hks
      have halign := fun j => ih h.of_append.2 j hrs hrest
      cases i with
      | zero =>
        -- no component is counted off, but all of them together must still be all pieces
        obtain ⟨qs', rs', rfl, hqs', hrs'⟩ := halign 0
        refine ⟨[], qs ++ (qs' ++ rs'), rfl, rfl, ?_⟩
        rw [List.flatMap_append, List.flatMap_append, hqs, hqs', hrs']
        rfl
      | succ j =>
        have happend := Aligned.append qs (halign j)
        rw [hqs] at happend
        exact happend

/-! ### The attribute of a scope -/

/-- The pieces of the attribute of a scope. -/
def attributePieces (scope : String) : List Piece :=
  .char '[' :: scope.toList.map .char ++ [.char ']']

theorem source_attributePieces (scope : String) :
    (attributePieces scope).flatMap Piece.source = scopeAttribute scope := by
  simp [attributePieces, scopeAttribute, Piece.source, List.flatMap_map]

theorem canonical_map_char {cs : List Char}
    (h : ∀ c ∈ cs, isQuote c = false ∧ c ≠ '\\' ∧ c ≠ '/') : Canonical (cs.map .char) := by
  induction cs with
  | nil => trivial
  | cons c cs ih =>
    obtain ⟨hq, hb, hs⟩ := h c List.mem_cons_self
    exact ⟨hq, hb, fun hc => absurd hc hs, ih fun d hd => h d (List.mem_cons_of_mem _ hd)⟩

theorem canonical_attributePieces {scope : String}
    (hscope : ∀ c ∈ scope.toList, isIdentChar c = true) : Canonical (attributePieces scope) := by
  have hchars : Canonical ((scopeAttribute scope).map .char) := by
    refine canonical_map_char fun c hc => ?_
    simp only [scopeAttribute, List.cons_append, List.mem_cons, List.mem_append,
      List.not_mem_nil, or_false] at hc
    rcases hc with rfl | hc | rfl
    · decide
    · have hident := hscope c hc
      exact ⟨isQuote_eq_false_of_isIdentChar hident, ne_of_class hident (by decide),
        ne_of_class hident (by decide)⟩
    · decide
  simpa [scopeAttribute, attributePieces] using hchars

/-- In a bracket, the characters of names change nothing. -/
theorem depthAfter_ident (stop : Char → Bool) (depth : Nat) {cs : List Char}
    (h : ∀ c ∈ cs, isIdentChar c = true) (ps : List Piece) :
    depthAfter stop (depth + 1) (cs.map .char ++ ps) = depthAfter stop (depth + 1) ps := by
  induction cs with
  | nil => rfl
  | cons c cs ih =>
    have hc := h c List.mem_cons_self
    have hdepth : Reader.bracketDepth (depth + 1) c = depth + 1 := by
      simp [Reader.bracketDepth, ne_of_class hc (d := '(') (by decide),
        ne_of_class hc (d := '[') (by decide), ne_of_class hc (d := ')') (by decide),
        ne_of_class hc (d := ']') (by decide)]
    rw [List.map_cons, List.cons_append, depthAfter, hdepth]
    exact ih fun d hd => h d (List.mem_cons_of_mem _ hd)

/-- The brackets of the attribute are closed behind it, and nothing ends in it. -/
theorem depthAfter_attributePieces {scope : String}
    (hscope : ∀ c ∈ scope.toList, isIdentChar c = true) {stop : Char → Bool}
    (hstop : stop '[' = false) (depth : Nat) :
    depthAfter stop depth (attributePieces scope) = some depth := by
  rw [attributePieces, List.cons_append, depthAfter, hstop, Bool.and_false,
    if_neg Bool.false_ne_true]
  exact depthAfter_ident stop depth hscope [.char ']']

/-! ### Scoped selectors -/

theorem canonical_withAttribute {scope : String}
    (hscope : ∀ c ∈ scope.toList, isIdentChar c = true) {qs rs : List Piece}
    (h : Canonical (qs ++ rs)) : Canonical (qs ++ attributePieces scope ++ rs) := by
  obtain ⟨hqs, hrs⟩ := h.of_append
  refine (hqs.append (canonical_attributePieces hscope) ?_).append hrs ?_
  · intro _ hhead
    cases hhead
  · intro hlast
    rw [attributePieces, ← List.append_assoc, List.getLast?_concat] at hlast
    cases hlast

/-- A text with the attribute of a scope in it starts as before, or with the attribute. -/
theorem head?_withAttribute {scope : String} {as bs : List Char} {c : Char}
    (h : (as ++ scopeAttribute scope ++ bs).head? = some c) :
    c = '[' ∨ (as ++ bs).head? = some c := by
  cases as with
  | nil => exact .inl (Option.some.inj h).symm
  | cons a as => exact .inr h

theorem getLast?_withAttribute {scope : String} {as bs : List Char} {c : Char}
    (h : (as ++ scopeAttribute scope ++ bs).getLast? = some c) :
    c = ']' ∨ (as ++ bs).getLast? = some c := by
  cases hbs : bs.getLast? with
  | none =>
    obtain rfl := List.getLast?_eq_none_iff.1 hbs
    rw [List.append_nil, scopeAttribute, ← List.append_assoc, List.getLast?_concat] at h
    exact .inl (Option.some.inj h).symm
  | some d =>
    rw [List.getLast?_append, hbs] at h ⊢
    exact .inr h

theorem trim_withAttribute (scope : String) {as bs : List Char} (h : trim (as ++ bs) = as ++ bs) :
    trim (as ++ scopeAttribute scope ++ bs) = as ++ scopeAttribute scope ++ bs := by
  rw [Text.trim_eq_self_iff] at h ⊢
  refine ⟨fun c hc => ?_, fun c hc => ?_⟩
  · rcases head?_withAttribute hc with rfl | hc
    · decide
    · exact h.1 c hc
  · rcases getLast?_withAttribute hc with rfl | hc
    · decide
    · exact h.2 c hc

/-- What a scan meets is the same with the attribute of a scope and without it. -/
theorem depthAfter_withAttribute {scope : String}
    (hscope : ∀ c ∈ scope.toList, isIdentChar c = true) {stop : Char → Bool}
    (hstop : stop '[' = false) (depth : Nat) (qs rs : List Piece) :
    depthAfter stop depth (qs ++ attributePieces scope ++ rs)
      = depthAfter stop depth (qs ++ rs) := by
  rw [List.append_assoc, depthAfter_append, depthAfter_append stop depth qs rs]
  congr 1
  funext d
  rw [depthAfter_append, depthAfter_attributePieces hscope hstop]
  rfl

/-- The attribute of a scope goes between two pieces of a selector. -/
theorem exists_pieces_withScope (scope : String) {cs : List Char}
    (h : ∀ p ∈ pieces cs, p.isPlain = true) {ks : List Component}
    (hks : components cs = .ok ks) :
    ∃ qs rs, pieces cs = qs ++ rs ∧ withScope scope ks
      = qs.flatMap Piece.source ++ scopeAttribute scope ++ rs.flatMap Piece.source := by
  rw [← source_pieces cs] at hks
  obtain ⟨qs, rs, hps, hqs, hrs⟩ :=
    aligned_components (canonical_pieces h) hks (scopePoint ks)
  exact ⟨qs, rs, hps, by rw [hqs, hrs]; rfl⟩

/-- A selector that can be printed can be printed when it is scoped. -/
theorem selectorText_withScope {scope : String}
    (hscope : ∀ c ∈ scope.toList, isIdentChar c = true) {cs : List Char} (h : SelectorText cs)
    {ks : List Component} (hks : components cs = .ok ks) :
    SelectorText (withScope scope ks) := by
  obtain ⟨qs, rs, hps, htext⟩ := exists_pieces_withScope scope h.closed.plain hks
  have hcs : cs = qs.flatMap Piece.source ++ rs.flatMap Piece.source := by
    rw [← List.flatMap_append, ← hps, source_pieces]
  have hcanonical : Canonical (qs ++ attributePieces scope ++ rs) :=
    canonical_withAttribute hscope (hps ▸ canonical_pieces h.closed.plain)
  have hpieces : pieces (withScope scope ks) = qs ++ attributePieces scope ++ rs := by
    rw [htext, ← pieces_of_canonical hcanonical, List.flatMap_append, List.flatMap_append,
      source_attributePieces]
  refine ⟨⟨?_, ?_, ?_⟩, ?_, ?_⟩
  · rw [htext]
    exact trim_withAttribute scope (hcs ▸ h.trimmed)
  · rw [hpieces]
    exact hcanonical.isPlain
  · rw [hpieces, depthAfter_withAttribute hscope rfl, ← hps]
    exact h.closed.balanced
  · simp [htext, scopeAttribute]
  · rw [CommaFree, hpieces, depthAfter_withAttribute hscope rfl, ← hps]
    exact h.commaFree

/-- A scoped selector is its components with the attribute of the scope among them. -/
theorem components_of_scopeSelector {scope s s' : String}
    (h : scopeSelector scope s = .ok s') :
    ∃ ks, components (trim s.toList) = .ok ks ∧
      s' = String.ofList (withScope scope ks) := by
  unfold scopeSelector at h
  split at h
  · cases h
  · rw [tokenize, String.toList_ofList] at h
    cases hks : components (trim s.toList) with
    | error e =>
      rw [hks] at h
      cases h
    | ok ks =>
      rw [hks] at h
      exact ⟨ks, rfl, (Except.ok.inj h).symm⟩

theorem selectorText_scopeSelector {scope : String}
    (hscope : ∀ c ∈ scope.toList, isIdentChar c = true) {s s' : String}
    (h : SelectorText s.toList) (hs : scopeSelector scope s = .ok s') :
    SelectorText s'.toList := by
  obtain ⟨ks, hks, rfl⟩ := components_of_scopeSelector hs
  rw [h.trimmed] at hks
  rw [String.toList_ofList]
  exact selectorText_withScope hscope h hks

/-- Scoping lets no selector start with an at-sign that did not. -/
theorem head?_scopeSelector {scope s s' : String} (h : SelectorText s.toList)
    (hs : scopeSelector scope s = .ok s') (hat : s.toList.head? ≠ some '@') :
    s'.toList.head? ≠ some '@' := by
  obtain ⟨ks, hks, rfl⟩ := components_of_scopeSelector hs
  rw [h.trimmed] at hks
  obtain ⟨qs, rs, hps, htext⟩ := exists_pieces_withScope scope h.closed.plain hks
  rw [String.toList_ofList, htext]
  intro hhead
  rcases head?_withAttribute hhead with hc | hhead
  · cases hc
  · rw [← List.flatMap_append, ← hps, source_pieces] at hhead
    exact hat hhead

end ComponentCompiler.Style
