import ComponentCompiler.Component.Template
import ComponentCompiler.Proofs.Syntax.Rewrite
import ComponentCompiler.Script.Parse

/-!
# Markup as a template literal

Escaped markup can be put between two backticks.  What this means is said first of any text, by the
backslashes that escape in it (`escaping`): a text is *sealed* if it neither ends the literal nor
starts a substitution, and escapes nothing but the three marks that have a meaning there.  Markup is
escaped character by character, so every statement about it follows the same two cases: a mark with
a backslash in front of it, or a character that stands for itself (`escapeLiteral_cases`).

The literal says what the markup says, with every line end read as a line feed; escaping does not
touch line ends, so the two can be taken one after the other.  In the end the field is read by the
grammar of scripts, whatever follows it: it is one property with a literal for its value, and
reading stops at the comma behind it.

## Main definitions

* `escaping`, `Sealed` — escapes in a text, and texts that can stand in a literal.
* `templateProperty` — the syntax of the field.

## Main results

* `sealed_escapeLiteral` — escaped markup is sealed.
* `templateBody_escapeLiteral` — the literal ends at the backtick behind the markup.
* `cook_escapeLiteral`, `plainLines_escapeLiteral` — the literal says what the markup says.
* `objectMember_templateField` — the field is one property.
* `markup_survives_as_literal` — **all of this**.
-/

namespace ComponentCompiler

open Script Script.Grammar
open Text (byteLength)

/-! ### Escapes -/

/-- Whether a text ends with a backslash that escapes what comes next. -/
def escaping (cs : List Char) : Bool := cs.foldl (fun escaped c => !escaped && c == '\\') false

/-- The characters that have a meaning in a template literal. -/
def IsEscapable (c : Char) : Prop := c = '\\' ∨ c = '\x60' ∨ c = '$'

/-- A text can stand in a template literal, between its two backticks. -/
structure Sealed (cs : List Char) : Prop where
  /-- Every backtick is escaped. -/
  backtick : ∀ front back, cs = front ++ '\x60' :: back → escaping front = true
  /-- Every start of a substitution is escaped. -/
  substitution : ∀ front back, cs = front ++ '$' :: '{' :: back → escaping front = true
  /-- Only backslashes, backticks and dollar signs are escaped. -/
  escape : ∀ front c back, cs = front ++ '\\' :: c :: back → escaping front = false → IsEscapable c
  /-- No backslash is left without a character that it escapes. -/
  complete : escaping cs = false

/-- A character in front of a text stands for itself. -/
structure StandsPlain (c : Char) (cs : List Char) : Prop where
  /-- It escapes nothing. -/
  not_backslash : c ≠ '\\'
  /-- It does not end the literal. -/
  not_backtick : c ≠ '\x60'
  /-- It does not start a substitution. -/
  not_substitution : c = '$' → cs.head? ≠ some '{'

theorem escaping_cons {c : Char} (hc : c ≠ '\\') (cs : List Char) :
    escaping (c :: cs) = escaping cs := by
  have hstep : (!false && c == '\\') = false := by simpa using hc
  rw [escaping, List.foldl_cons, hstep, escaping]

theorem escaping_escape (c : Char) (cs : List Char) :
    escaping ('\\' :: c :: cs) = escaping cs := by
  simp [escaping]

/-- Where an escaped character and the text behind it can be cut in two. -/
theorem escape_eq_append {c d : Char} {cs front back : List Char}
    (h : '\\' :: c :: cs = front ++ d :: back) :
    (front = [] ∧ d = '\\' ∧ back = c :: cs) ∨ front = ['\\'] ∨
      ∃ front', front = '\\' :: c :: front' ∧ cs = front' ++ d :: back := by
  match front, h with
  | [], h =>
    obtain ⟨hd, hback⟩ := List.cons.inj h
    exact .inl ⟨rfl, hd.symm, hback.symm⟩
  | [a], h =>
    obtain ⟨ha, -⟩ := List.cons.inj h
    exact .inr (.inl (by rw [ha]))
  | a :: b :: front', h =>
    obtain ⟨ha, h⟩ := List.cons.inj h
    obtain ⟨hb, hcs⟩ := List.cons.inj h
    exact .inr (.inr ⟨front', by rw [ha, hb], hcs⟩)

namespace Sealed

theorem nil : Sealed [] where
  backtick front back h := by simp at h
  substitution front back h := by simp at h
  escape front c back h := by simp at h
  complete := rfl

/-- A character that stands for itself, in front of a sealed text. -/
theorem cons {c : Char} {cs : List Char} (h : Sealed cs) (hc : StandsPlain c cs) :
    Sealed (c :: cs) where
  backtick front back heq := by
    rcases List.cons_eq_append_iff.1 heq with ⟨-, hnil⟩ | ⟨front', rfl, hcs⟩
    · exact absurd (List.cons.inj hnil).1.symm hc.not_backtick
    · rw [escaping_cons hc.not_backslash]
      exact h.backtick front' back hcs
  substitution front back heq := by
    rcases List.cons_eq_append_iff.1 heq with ⟨-, hnil⟩ | ⟨front', rfl, hcs⟩
    · obtain ⟨hdollar, hcs⟩ := List.cons.inj hnil
      refine absurd ?_ (hc.not_substitution hdollar.symm)
      rw [← hcs]
      rfl
    · rw [escaping_cons hc.not_backslash]
      exact h.substitution front' back hcs
  escape front d back heq := by
    rcases List.cons_eq_append_iff.1 heq with ⟨-, hnil⟩ | ⟨front', rfl, hcs⟩
    · exact absurd (List.cons.inj hnil).1.symm hc.not_backslash
    · rw [escaping_cons hc.not_backslash]
      exact h.escape front' d back hcs
  complete := by
    rw [escaping_cons hc.not_backslash]
    exact h.complete

/-- An escaped mark in front of a sealed text. -/
theorem escaped {c : Char} {cs : List Char} (h : Sealed cs) (hc : IsEscapable c) :
    Sealed ('\\' :: c :: cs) where
  backtick front back heq := by
    rcases escape_eq_append heq with ⟨-, hd, -⟩ | rfl | ⟨front', rfl, hcs⟩
    · cases hd
    · rfl
    · rw [escaping_escape]
      exact h.backtick front' back hcs
  substitution front back heq := by
    rcases escape_eq_append heq with ⟨-, hd, -⟩ | rfl | ⟨front', rfl, hcs⟩
    · cases hd
    · rfl
    · rw [escaping_escape]
      exact h.substitution front' back hcs
  escape front d back heq hfront := by
    rcases escape_eq_append heq with ⟨-, -, hback⟩ | rfl | ⟨front', rfl, hcs⟩
    · rw [(List.cons.inj hback).1]
      exact hc
    · cases hfront
    · rw [escaping_escape] at hfront
      exact h.escape front' d back hcs hfront
  complete := by
    rw [escaping_escape]
    exact h.complete

end Sealed

/-! ### Markup, character by character -/

/-- Whether a character of markup is escaped, given the character behind it. -/
def isEscaped (c : Char) (next : Option Char) : Bool :=
  c == '\\' || c == '\x60' || (c == '$' && next == some '{')

theorem escapeLiteral_cons (c : Char) (cs : List Char) :
    escapeLiteral (c :: cs)
      = if isEscaped c cs.head? then '\\' :: c :: escapeLiteral cs else c :: escapeLiteral cs := by
  by_cases hsub : c = '$' ∧ cs.head? = some '{'
  · -- the brace behind the dollar sign is copied, which escaping what follows does as well
    obtain ⟨rfl, hhead⟩ := hsub
    obtain ⟨ds, rfl⟩ := List.head?_eq_some_iff.1 hhead
    rfl
  · have hdollar : (c == '$' && cs.head? == some '{') = false := by simpa using hsub
    have hescaped : isEscaped c cs.head? = (c == '\\' || c == '\x60') := by
      rw [isEscaped, hdollar, Bool.or_false]
    rw [hescaped, escapeLiteral]
    rintro ds rfl rfl
    exact hsub ⟨rfl, rfl⟩

/-- Escaped markup starts as the markup does, unless it starts with a backslash. -/
theorem head?_escapeLiteral {cs : List Char} {d : Char} (hd : d ≠ '\\')
    (h : (escapeLiteral cs).head? = some d) : cs.head? = some d := by
  cases cs with
  | nil => cases h
  | cons c cs =>
    rw [escapeLiteral_cons] at h
    split at h
    · exact absurd (Option.some.inj h).symm hd
    · exact h

/-- The two cases in which a character of markup is written. -/
theorem escapeLiteral_cases (c : Char) (cs : List Char) :
    (IsEscapable c ∧ escapeLiteral (c :: cs) = '\\' :: c :: escapeLiteral cs) ∨
      (StandsPlain c (escapeLiteral cs) ∧ escapeLiteral (c :: cs) = c :: escapeLiteral cs) := by
  have hiff : isEscaped c cs.head? = true ↔
      c = '\\' ∨ c = '\x60' ∨ (c = '$' ∧ cs.head? = some '{') := by
    simp [isEscaped, or_assoc]
  rw [escapeLiteral_cons]
  by_cases hc : isEscaped c cs.head? = true
  · refine .inl ⟨?_, if_pos hc⟩
    rcases hiff.1 hc with h | h | h
    · exact .inl h
    · exact .inr (.inl h)
    · exact .inr (.inr h.1)
  · refine .inr ⟨?_, if_neg hc⟩
    rw [hiff, not_or, not_or, not_and] at hc
    obtain ⟨hslash, htick, hdollar⟩ := hc
    refine ⟨hslash, htick, ?_⟩
    intro h hhead
    exact hdollar h (head?_escapeLiteral (by decide) hhead)

/-- **Escaped markup is sealed.** -/
theorem sealed_escapeLiteral (markup : List Char) : Sealed (escapeLiteral markup) := by
  induction markup with
  | nil => exact Sealed.nil
  | cons c cs ih =>
    rcases escapeLiteral_cases c cs with ⟨hc, heq⟩ | ⟨hc, heq⟩
    · rw [heq]
      exact ih.escaped hc
    · rw [heq]
      exact ih.cons hc

/-! ### Where the literal ends -/

/-- A character that stands for itself belongs to the stretch that is read. -/
theorem templateBody_cons {c : Char} {cs : List Char} (hc : StandsPlain c cs) (acc : List Char) :
    templateBody acc (c :: cs) = templateBody (c :: acc) cs := by
  rw [templateBody]
  · intro d ds h
    exact absurd h hc.not_backslash
  · exact hc.not_backtick
  · rintro ds h rfl
    exact hc.not_substitution h rfl

theorem StandsPlain.append_backtick {c : Char} {cs : List Char} (hc : StandsPlain c cs)
    (rest : List Char) : StandsPlain c (cs ++ '\x60' :: rest) where
  not_backslash := hc.not_backslash
  not_backtick := hc.not_backtick
  not_substitution h := by
    cases cs with
    | nil => simp
    | cons d ds => exact hc.not_substitution h

/-- **The literal ends at the backtick behind the markup.** -/
theorem templateBody_escapeLiteral (markup acc rest : List Char) :
    templateBody acc (escapeLiteral markup ++ '\x60' :: rest)
      = some ((escapeLiteral markup).reverse ++ acc, true, rest) := by
  induction markup generalizing acc with
  | nil => rfl
  | cons c cs ih =>
    rcases escapeLiteral_cases c cs with ⟨hc, heq⟩ | ⟨hc, heq⟩
    · rw [heq, List.cons_append, List.cons_append, templateBody, ih]
      simp
    · rw [heq, List.cons_append, templateBody_cons (hc.append_backtick rest), ih]
      simp

/-! ### What the literal says -/

/-- No character is half of a pair. -/
theorem joinSurrogates_toNat (cs : List Char) :
    joinSurrogates (cs.map Char.toNat) = cs.map Char.toNat := by
  induction cs with
  | nil => rfl
  | cons c cs ih =>
    cases cs with
    | nil => rfl
    | cons d ds =>
      have hwhole : ¬ (0xD800 ≤ c.toNat ∧ c.toNat ≤ 0xDBFF) := by
        rcases c.valid with h | h
        · have : c.toNat < 0xD800 := h
          omega
        · have : 0xDFFF < c.toNat := h.1
          omega
      simp only [List.map_cons] at ih ⊢
      rw [joinSurrogates, if_neg, ih]
      simp only [Bool.and_eq_true, decide_eq_true_eq, not_and]
      omega

theorem cookFrom_cons {c : Char} (hc : c ≠ '\\') (template : Bool) (fuel : Nat) (cs : List Char) :
    cookFrom template (fuel + 1) (c :: cs)
      = (cookFrom template fuel cs).map (c.toNat :: ·) := by
  rw [cookFrom]
  · cases cookFrom template fuel cs <;> rfl
  · intro ds h
    exact absurd h hc
  · intro ds h
    exact absurd h hc
  · intro ds h
    exact absurd h hc
  · intro d ds h
    exact absurd h hc

theorem cookFrom_escaped {c : Char} (hc : IsEscapable c) (fuel : Nat) (cs : List Char) :
    cookFrom true (fuel + 1) ('\\' :: c :: cs) = (cookFrom true fuel cs).map (c.toNat :: ·) := by
  rcases hc with rfl | rfl | rfl <;> cases h : cookFrom true fuel cs <;>
    simp [cookFrom, h, isLineEnd, controlEscape?]

theorem cookFrom_escapeLiteral (markup : List Char) {fuel : Nat}
    (h : (escapeLiteral markup).length < fuel) :
    cookFrom true fuel (escapeLiteral markup) = some (markup.map Char.toNat) := by
  induction markup generalizing fuel with
  | nil =>
    cases fuel with
    | zero => simp at h
    | succ fuel => rfl
  | cons c cs ih =>
    cases fuel with
    | zero => simp at h
    | succ fuel =>
      rcases escapeLiteral_cases c cs with ⟨hc, heq⟩ | ⟨hc, heq⟩
      · rw [heq] at h ⊢
        rw [cookFrom_escaped hc, ih (by simp at h; omega)]
        rfl
      · rw [heq] at h ⊢
        rw [cookFrom_cons hc.not_backslash, ih (by simpa using h)]
        rfl

/-- The escapes of escaped markup stand for the characters of the markup. -/
theorem cook_escapeLiteral (markup : List Char) :
    cook true (escapeLiteral markup) = some (markup.map Char.toNat) := by
  rw [cook, cookFrom_escapeLiteral markup (Nat.lt_succ_self _), Option.map_some,
    joinSurrogates_toNat]

theorem plainLines_cons {c : Char} (hc : c ≠ '\r') (cs : List Char) :
    plainLines (c :: cs) = c :: plainLines cs := by
  rw [plainLines]
  · intro cs' h
    exact absurd h hc
  · exact hc

theorem plainLines_return {cs : List Char} (h : cs.head? ≠ some '\n') :
    plainLines ('\r' :: cs) = '\n' :: plainLines cs := by
  rw [plainLines]
  rintro cs' rfl
  exact h rfl

theorem isEscaped_plainLines (c : Char) (cs : List Char) :
    isEscaped c (plainLines cs).head? = isEscaped c cs.head? := by
  have hbrace : ((plainLines cs).head? == some '{') = (cs.head? == some '{') := by
    fun_cases plainLines cs <;> simp_all
  rw [isEscaped, hbrace, isEscaped]

/-- Escaping does not touch line ends. -/
theorem plainLines_escapeLiteral (markup : List Char) :
    plainLines (escapeLiteral markup) = escapeLiteral (plainLines markup) := by
  fun_induction plainLines markup with
  | case1 cs ih =>
    rw [escapeLiteral_cons, escapeLiteral_cons, escapeLiteral_cons, ← ih]
    rfl
  | case2 cs hcs ih =>
    have hhead : cs.head? ≠ some '\n' := by
      intro h
      obtain ⟨ds, hds⟩ := List.head?_eq_some_iff.1 h
      exact hcs ds hds
    show plainLines ('\r' :: escapeLiteral cs) = '\n' :: escapeLiteral (plainLines cs)
    rw [plainLines_return fun h => hhead (head?_escapeLiteral (by decide) h), ih]
  | case3 c cs hcs hc ih =>
    rw [escapeLiteral_cons, escapeLiteral_cons, isEscaped_plainLines]
    split
    · rw [plainLines_cons (by decide), plainLines_cons hc, ih]
    · rw [plainLines_cons hc, ih]
  | case4 => rfl

/-! ### The field as a property -/

/-- The state of reading at a token. -/
def Script.State.atToken (s : State) (t : Token) (here rest : List Char) (last : Nat) : State :=
  { s with token := t, here, rest, lastStop := last }

theorem advance_atToken {t : Token} {rest : List Char} {next : Scanned}
    (h : scan t.stop rest = .ok next) (s : State) (here : List Char) (last : Nat) :
    Parser.advance (s.atToken t here rest last)
      = .ok () (s.atToken next.token next.here next.rest t.stop) := by
  rw [State.atToken, Parser.advance, h]
  rfl

theorem eatSymbol_atToken {u : String} {i j : Nat} {newline : Bool} {rest : List Char}
    {next : Scanned} (h : scan j rest = .ok next) (s : State) (here : List Char) (last : Nat) :
    Parser.eatSymbol u (s.atToken ⟨.symbol u, i, j, newline⟩ here rest last)
      = .ok true (s.atToken next.token next.here next.rest j) := by
  have hat : Parser.atSymbol u (s.atToken ⟨.symbol u, i, j, newline⟩ here rest last)
      = .ok true (s.atToken ⟨.symbol u, i, j, newline⟩ here rest last) := by
    show EStateM.Result.ok (u == u) _ = _
    rw [beq_self_eq_true]
  rw [Parser.eatSymbol, bind_of_ok hat, if_pos rfl, bind_of_ok (advance_atToken h s here last)]
  rfl

/-- A template without substitutions in front of a comma is an expression: no other expression
starts with a template, and none goes on with a comma. -/
theorem assignment_template (rule : Rules) (s : State) (raw : String) (i j last : Nat)
    (newline : Bool) (here rest : List Char) :
    assignment rule true
        (s.atToken ⟨.template raw true true, i, j, newline⟩ here (',' :: rest) last)
      = .ok (.node .template ⟨i, j⟩ [.node (.templateText raw) ⟨i, j⟩ []])
        (s.atToken ⟨.symbol ",", j, j + 1, false⟩ (',' :: rest) rest j) := rfl

/-- The name of the field is the name of a property, and no word in front of one. -/
theorem objectMember_fieldName (depth : Nat) (s : State) (i last : Nat) (here cs : List Char) :
    objectMember (rulesAtDepth (depth + 1))
        (s.atToken ⟨.word "template" false, i, i + 8, false⟩ here (':' :: '\x60' :: cs) last)
      = (do
          if ← Parser.eatSymbol ":" then
            let value ← rulesAtDepth (depth + 1) (.assignment true)
            Parser.node (.property .value false) i [.node (.name "template") ⟨i, i + 8⟩ [], value]
          else
            let f ← methodFrom (rulesAtDepth (depth + 1)) .method false false
            Parser.node (.property .method false) i [.node (.name "template") ⟨i, i + 8⟩ [], f] :
          Parser Node)
        (s.atToken ⟨.symbol ":", i + 8, i + 9, false⟩ (':' :: '\x60' :: cs) ('\x60' :: cs)
          (i + 8)) := rfl

theorem scan_fieldName (offset : Nat) (cs : List Char) :
    scan offset (" template:\x60".toList ++ cs) = .ok {
      token := ⟨.word "template" false, offset + 1, offset + 9, false⟩
      here := "template:\x60".toList ++ cs
      rest := ':' :: '\x60' :: cs } := rfl

theorem scanLexeme_backtick (cs : List Char) :
    scanLexeme ('\x60' :: cs) = scanTemplate ('\x60' :: cs) := rfl

/-- The literal is one token. -/
theorem scan_literal (offset : Nat) (markup rest : List Char) :
    scan offset ('\x60' :: (escapeLiteral markup ++ '\x60' :: rest)) = .ok {
      token := ⟨.template (String.ofList (plainLines (escapeLiteral markup))) true true, offset,
        offset + (byteLength (escapeLiteral markup) + 2), false⟩
      here := '\x60' :: (escapeLiteral markup ++ '\x60' :: rest)
      rest } := by
  have hread : scanLexeme ('\x60' :: (escapeLiteral markup ++ '\x60' :: rest))
      = some (.template (String.ofList (plainLines (escapeLiteral markup))) true true,
          byteLength (escapeLiteral markup) + 2, rest) := by
    rw [scanLexeme_backtick, scanTemplate, templateBody_escapeLiteral]
    simp [cook_escapeLiteral]
  have hskip : skipTrivia .space offset false ('\x60' :: (escapeLiteral markup ++ '\x60' :: rest))
      = some (offset, false, '\x60' :: (escapeLiteral markup ++ '\x60' :: rest)) := rfl
  rw [scan, hskip]
  simp only [hread]

/-- The syntax of the field, from the offset of its name on. -/
def templateProperty (i : Nat) (markup : List Char) : Node :=
  let literal : Span := ⟨i + 9, i + 9 + (byteLength (escapeLiteral markup) + 2)⟩
  .node (.property .value false) ⟨i, literal.stop⟩
    [.node (.name "template") ⟨i, i + 8⟩ [],
     .node .template literal
      [.node (.templateText (String.ofList (plainLines (escapeLiteral markup)))) literal []]]

theorem templateField_append (markup rest : List Char) :
    templateField markup ++ rest
      = " template:\x60".toList ++ (escapeLiteral markup ++ '\x60' :: ',' :: rest) := by
  have hassoc : ∀ a b c d : List Char, a ++ b ++ c ++ d = a ++ (b ++ (c ++ d)) := by simp
  exact hassoc _ _ _ _

/-- **The field is one property**, and reading stops at its comma. -/
theorem objectMember_templateField (depth : Nat) (s : State) (t : Token)
    (markup here rest : List Char) (last : Nat) :
    (do Parser.advance; objectMember (rulesAtDepth (depth + 1)) : Parser Node)
        (s.atToken t here (templateField markup ++ rest) last)
      = let property := templateProperty (t.stop + 1) markup
        .ok property (s.atToken ⟨.symbol ",", property.span.stop, property.span.stop + 1, false⟩
          (',' :: rest) rest property.span.stop) := by
  have hvalue := scan_literal (t.stop + 1 + 9) markup (',' :: rest)
  have hread := assignment_template (rulesAtDepth depth) s
    (String.ofList (plainLines (escapeLiteral markup))) (t.stop + 1 + 9)
    (t.stop + 1 + 9 + (byteLength (escapeLiteral markup) + 2)) (t.stop + 1 + 9) false
    ('\x60' :: (escapeLiteral markup ++ '\x60' :: ',' :: rest)) rest
  rw [templateField_append, bind_of_ok (advance_atToken (scan_fieldName t.stop _) s here last),
    objectMember_fieldName, bind_of_ok (eatSymbol_atToken hvalue s _ _), if_pos rfl]
  exact bind_of_ok hread

/-! ### All together -/

/-- **Markup survives as a template literal.**  Escaped markup neither ends the literal nor starts a
substitution, leaves no backslash dangling and escapes nothing but the three marks; the literal ends
at the backtick behind it, whatever follows; and it says what the markup says, with line feeds for
all line ends.  So the field is read, from any state and in front of any text, as a single property
whose value is a literal without substitutions, up to the comma that ends the field. -/
theorem markup_survives_as_literal (markup rest : List Char) :
    Sealed (escapeLiteral markup) ∧
    templateBody [] (escapeLiteral markup ++ '\x60' :: rest)
      = some ((escapeLiteral markup).reverse, true, rest) ∧
    cook true (plainLines (escapeLiteral markup)) = some ((plainLines markup).map Char.toNat) ∧
    ∀ (depth : Nat) (s : State) (t : Token) (here : List Char) (last : Nat),
      let property := templateProperty (t.stop + 1) markup
      let comma : Token := ⟨.symbol ",", property.span.stop, property.span.stop + 1, false⟩
      (do Parser.advance; objectMember (rulesAtDepth (depth + 1)) : Parser Node)
          (s.atToken t here (templateField markup ++ rest) last)
        = .ok property (s.atToken comma (',' :: rest) rest property.span.stop) := by
  refine ⟨sealed_escapeLiteral markup, ?_, ?_, ?_⟩
  · have hread := templateBody_escapeLiteral markup [] rest
    rwa [List.append_nil] at hread
  · rw [plainLines_escapeLiteral, cook_escapeLiteral]
  · intro depth s t here last
    exact objectMember_templateField depth s t markup here rest last

/-- Runs of backslashes and dollar signs, and a return in front of a backtick. -/
example : escapeLiteral ['\\', '$', '{', '$', '$', '{', '$', '\\', '{', '\r', '\x60']
    = ['\\', '\\', '\\', '$', '{', '$', '\\', '$', '{', '$', '\\', '\\', '{', '\r', '\\',
      '\x60'] := by
  decide

end ComponentCompiler
