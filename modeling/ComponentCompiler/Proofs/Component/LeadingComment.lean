import ComponentCompiler.Proofs.Component.ScriptText
import ComponentCompiler.Proofs.Json.RoundTrip
import ComponentCompiler.Script.Lexer

/-!
# The comment in front of a binding

The statement with the render functions of a component stands behind a comment that names the
component.  A name may hold anything, the end of a comment included, and it is written as a JSON
string in which a slash behind a star gets a backslash.  So the comment goes on up to the end that
was written for it, and since JSON reads a slash behind a backslash as a slash, the name can be read
back from it.

## Main definitions

* `commentCloser` — the mark that ends a comment.
* `IsJsonString` — a text that is the JSON string of a name.
* `LeadsWith` — code that starts with a comment that names a component.

## Main results

* `not_commentCloser_infix_inComment` — a text in a comment does not end it.
* `Script.skipTrivia_block` — a comment is skipped up to its first end.
* `JsonToken.tokensFrom_inComment` — a JSON string stays what it is in a comment.
* `binding_comment_names_component` — **the comment is closed where it should be, and names the
  component**.
-/

namespace ComponentCompiler

open Compilation
open Text (byteLength)
open Script (skipTrivia)

/-! ### The end of a comment -/

/-- The mark that ends a comment. -/
def commentCloser : List Char := ['*', '/']

theorem commentCloser_infix_cons {c : Char} {cs : List Char} :
    commentCloser <:+: c :: cs ↔ (c = '*' ∧ cs.head? = some '/') ∨ commentCloser <:+: cs := by
  rw [List.infix_cons_iff]
  refine or_congr_left ?_
  cases cs <;> simp [commentCloser, List.cons_prefix_cons, eq_comm]

/-- A comment is skipped up to its first end.  The star of that end must not end the comment with
the text in front of it. -/
theorem Script.skipTrivia_block {text : List Char} (h : ¬ commentCloser <:+: text ++ ['*'])
    (rest : List Char) (n : Nat) (newline : Bool) :
    skipTrivia .block n newline (text ++ commentCloser ++ rest)
      = skipTrivia .space (n + byteLength text + 2) (newline || text.any isLineEnd) rest := by
  induction text generalizing n newline with
  | nil => simp [skipTrivia, commentCloser]
  | cons c text ih =>
    rw [List.cons_append, commentCloser_infix_cons, not_or] at h
    have hopen : ∀ ds, c = '*' → text ++ commentCloser ++ rest = '/' :: ds → False := by
      intro ds hc hslash
      apply h.1
      refine ⟨hc, ?_⟩
      cases text <;> simp_all [commentCloser]
    rw [List.cons_append, List.cons_append, skipTrivia, ih h.2]
    · simp [byteLength, Nat.add_assoc, Bool.or_assoc]
    · exact hopen

/-! ### A text in a comment -/

/-- A backslash comes in behind a star only, and only in front of a slash. -/
theorem inComment_cons (c : Char) (cs : List Char) :
    inComment (c :: cs)
      = c :: ((if c = '*' ∧ cs.head? = some '/' then ['\\'] else []) ++ inComment cs) := by
  by_cases hend : c = '*' ∧ cs.head? = some '/'
  · obtain ⟨rfl, hhead⟩ := hend
    obtain ⟨ds, rfl⟩ := List.head?_eq_some_iff.1 hhead
    simp [inComment]
  · rw [if_neg hend, List.nil_append, inComment]
    rintro ds rfl rfl
    exact hend ⟨rfl, rfl⟩

theorem head?_inComment (cs : List Char) : (inComment cs).head? = cs.head? := by
  cases cs with
  | nil => rfl
  | cons c cs =>
    rw [inComment_cons]
    rfl

theorem inComment_append {front : List Char} (h : '*' ∉ front) (cs : List Char) :
    inComment (front ++ cs) = front ++ inComment cs := by
  induction front with
  | nil => rfl
  | cons c front ih =>
    rw [List.mem_cons, not_or] at h
    rw [List.cons_append, inComment_cons, if_neg fun hend => h.1 hend.1.symm, ih h.2]
    rfl

theorem inComment_concat {c : Char} (hc : c ≠ '/') (cs : List Char) :
    inComment (cs ++ [c]) = inComment cs ++ [c] := by
  induction cs with
  | nil => simp [inComment]
  | cons d cs ih =>
    have hhead : (cs ++ [c]).head? = some '/' ↔ cs.head? = some '/' := by
      cases cs with
      | nil => simp [hc]
      | cons e cs => rfl
    rw [List.cons_append, inComment_cons, inComment_cons, ih]
    simp only [hhead, List.cons_append, List.append_assoc]

/-- **A text in a comment does not end it**, also not with what is behind it, unless that starts
with a slash. -/
theorem not_commentCloser_infix_inComment (cs : List Char) {rest : List Char}
    (hrest : ¬ commentCloser <:+: rest) (hhead : rest.head? ≠ some '/') :
    ¬ commentCloser <:+: inComment cs ++ rest := by
  induction cs with
  | nil => exact hrest
  | cons c cs ih =>
    rw [inComment_cons]
    by_cases hend : c = '*' ∧ cs.head? = some '/'
    · -- the backslash is no slash, and no star
      rw [if_pos hend, List.cons_append, commentCloser_infix_cons]
      simpa [commentCloser_infix_cons] using ih
    · rw [if_neg hend, List.nil_append, List.cons_append, commentCloser_infix_cons, not_or]
      refine ⟨?_, ih⟩
      rintro ⟨hc, hslash⟩
      rw [List.head?_append, head?_inComment] at hslash
      cases hcs : cs.head? with
      | none => exact hhead (by simpa [hcs] using hslash)
      | some d => exact hend ⟨hc, by simpa [hcs] using hslash⟩

/-! ### A JSON string in a comment -/

namespace JsonToken

/-- Only a star is written with a star. -/
theorem star_notMem_escapeChar {c : Char} (hc : c ≠ '*') : '*' ∉ escapeChar c := by
  rcases escapeChar_cases c with ⟨e, he, hofe⟩ | ⟨hlow, he⟩ | ⟨-, -, -, he⟩
  · have hstar : '*' ≠ e := by
      rintro rfl
      cases hofe
    simp [he, hstar]
  · have hhex : ∀ n < 0x20, '*' ≠ hexChar (n / 16) ∧ '*' ≠ hexChar n := by decide
    simp [he, hhex c.toNat hlow]
  · simpa [he] using hc.symm

/-- A slash may stand behind a backslash. -/
theorem tokensFrom_backslash_slash (r : List Nat) (cs : List Char) :
    tokensFrom (.string r) ('\\' :: '/' :: cs) = tokensFrom (.string r) ('/' :: cs) := by
  simp [tokensFrom, ofEscape?]

theorem tokensFrom_string_inComment (r : List Nat) (cs : List Char) :
    tokensFrom (.string r) (inComment (cs.flatMap escapeChar ++ ['"']))
      = tokensFrom (.string r) (cs.flatMap escapeChar ++ ['"']) := by
  induction cs generalizing r with
  | nil => rfl
  | cons c cs ih =>
    rw [List.flatMap_cons, List.append_assoc, tokensFrom_escapeChar]
    by_cases hc : c = '*'
    · subst hc
      have hstar : escapeChar '*' = ['*'] := rfl
      rw [hstar, List.singleton_append, inComment_cons, ← List.singleton_append, ← hstar,
        tokensFrom_escapeChar, ← ih]
      split
      · next hend =>
        -- a backslash came in, and the slash behind it is the next character
        obtain ⟨ds, hds⟩ := List.head?_eq_some_iff.1 ((head?_inComment _).trans hend.2)
        rw [hds, List.singleton_append, tokensFrom_backslash_slash]
      · rfl
    · rw [inComment_append (star_notMem_escapeChar hc), tokensFrom_escapeChar, ih]

/-- **A JSON string stays what it is in a comment.** -/
theorem tokensFrom_inComment (cs : List Char) :
    tokensFrom .between (inComment (quoted cs)) = tokensFrom .between (quoted cs) := by
  have h := tokensFrom_string_inComment [] cs
  rw [quoted, List.cons_append, inComment_cons]
  simpa [tokensFrom, isJsonBlank] using h

end JsonToken

/-- A text that is the JSON string of a name: a string from its first character to its last, which
stands for the name. -/
structure IsJsonString (text : List Char) (name : String) : Prop where
  /-- It starts with a quote. -/
  head : text.head? = some '"'
  /-- It ends with a quote. -/
  last : text.getLast? = some '"'
  /-- It is read as the name. -/
  value : Json.parse? (String.ofList text) = some (.string (some name))

theorem parse_of_tokensFrom {text : List Char} {name : String}
    (h : JsonToken.tokensFrom .between text = some [.string (some name)]) :
    Json.parse? (String.ofList text) = some (.string (some name)) := by
  rw [Json.parse?, String.toList_ofList, jsonTokens, h]
  rfl

theorem tokensFrom_componentText (name : String) :
    JsonToken.tokensFrom .between (componentText name) = some [.string (some name)] := by
  have h := JsonToken.tokensFrom_quoted name.toList []
  rw [List.append_nil, String.ofList_toList] at h
  exact h.trans rfl

theorem isJsonString_componentText (name : String) : IsJsonString (componentText name) name where
  head := rfl
  last := List.getLast?_concat
  value := parse_of_tokensFrom (tokensFrom_componentText name)

theorem isJsonString_inComment (name : String) :
    IsJsonString (inComment (componentText name)) name where
  head := head?_inComment _
  last := by
    rw [componentText, quoted, inComment_concat (by decide)]
    exact List.getLast?_concat
  value := by
    apply parse_of_tokensFrom
    rw [componentText, JsonToken.tokensFrom_inComment]
    exact tokensFrom_componentText name

/-! ### The binding -/

/-- The statement that binds the render functions, without its comment. -/
def bindingStatement (binding render : String) (statics : List String) : List Char :=
  "var ".toList ++ binding.toList ++ " = \x7b render: ".toList ++ render.toList ++
    ", staticRenderFns: [".toList ++ [','].intercalate (statics.map String.toList) ++
    "] \x7d;\n".toList

/-- Code that starts with a comment that holds a text and names a component, and goes on with a
statement. -/
structure LeadsWith (code text : List Char) (name : String) (statement : List Char) : Prop where
  /-- The comment stands in front, with a blank at both ends. -/
  shape : code = "/* ".toList ++ text ++ " */\n".toList ++ statement
  /-- The text does not end the comment. -/
  kept : ¬ commentCloser <:+: text
  /-- Nothing ends the comment before the end that was written for it. -/
  closed : ¬ commentCloser <:+: ' ' :: text ++ [' ', '*']
  /-- A reader of scripts skips the comment and its line, and has the statement before it. -/
  skipped : skipTrivia .space 0 false code
    = some (byteLength ("/* ".toList ++ text ++ " */\n".toList), true, statement)
  /-- The text names the component. -/
  named : IsJsonString text name

theorem bindingCode_eq (component : List Char) (binding render : String) (statics : List String) :
    bindingCode component binding render statics
      = "/* ".toList ++ inComment component ++ " */\n".toList ++
        bindingStatement binding render statics := by
  have hassoc : ∀ a b c₁ c₂ d e f g h i : List Char,
      a ++ b ++ (c₁ ++ c₂) ++ d ++ e ++ f ++ g ++ h ++ i
        = a ++ b ++ c₁ ++ (c₂ ++ d ++ e ++ f ++ g ++ h ++ i) := by simp
  exact hassoc _ _ " */\n".toList "var ".toList _ _ _ _ _ _

/-- A comment in front of a statement is skipped with its line. -/
theorem skipTrivia_leading {text : List Char} (h : ¬ commentCloser <:+: ' ' :: text ++ [' ', '*'])
    (statement : List Char) :
    skipTrivia .space 0 false ("/* ".toList ++ text ++ " */\n".toList ++ statement)
      = skipTrivia .space (byteLength ("/* ".toList ++ text ++ " */\n".toList)) true
          statement := by
  have hopen : ¬ commentCloser <:+: ' ' :: text ++ [' '] ++ ['*'] := by
    rwa [List.append_assoc]
  have hshape : ['/', '*', ' '] ++ text ++ [' ', '*', '/', '\n'] ++ statement
      = '/' :: '*' :: (' ' :: text ++ [' '] ++ commentCloser ++ '\n' :: statement) := by
    simp [commentCloser]
  have hbytes : byteLength (['/', '*', ' '] ++ text ++ [' ', '*', '/', '\n'])
      = 2 + byteLength (' ' :: text ++ [' ']) + 2 + 1 := by
    simp [byteLength, Char.utf8Size]
    omega
  show skipTrivia .space 0 false (['/', '*', ' '] ++ text ++ [' ', '*', '/', '\n'] ++ statement)
    = skipTrivia .space (byteLength (['/', '*', ' '] ++ text ++ [' ', '*', '/', '\n'])) true
        statement
  rw [hshape, hbytes]
  calc skipTrivia .space 0 false
        ('/' :: '*' :: (' ' :: text ++ [' '] ++ commentCloser ++ '\n' :: statement))
      = skipTrivia .block 2 false
          (' ' :: text ++ [' '] ++ commentCloser ++ '\n' :: statement) := rfl
    _ = _ := Script.skipTrivia_block hopen ('\n' :: statement) 2 false
    _ = _ := rfl

theorem leadsWith_bindingCode (name binding render : String) (statics : List String) :
    LeadsWith (bindingCode (componentText name) binding render statics)
      (inComment (componentText name)) name (bindingStatement binding render statics) := by
  have hblank : ¬ commentCloser <:+: [' ', '*'] := by decide
  have hclosed : ¬ commentCloser <:+: ' ' :: inComment (componentText name) ++ [' ', '*'] := by
    rw [List.cons_append, commentCloser_infix_cons, not_or]
    exact ⟨by simp, not_commentCloser_infix_inComment _ hblank (by decide)⟩
  refine ⟨bindingCode_eq _ _ _ _, ?_, hclosed, ?_, isJsonString_inComment name⟩
  · have hkept := not_commentCloser_infix_inComment (componentText name)
      (List.infix_nil.not.2 (by decide)) (by decide)
    rwa [List.append_nil] at hkept
  · rw [bindingCode_eq, skipTrivia_leading hclosed]
    rfl

/-- **The comment in front of a binding is closed where it should be, and names the component.**
When the binding of a component is made, it is a comment and a statement.  The text of the comment
does not end it, so that the comment goes on up to the end written for it and the statement is what
is left to read.  That text is a JSON string for the name, and so is the name in the module.  The
same functions are bound under any other name, so no name is in the way of its binding. -/
theorem binding_comment_names_component {c : Compiler} {name markup : String}
    {code : List Char} {m : TemplateModule} {s s' : CompileState}
    (h : c.renderBinding name markup s = .ok (code, m) s') :
    (∃ text, LeadsWith code text name
      (bindingStatement c.options.renderBinding m.render m.staticRenderFns)) ∧
    IsJsonString m.component.toList name ∧
    ∀ other, ∃ code' m', c.renderBinding other markup s = .ok (code', m') s' ∧
      m'.render = m.render ∧ m'.staticRenderFns = m.staticRenderFns := by
  obtain ⟨f, s₁, hf, h⟩ := bind_eq_ok.1 h
  obtain ⟨⟨render, statics⟩, s₂, hwork, h⟩ := bind_eq_ok.1 h
  cases h
  refine ⟨⟨_, leadsWith_bindingCode name _ render statics⟩, ?_, fun other => ?_⟩
  · rw [String.toList_ofList]
    exact isJsonString_componentText name
  · refine ⟨_, _, bind_eq_ok.2 ⟨f, s₁, hf, bind_eq_ok.2 ⟨(render, statics), s', hwork, rfl⟩⟩, rfl,
      rfl⟩

/-- A name with ends of comments, behind letters, quotes, backslashes and stars. -/
def closingName : String := "a*/\"*/\\*/**//\n"

theorem binding_comment_names_component_closing :
    ∃ code m s', echoCompiler.renderBinding closingName "x" {} = .ok (code, m) s' ∧
      (∃ text, LeadsWith code text closingName
        (bindingStatement "r" m.render m.staticRenderFns)) ∧
      IsJsonString m.component.toList closingName := by
  have hmade : ∃ code m s', echoCompiler.renderBinding closingName "x" {} = .ok (code, m) s' :=
    ⟨_, _, _, rfl⟩
  obtain ⟨code, m, s', h⟩ := hmade
  obtain ⟨hcomment, hmodule, -⟩ := binding_comment_names_component h
  exact ⟨code, m, s', h, hcomment, hmodule⟩

end ComponentCompiler
