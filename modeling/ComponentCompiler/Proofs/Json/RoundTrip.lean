import ComponentCompiler.Json.Printer
import ComponentCompiler.Json.Reader

/-!
# Reading back a printed value

The text of a value is cut into the tokens of that value, and reading these tokens gives the value
again.  Numbers are left out: a value is *textual* if it holds no number and every string in it
stands for a text.

## Main definitions

* `Json.textual` — values without numbers, whose strings are texts.
* `Json.tokens` — the tokens of a value.

## Main results

* `JsonToken.tokensFrom_quoted` — a quoted text is one token, and it stands for that text.
* `Json.tokensFrom_print` — the text of a textual value is cut into its tokens.
* `JsonReader.foldlM_tokens` — the tokens of a value are read as that value.
* `Json.parse_text_print` — a textual value is read back from its text.
-/

namespace ComponentCompiler

/-! ### Strings -/

namespace JsonToken

theorem hexUnit_hexChar : ∀ n < 0x20, hexUnit? '0' '0' (hexChar (n / 16)) (hexChar n) = some n := by
  decide

/-- The three ways a character is written: behind a backslash, by its code, or as it is. -/
theorem escapeChar_cases (c : Char) :
    (∃ e, escapeChar c = ['\\', e] ∧ ofEscape? e = some c) ∨
      (c.toNat < 0x20 ∧
        escapeChar c = ['\\', 'u', '0', '0', hexChar (c.toNat / 16), hexChar c.toNat]) ∨
      (c ≠ '"' ∧ c ≠ '\\' ∧ ¬ c.toNat < 0x20 ∧ escapeChar c = [c]) := by
  unfold escapeChar
  repeat' split
  case isFalse.isFalse.isFalse.isFalse.isFalse.isFalse.isFalse.isTrue h =>
    exact .inr (.inl ⟨h, rfl⟩)
  case isFalse.isFalse.isFalse.isFalse.isFalse.isFalse.isFalse.isFalse hquote hback _ _ _ _ _ h =>
    exact .inr (.inr ⟨by simpa using hquote, by simpa using hback, h, rfl⟩)
  all_goals
    next h =>
      obtain rfl := eq_of_beq h
      exact .inl ⟨_, rfl, rfl⟩

/-- A character of a text is read back from the way it is written. -/
theorem tokensFrom_escapeChar (r : List Nat) (c : Char) (cs : List Char) :
    tokensFrom (.string r) (escapeChar c ++ cs) = tokensFrom (.string (c.toNat :: r)) cs := by
  rcases escapeChar_cases c with ⟨e, he, hc⟩ | ⟨hlow, he⟩ | ⟨hquote, hback, hlow, he⟩
  · have hu : e ≠ 'u' := by rintro rfl; cases hc
    rw [he, List.cons_append, List.cons_append, List.nil_append, tokensFrom]
    · rw [hc]
    · rintro a b c' d cs' rfl -
      exact hu rfl
  · rw [he]
    simp only [List.cons_append, List.nil_append, tokensFrom, hexUnit_hexChar c.toNat hlow]
  · have hplain : (decide (c.toNat < 0x20) || c == '\\') = false := by
      rw [decide_eq_false hlow, beq_false_of_ne hback, Bool.or_false]
    rw [he, List.singleton_append, tokensFrom, if_neg (Bool.eq_false_iff.mp hplain)]
    · exact hquote
    · rintro - - - - - h -
      exact hback h
    · rintro - - h -
      exact hback h

theorem tokensFrom_string (r : List Nat) (cs rest : List Char) :
    tokensFrom (.string r) (cs.flatMap escapeChar ++ '"' :: rest) =
      push (some (.string ((textOf? (r.reverse ++ cs.map Char.toNat)).map String.ofList)))
        (tokensFrom .between rest) := by
  induction cs generalizing r with
  | nil => simp [tokensFrom]
  | cons c cs ih => simp [tokensFrom_escapeChar, ih]

/-- The code points of characters stand for them: no character is half of a pair. -/
theorem textOf_toNat (cs : List Char) : textOf? (cs.map Char.toNat) = some cs := by
  induction cs with
  | nil => rfl
  | cons c cs ih =>
    have hc : c.toNat.isValidChar := c.valid
    have hwhole : ¬ (0xD800 ≤ c.toNat ∧ c.toNat < 0xDC00) := by
      rcases hc with h | h <;> omega
    cases cs with
    | nil => exact dif_pos hc
    | cons d ds =>
      have hfirst : textOf? (c.toNat :: (d :: ds).map Char.toNat) =
          (textOf? ((d :: ds).map Char.toNat)).map (c :: ·) :=
        (if_neg (by simp [hwhole])).trans (dif_pos hc)
      rw [List.map_cons, hfirst, ih, Option.map_some]

/-- A quoted text is one token, and it stands for that text. -/
theorem tokensFrom_quoted (cs rest : List Char) :
    tokensFrom .between (quoted cs ++ rest) =
      push (some (.string (some (String.ofList cs)))) (tokensFrom .between rest) := by
  have h := tokensFrom_string [] cs rest
  rw [List.reverse_nil, List.nil_append, textOf_toNat] at h
  simpa [quoted, tokensFrom, isJsonBlank] using h

/-- What may stand behind a value: nothing, or a mark. -/
def EndsWord (rest : List Char) : Prop := ∀ c ∈ rest.head?, (ofMark? c).isSome

theorem endsWord_nil : EndsWord [] := by simp [EndsWord]

theorem endsWord_cons {c : Char} (h : (ofMark? c).isSome) (cs : List Char) :
    EndsWord (c :: cs) := by
  simpa [EndsWord] using h

/-- A mark is no blank and no quote. -/
theorem of_ofMark {c : Char} {t : JsonToken} (h : ofMark? c = some t) :
    isJsonBlank c = false ∧ c ≠ '"' := by
  unfold ofMark? at h
  split at h <;> simp_all [isJsonBlank]

theorem push_some (t : JsonToken) (ts : Option (List JsonToken)) :
    push (some t) ts = ts.map (t :: ·) := by
  cases ts <;> rfl

theorem tokensFrom_mark {c : Char} {t : JsonToken} (h : ofMark? c = some t) (rest : List Char) :
    tokensFrom .between (c :: rest) = (tokensFrom .between rest).map (t :: ·) := by
  obtain ⟨hblank, hquote⟩ := of_ofMark h
  simp [tokensFrom, hblank, hquote, h, push_some]

/-- A word goes up to the next mark. -/
theorem tokensFrom_word (r : List Char) {cs rest : List Char}
    (h : ∀ c ∈ cs, isJsonBlank c = false ∧ c ≠ '"' ∧ ofMark? c = none) (hrest : EndsWord rest) :
    tokensFrom (.word r) (cs ++ rest) =
      push (ofWord? (r.reverse ++ cs)) (tokensFrom .between rest) := by
  induction cs generalizing r with
  | nil =>
    cases rest with
    | nil => simp [tokensFrom]
    | cons c cs =>
      obtain ⟨t, ht⟩ := Option.isSome_iff_exists.mp (hrest c rfl)
      obtain ⟨hblank, hquote⟩ := of_ofMark ht
      rw [tokensFrom_mark ht]
      simp [tokensFrom, hblank, hquote, ht, push_some]
  | cons c cs ih =>
    obtain ⟨hblank, hquote, hmark⟩ := h c (by simp)
    have hcs := ih (c :: r) fun d hd => h d (by simp [hd])
    simpa [tokensFrom, hblank, hquote, hmark] using hcs

/-- A known word is one token. -/
theorem tokensFrom_known {c : Char} {cs : List Char} {t : JsonToken}
    (hword : ofWord? (c :: cs) = some t)
    (hchars : (c :: cs).all (fun d => !isJsonBlank d && d != '"' && (ofMark? d).isNone) = true)
    {rest : List Char} (hrest : EndsWord rest) :
    tokensFrom .between (c :: cs ++ rest) = (tokensFrom .between rest).map (t :: ·) := by
  have h : ∀ d ∈ c :: cs, isJsonBlank d = false ∧ d ≠ '"' ∧ ofMark? d = none := by
    simpa [and_assoc] using hchars
  obtain ⟨hblank, hquote, hmark⟩ := h c (by simp)
  have hcs := tokensFrom_word [c] (fun d hd => h d (List.mem_cons_of_mem c hd)) hrest
  rw [List.reverse_singleton, List.singleton_append, hword, push_some] at hcs
  simpa [tokensFrom, hblank, hquote, hmark] using hcs

end JsonToken

/-! ### Cutting a printed value into tokens -/

namespace Json

mutual

/-- Whether a value holds no number and every string in it stands for a text. -/
def textual : Json → Bool
  | .null => true
  | .bool _ => true
  | .number _ => false
  | .string s => s.isSome
  | .array es => textualAll es
  | .object ms => textualMembers ms

/-- Whether all elements of an array are textual. -/
def textualAll : List Json → Bool
  | [] => true
  | e :: es => e.textual && textualAll es

/-- Whether all members of an object, and their names, are textual. -/
def textualMembers : List (Option String × Json) → Bool
  | [] => true
  | (k, v) :: ms => k.isSome && v.textual && textualMembers ms

end

mutual

/-- The tokens of a value. -/
def tokens : Json → List JsonToken
  | .null => [.null]
  | .bool b => [.bool b]
  | .number n => [.number n]
  | .string s => [.string s]
  | .array es => .openArray :: elementTokens es ++ [.closeArray]
  | .object ms => .openObject :: memberTokens ms ++ [.closeObject]

/-- The tokens of the elements of an array. -/
def elementTokens : List Json → List JsonToken
  | [] => []
  | [e] => e.tokens
  | e :: es => e.tokens ++ .comma :: elementTokens es

/-- The tokens of the members of an object. -/
def memberTokens : List (Option String × Json) → List JsonToken
  | [] => []
  | [(k, v)] => .string k :: .colon :: v.tokens
  | (k, v) :: ms => .string k :: .colon :: v.tokens ++ .comma :: memberTokens ms

end

section Cutting

open JsonToken

theorem tokensFrom_printString {s : Option String} (h : s.isSome) (rest : List Char) :
    tokensFrom .between (printString s ++ rest) =
      (tokensFrom .between rest).map (.string s :: ·) := by
  obtain ⟨t, rfl⟩ := Option.isSome_iff_exists.mp h
  rw [printString, tokensFrom_quoted, push_some]
  simp

mutual

/-- The text of a textual value is cut into its tokens. -/
theorem tokensFrom_print : ∀ {v : Json}, v.textual → ∀ {rest : List Char}, EndsWord rest →
    tokensFrom .between (v.print ++ rest) = (tokensFrom .between rest).map (v.tokens ++ ·)
  | .null, _, _, hrest => tokensFrom_known rfl rfl hrest
  | .bool true, _, _, hrest => tokensFrom_known rfl rfl hrest
  | .bool false, _, _, hrest => tokensFrom_known rfl rfl hrest
  | .number _, h, _, _ => by simp [textual] at h
  | .string _, h, rest, _ => tokensFrom_printString h rest
  | .array es, h, rest, _ => by
      rw [textual] at h
      simp only [print, tokens, List.cons_append, List.append_assoc, List.nil_append]
      rw [tokensFrom_mark (t := .openArray) rfl, tokensFrom_printElements h,
        tokensFrom_mark (t := .closeArray) rfl]
      · simp [Function.comp_def]
      · exact endsWord_cons rfl _
  | .object ms, h, rest, _ => by
      rw [textual] at h
      simp only [print, tokens, List.cons_append, List.append_assoc, List.nil_append]
      rw [tokensFrom_mark (t := .openObject) rfl, tokensFrom_printMembers h,
        tokensFrom_mark (t := .closeObject) rfl]
      · simp [Function.comp_def]
      · exact endsWord_cons rfl _

theorem tokensFrom_printElements : ∀ {es : List Json}, textualAll es → ∀ {rest : List Char},
    EndsWord rest → tokensFrom .between (printElements es ++ rest) =
      (tokensFrom .between rest).map (elementTokens es ++ ·)
  | [], _, rest, _ => by simp [printElements, elementTokens]
  | [e], h, rest, hrest => by
      rw [textualAll, Bool.and_eq_true] at h
      exact tokensFrom_print h.1 hrest
  | e :: e' :: es, h, rest, hrest => by
      rw [textualAll, Bool.and_eq_true] at h
      rw [printElements, elementTokens, List.append_assoc, tokensFrom_print h.1,
        List.cons_append, tokensFrom_mark (t := .comma) rfl, tokensFrom_printElements h.2 hrest]
      · simp [Function.comp_def]
      · exact endsWord_cons rfl _
      all_goals simp

theorem tokensFrom_printMembers : ∀ {ms : List (Option String × Json)}, textualMembers ms →
    ∀ {rest : List Char}, EndsWord rest → tokensFrom .between (printMembers ms ++ rest) =
      (tokensFrom .between rest).map (memberTokens ms ++ ·)
  | [], _, rest, _ => by simp [printMembers, memberTokens]
  | [(k, v)], h, rest, hrest => by
      simp only [textualMembers, Bool.and_eq_true] at h
      rw [printMembers, memberTokens, List.append_assoc, tokensFrom_printString h.1.1,
        List.cons_append, tokensFrom_mark (t := .colon) rfl, tokensFrom_print h.1.2 hrest]
      simp [Function.comp_def]
  | (k, v) :: m :: ms, h, rest, hrest => by
      rw [textualMembers, Bool.and_eq_true, Bool.and_eq_true] at h
      simp only [printMembers, memberTokens, List.append_assoc, List.cons_append]
      rw [tokensFrom_printString h.1.1, tokensFrom_mark (t := .colon) rfl,
        tokensFrom_print h.1.2 (endsWord_cons rfl _), tokensFrom_mark (t := .comma) rfl,
        tokensFrom_printMembers h.2 hrest]
      simp [Function.comp_def]

end

end Cutting

end Json

/-! ### Reading the tokens of a value -/

namespace JsonReader

/-- The reader stands where a value may start. -/
def TakesValue (r : JsonReader) : Prop := r.expected = .value ∨ r.expected = .firstElement

theorem step_of_takesValue {r : JsonReader} (h : r.TakesValue) {t : JsonToken}
    (ht : t ≠ .closeArray) : r.step t = r.startValue t := by
  rcases h with h | h
  · simp [step, h]
  · unfold step
    rw [h]
    cases t <;> simp_all

theorem step_closeArray {e : Expected} (he : e = .firstElement ∨ e = .separator) (es : List Json)
    (r : JsonReader) :
    step ⟨.array es :: r.containers, e⟩ .closeArray = r.accept (.array es.reverse) := by
  rcases he with rfl | rfl <;> rfl

theorem step_closeObject {e : Expected} (he : e = .firstName ∨ e = .separator)
    (ms : List (Option String × Json)) (r : JsonReader) :
    step ⟨.object ms :: r.containers, e⟩ .closeObject = r.accept (.object ms.reverse) := by
  rcases he with rfl | rfl <;> rfl

theorem foldlM_name {e : Expected} (he : e = .firstName ∨ e = .name)
    (ms : List (Option String × Json)) (cs : List OpenContainer) (k : Option String)
    (ts : List JsonToken) :
    (.string k :: .colon :: ts).foldlM step ⟨.object ms :: cs, e⟩ =
      ts.foldlM step ⟨.member ms k :: cs, .value⟩ := by
  rcases he with rfl | rfl <;> rfl

mutual

/-- Reading the tokens of a value takes up that value. -/
theorem foldlM_tokens : ∀ (v : Json) {r : JsonReader}, r.TakesValue →
    v.tokens.foldlM step r = r.accept v
  | .null, r, h => by simp [Json.tokens, step_of_takesValue h, startValue]
  | .bool _, r, h => by simp [Json.tokens, step_of_takesValue h, startValue]
  | .number _, r, h => by simp [Json.tokens, step_of_takesValue h, startValue]
  | .string _, r, h => by simp [Json.tokens, step_of_takesValue h, startValue]
  | .array es, r, h => by
      obtain rfl | hne := Decidable.em (es = [])
      · have hclose := step_closeArray (.inl rfl) [] r
        simpa [Json.tokens, Json.elementTokens, step_of_takesValue h, startValue] using hclose
      · have hes := foldlM_elementTokens es hne [] r.containers (.inr rfl)
        have hclose := step_closeArray (.inr rfl) es.reverse r
        rw [List.append_nil] at hes
        simpa [Json.tokens, step_of_takesValue h, startValue, hes] using hclose
  | .object ms, r, h => by
      obtain rfl | hne := Decidable.em (ms = [])
      · have hclose := step_closeObject (.inl rfl) [] r
        simpa [Json.tokens, Json.memberTokens, step_of_takesValue h, startValue] using hclose
      · have hms := foldlM_memberTokens ms hne [] r.containers (.inl rfl)
        have hclose := step_closeObject (.inr rfl) ms.reverse r
        rw [List.append_nil] at hms
        simpa [Json.tokens, step_of_takesValue h, startValue, hms] using hclose

theorem foldlM_elementTokens : ∀ (es : List Json), es ≠ [] → ∀ (read : List Json)
    (cs : List OpenContainer) {x : Expected}, x = .value ∨ x = .firstElement →
    (Json.elementTokens es).foldlM step ⟨.array read :: cs, x⟩ =
      some ⟨.array (es.reverse ++ read) :: cs, .separator⟩
  | [], hne, _, _, _, _ => absurd rfl hne
  | [e], _, read, cs, x, hx => foldlM_tokens e (r := ⟨.array read :: cs, x⟩) hx
  | e :: e' :: es, _, read, cs, x, hx => by
      have he := foldlM_tokens e (r := ⟨.array read :: cs, x⟩) hx
      have hes := foldlM_elementTokens (e' :: es) (by simp) (e :: read) cs (.inl rfl)
      simpa [Json.elementTokens, he, accept, step, next] using hes

theorem foldlM_memberTokens : ∀ (ms : List (Option String × Json)), ms ≠ [] →
    ∀ (read : List (Option String × Json)) (cs : List OpenContainer) {x : Expected},
    x = .firstName ∨ x = .name →
    (Json.memberTokens ms).foldlM step ⟨.object read :: cs, x⟩ =
      some ⟨.object (ms.reverse ++ read) :: cs, .separator⟩
  | [], hne, _, _, _, _ => absurd rfl hne
  | [(k, v)], _, read, cs, x, hx => by
      have hv := foldlM_tokens v (r := ⟨.member read k :: cs, .value⟩) (.inl rfl)
      rw [Json.memberTokens, foldlM_name hx, hv]
      rfl
  | (k, v) :: m :: ms, _, read, cs, x, hx => by
      have hv := foldlM_tokens v (r := ⟨.member read k :: cs, .value⟩) (.inl rfl)
      have hms := foldlM_memberTokens (m :: ms) (by simp) ((k, v) :: read) cs (.inr rfl)
      rw [Json.memberTokens, List.cons_append, List.cons_append, foldlM_name hx,
        List.foldlM_append, hv]
      · simpa [accept, step, next] using hms
      · simp

end

end JsonReader

/-- A textual value is read back from its text. -/
theorem Json.parse_text_print {v : Json} (h : v.textual) :
    Json.parse? (String.ofList v.print) = some v := by
  have hcut := tokensFrom_print h JsonToken.endsWord_nil
  have hread := JsonReader.foldlM_tokens v (r := {}) (.inl rfl)
  rw [List.append_nil] at hcut
  simp [Json.parse?, Json.ofTokens?, jsonTokens, hcut, hread, JsonToken.tokensFrom,
    JsonReader.accept, JsonReader.finish]

end ComponentCompiler
