import ComponentCompiler.Text.Blank
import ComponentCompiler.Style.Error
import ComponentCompiler.Style.Piece

/-!
# Selectors

A selector is a row of components: simple ones (names, classes, ids, attributes), pseudo ones
(with a colon in front), and the combinators between them.  Scoping a selector adds an attribute
behind its last component that is not a pseudo one, so that it finds only elements which carry the
attribute.

Every reader here gives what it took and what is left, and the two together are what it was given.

## Main definitions

* `Component`, `components` — a selector taken apart.
* `scopePoint`, `scopeSelector` — where the attribute goes, and the selector with it.
-/

namespace ComponentCompiler.Style

open Text (isPlainBlank trim)

/-- What a component of a selector is. -/
inductive ComponentKind where
  /-- A name, a class, an id, an attribute and the like. -/
  | simple
  /-- A pseudo class or element, with its arguments. -/
  | pseudo
  /-- What joins two parts of a selector. -/
  | combinator
  deriving DecidableEq, Repr

/-- A component of a selector. -/
structure Component where
  /-- What it is. -/
  kind : ComponentKind
  /-- Its text. -/
  text : List Char
  deriving DecidableEq, Repr

/-- Why a component cannot be read. -/
inductive ComponentFault where
  /-- A bracket without its partner. -/
  | unbalanced (opening : Char)
  /-- A string that is never closed. -/
  | unterminatedString
  deriving DecidableEq, Repr

/-- The error for a fault in a selector. -/
def ComponentFault.toError (selector : String) : ComponentFault → SelectorError
  | .unbalanced c => .unbalanced c selector
  | .unterminatedString => .unterminatedString selector

/-- The characters of names. -/
def isIdentChar (c : Char) : Bool :=
  c.isAlphanum || c == '-' || c == '_' || 0x80 ≤ c.toNat

/-- What a reader took, and what is left. -/
structure Taken where
  /-- The text that was taken. -/
  text : List Char
  /-- The text that is left. -/
  rest : List Char
  deriving DecidableEq, Repr

/-- What was taken, when `cs` was taken before. -/
def Taken.after (cs : List Char) (t : Taken) : Taken := ⟨cs ++ t.text, t.rest⟩

/-- What was taken, together with what is left. -/
def Taken.all (t : Taken) : List Char := t.text ++ t.rest

@[simp] theorem Taken.all_mk (cs r : List Char) : (Taken.mk cs r).all = cs ++ r := rfl

@[simp] theorem Taken.all_after (cs : List Char) (t : Taken) : (t.after cs).all = cs ++ t.all := by
  simp [after, all]

/-- Take a name: with characters behind backslashes, and with single bars. -/
def takeIdent : List Char → Taken
  | [] => ⟨[], []⟩
  | ['\\'] => ⟨['\\'], []⟩
  | '\\' :: c :: cs => (takeIdent cs).after ['\\', c]
  | '|' :: '|' :: cs => ⟨[], '|' :: '|' :: cs⟩
  | c :: cs => if c == '|' || isIdentChar c then (takeIdent cs).after [c] else ⟨[], c :: cs⟩

/-- Take blanks, and one symbol among them if `symbol` holds. -/
def takeCombinator (symbol : Bool) : List Char → Taken
  | [] => ⟨[], []⟩
  | '|' :: '|' :: cs =>
      if symbol then (takeCombinator false cs).after ['|', '|'] else ⟨[], '|' :: '|' :: cs⟩
  | c :: cs =>
      if isPlainBlank c then (takeCombinator symbol cs).after [c]
      else if symbol && (c == '>' || c == '+' || c == '~') then
        (takeCombinator false cs).after [c]
      else ⟨[], c :: cs⟩

/-- Take the rest of a string, with its closing quote. -/
def takeString (quote : Char) : List Char → Except ComponentFault Taken
  | '\\' :: c :: cs => (takeString quote cs).map (.after ['\\', c])
  | c :: cs => if c == quote then .ok ⟨[c], cs⟩ else (takeString quote cs).map (.after [c])
  | [] => .error .unterminatedString

/-- Take the rest of a group, with its closing bracket.  Only brackets of its own kind count, and
none in a string or behind a backslash.  `quote` is the string that reading stands in, and `depth`
the number of further groups that are open. -/
def takeGroup (opening closing : Char) (quote : Option Char) (depth : Nat) :
    List Char → Except ComponentFault Taken
  | '\\' :: c :: cs => (takeGroup opening closing quote depth cs).map (.after ['\\', c])
  | c :: cs =>
      match quote with
      | some q =>
          (takeGroup opening closing (if c == q then none else some q) depth cs).map (.after [c])
      | none =>
          if isQuote c then (takeGroup opening closing (some c) depth cs).map (.after [c])
          else if c == opening then
            (takeGroup opening closing none (depth + 1) cs).map (.after [c])
          else if c == closing then
            match depth with
            | 0 => .ok ⟨[c], cs⟩
            | d + 1 => (takeGroup opening closing none d cs).map (.after [c])
          else (takeGroup opening closing none depth cs).map (.after [c])
  | [] => .error (if quote.isSome then .unterminatedString else .unbalanced opening)

/-- Take the group that stands next, if one in round brackets does. -/
def takeArguments : List Char → Except ComponentFault Taken
  | '(' :: cs => (takeGroup '(' ')' none 0 cs).map (.after ['('])
  | cs => .ok ⟨[], cs⟩

/-- Take a name and the arguments behind it. -/
def takeCall (cs : List Char) : Except ComponentFault Taken :=
  (takeArguments (takeIdent cs).rest).map (.after (takeIdent cs).text)

/-- Take a pseudo component behind its first colon. -/
def takePseudo : List Char → Except ComponentFault Taken
  | ':' :: cs => (takeCall cs).map (.after [':'])
  | cs => takeCall cs

/-- Take the rest of a component whose first character may be part of a name. -/
def takeName (c : Char) (cs : List Char) : Taken :=
  match c, cs with
  | '\\', d :: cs => (takeIdent cs).after [d]
  | '\\', [] => ⟨[], []⟩
  | c, cs => if c == '|' || isIdentChar c then takeIdent cs else ⟨[], cs⟩

/-- Take the rest of a combinator behind its first character. -/
def takeJoin (c : Char) (cs : List Char) : Taken :=
  match c, cs with
  | '|', d :: cs => (takeCombinator false cs).after [d]
  | c, cs => takeCombinator (isPlainBlank c) cs

/-- Whether a combinator starts at a character before a given rest. -/
def startsCombinator (c : Char) (rest : List Char) : Bool :=
  isPlainBlank c || c == '>' || c == '+' || c == '~' || (c == '|' && rest.head? == some '|')

/-- Take the component that starts with a character: its kind, and the rest of its text. -/
def takeComponent (c : Char) (cs : List Char) : ComponentKind × Except ComponentFault Taken :=
  if startsCombinator c cs then (.combinator, .ok (takeJoin c cs))
  else if c == '[' then (.simple, takeGroup '[' ']' none 0 cs)
  else if c == '(' then (.simple, takeGroup '(' ')' none 0 cs)
  else if c == ')' then (.simple, .error (.unbalanced '('))
  else if c == ']' then (.simple, .error (.unbalanced '['))
  else if isQuote c then (.simple, takeString c cs)
  else if c == ':' then (.pseudo, takePseudo cs)
  else if c == '.' || c == '#' then (.simple, .ok (takeIdent cs))
  else if c == '*' || c == '&' then (.simple, .ok ⟨[], cs⟩)
  else (.simple, .ok (takeName c cs))

/-! ### Nothing is lost -/

@[simp] theorem all_takeIdent (cs : List Char) : (takeIdent cs).all = cs := by
  fun_induction takeIdent cs <;> simp_all

@[simp] theorem all_takeCombinator (b : Bool) (cs : List Char) :
    (takeCombinator b cs).all = cs := by
  fun_induction takeCombinator b cs <;> simp_all

@[simp] theorem all_takeName (c : Char) (cs : List Char) : (takeName c cs).all = cs := by
  unfold takeName
  split
  · simp
  · simp
  · split <;> simp

@[simp] theorem all_takeJoin (c : Char) (cs : List Char) : (takeJoin c cs).all = cs := by
  unfold takeJoin
  split <;> simp

theorem all_of_map_after {x : Except ComponentFault Taken} {t : Taken} {cs ds : List Char}
    (h : x.map (.after cs) = .ok t) (hx : ∀ u, x = .ok u → u.all = ds) : t.all = cs ++ ds := by
  cases x with
  | error e => cases h
  | ok u =>
    obtain rfl : u.after cs = t := by simpa [Except.map] using h
    simp [hx u rfl]

theorem all_of_takeString {q : Char} {cs : List Char} {t : Taken} (h : takeString q cs = .ok t) :
    t.all = cs := by
  fun_induction takeString q cs generalizing t with
  | case1 c cs ih => exact all_of_map_after h fun _ => ih
  | case2 c cs =>
    obtain rfl : Taken.mk [c] cs = t := by simpa using h
    rfl
  | case3 c cs _ _ ih => exact all_of_map_after h fun _ => ih
  | case4 => cases h

theorem all_of_takeGroup {o c : Char} {q : Option Char} {d : Nat} {cs : List Char} {t : Taken}
    (h : takeGroup o c q d cs = .ok t) : t.all = cs := by
  fun_induction takeGroup o c q d cs generalizing t with
  | case5 =>
    obtain rfl := Except.ok.inj h
    rfl
  | case8 => cases h
  | _ => exact all_of_map_after h fun _ ih => by simp_all

theorem all_of_takeArguments {cs : List Char} {t : Taken} (h : takeArguments cs = .ok t) :
    t.all = cs := by
  unfold takeArguments at h
  split at h
  · exact all_of_map_after h fun _ => all_of_takeGroup
  · obtain rfl := Except.ok.inj h
    rfl

theorem all_of_takeCall {cs : List Char} {t : Taken} (h : takeCall cs = .ok t) : t.all = cs := by
  have := all_of_map_after h fun _ => all_of_takeArguments
  rw [this]
  exact all_takeIdent cs

theorem all_of_takePseudo {cs : List Char} {t : Taken} (h : takePseudo cs = .ok t) :
    t.all = cs := by
  unfold takePseudo at h
  split at h
  · exact all_of_map_after h fun _ => all_of_takeCall
  · exact all_of_takeCall h

/-- What a component takes and what it leaves are what stood there. -/
theorem all_of_takeComponent {c : Char} {cs : List Char} {t : Taken}
    (h : (takeComponent c cs).2 = .ok t) : t.all = cs := by
  unfold takeComponent at h
  repeat' split at h
  · obtain rfl := Except.ok.inj h; simp
  · exact all_of_takeGroup h
  · exact all_of_takeGroup h
  · cases h
  · cases h
  · exact all_of_takeString h
  · exact all_of_takePseudo h
  · obtain rfl := Except.ok.inj h; simp
  · obtain rfl := Except.ok.inj h; simp
  · obtain rfl := Except.ok.inj h; simp

theorem Taken.length_rest_le (t : Taken) : t.rest.length ≤ t.all.length := by
  simp [all]

/-! ### Components -/

/-- A selector taken apart. -/
def components : List Char → Except ComponentFault (List Component)
  | [] => .ok []
  | c :: cs =>
      match h : (takeComponent c cs).2 with
      | .error e => .error e
      | .ok t =>
          have : t.rest.length < (c :: cs).length := by
            have := t.length_rest_le
            rw [all_of_takeComponent h] at this
            exact Nat.lt_succ_of_le this
          (components t.rest).map (⟨(takeComponent c cs).1, c :: t.text⟩ :: ·)
termination_by cs => cs.length
decreasing_by exact this

/-- The components of a selector, or why it has none. -/
def tokenize (selector : String) : Except SelectorError (List Component) :=
  (components selector.toList).mapError (·.toError selector)

/-- The text of components, one after the other. -/
def Component.textAll (cs : List Component) : List Char := cs.flatMap (·.text)

/-- The number of components in front of the place where a scope goes: behind the last one that is
not a pseudo component. -/
def scopePoint (cs : List Component) : Nat :=
  (cs.reverse.dropWhile (·.kind = .pseudo)).length

/-- The attribute that stands for a scope. -/
def scopeAttribute (scope : String) : List Char := '[' :: scope.toList ++ [']']

/-- The text of components with the attribute of a scope among them. -/
def withScope (scope : String) (cs : List Component) : List Char :=
  Component.textAll (cs.take (scopePoint cs)) ++ scopeAttribute scope ++
    Component.textAll (cs.drop (scopePoint cs))

/-- A selector that finds only elements which carry the attribute of a scope. -/
def scopeSelector (scope selector : String) : Except SelectorError String :=
  match trim selector.toList with
  | [] => .error .empty
  | cs => (tokenize (String.ofList cs)).map fun components =>
      String.ofList (withScope scope components)

end ComponentCompiler.Style
