import ComponentCompiler.Component.ScopeRegistry
import ComponentCompiler.Proofs.Registry
import Mathlib.Data.Finset.Card

/-!
# Tokens of components that are compiled side by side

Compilations that share a registry may both look for the token of a component before either of them
gives one out.  A call is therefore taken apart into its two steps, and the calls take turns in any
order.  Whatever the order is, the registry holds the tokens 1, 2, … in the order in which the names
came, and every call that is finished has the token that is stored for its name.

The counter has an end: what is said here holds as long as there are fewer names than tokens.

## Main definitions

* `ScopeRegistry.Counts` — the invariant of a registry that serves some names.
* `Call`, `Calls` — calls in progress on one registry, with `Calls.turn` and `Calls.run`.

## Main results

* `Counts.allocate` — giving out a token keeps the invariant.
* `Calls.Served.run` — so does every run of calls.
* `assign_interleaved` — **tokens are stable, distinct and consecutive, in whatever order calls take
  their steps**.
-/

namespace ComponentCompiler

/-- Scopes with the same front are equal only if their tokens are. -/
theorem scopeString_inj {scopePrefix : String} {token token' : Nat}
    (h : scopeString scopePrefix token = scopeString scopePrefix token') : token = token' := by
  rw [scopeString, scopeString, String.append_right_inj, Nat.toString_eq_ofList_toDigits,
    Nat.toString_eq_ofList_toDigits, String.ofList_inj] at h
  have := congrArg (Nat.ofDigitChars 10 · 0) h
  simpa only [Nat.ofDigitChars_ten_toDigits] using this

namespace ScopeRegistry

variable {r r' : ScopeRegistry} {name other : String} {names : List String} {token token' : Nat}

/-! ### Giving out tokens -/

theorem allocate_of_some (h : r.get? name = some token) : r.allocate name = (token, r) := by
  simp only [allocate, h]

theorem allocate_of_none (h : r.get? name = none) :
    r.allocate name
      = (r.next, ⟨⟨r.tokens.entries ++ [(name, r.next)]⟩, (r.next + 1) % tokenCount⟩) := by
  simp only [allocate, h, Registry.insert]
  rw [Registry.put_of_lookup_eq_none h]

theorem get?_allocate (r : ScopeRegistry) (name other : String) :
    (r.allocate name).2.get? other
      = if other = name then some (r.allocate name).1 else r.get? other := by
  cases h : r.get? name with
  | some token =>
    rw [allocate_of_some h]
    split
    · next ho => rw [ho, h]
    · rfl
  | none =>
    simp only [allocate, h]
    exact Registry.get?_insert ..

theorem get?_allocate_self (r : ScopeRegistry) (name : String) :
    (r.allocate name).2.get? name = some (r.allocate name).1 := by
  rw [get?_allocate, if_pos rfl]

/-- Giving out a token adds to the entries and changes none of them. -/
theorem prefix_allocate (r : ScopeRegistry) (name : String) :
    r.tokens.entries <+: (r.allocate name).2.tokens.entries := by
  cases h : r.get? name with
  | some token => rw [allocate_of_some h]
  | none =>
    rw [allocate_of_none h]
    exact List.prefix_append _ _

theorem get?_of_extends (h : r.tokens.entries <+: r'.tokens.entries)
    (hr : r.get? name = some token) : r'.get? name = some token := by
  obtain ⟨es, hes⟩ := h
  rw [get?, Registry.get?, ← hes, Registry.lookup_append]
  rw [get?, Registry.get?] at hr
  rw [hr, Option.some_or]

/-! ### The invariant -/

/-- A registry that serves some names: no other name is stored, the tokens are 1, 2, … in the order
in which the names came, and the counter is one ahead. -/
structure Counts (names : List String) (r : ScopeRegistry) : Prop where
  /-- Every stored name is one of those served. -/
  known : ∀ name ∈ r.tokens.keys, name ∈ names
  /-- No name is stored twice. -/
  nodup : r.tokens.keys.Nodup
  /-- The tokens, in the order in which the names came. -/
  tokens : r.tokens.entries.map Prod.snd = List.range' 1 r.size
  /-- The token for the next name. -/
  next : r.next = r.size + 1

theorem counts_empty (names : List String) : Counts names {} where
  known := nofun
  nodup := List.nodup_nil
  tokens := rfl
  next := rfl

/-- **Giving out a token keeps the invariant**, as long as there are more tokens than names. -/
theorem Counts.allocate (h : r.Counts names) (hroom : names.toFinset.card < tokenCount - 1)
    (hname : name ∈ names) : (r.allocate name).2.Counts names := by
  cases hr : r.get? name with
  | some token =>
    rw [allocate_of_some hr]
    exact h
  | none =>
    have hkeys : (r.allocate name).2.tokens.keys = r.tokens.keys ++ [name] := by
      simp only [allocate_of_none hr, Registry.keys, List.map_append, List.map_cons, List.map_nil]
    have hsize : (r.allocate name).2.size = r.size + 1 := by
      rw [size, ← Registry.length_keys, hkeys, List.length_append, Registry.length_keys]
      rfl
    have hknown : ∀ other ∈ (r.allocate name).2.tokens.keys, other ∈ names := by
      intro other ho
      rw [hkeys, List.mem_append, List.mem_singleton] at ho
      rcases ho with ho | rfl
      · exact h.known other ho
      · exact hname
    have hnodup : (r.allocate name).2.tokens.keys.Nodup := by
      have hnew : name ∉ r.tokens.keys := Registry.lookup_eq_none_iff.1 hr
      rw [hkeys, List.nodup_append]
      refine ⟨h.nodup, List.nodup_singleton name, ?_⟩
      rintro a ha b hb rfl
      exact hnew (List.mem_singleton.1 hb ▸ ha)
    -- distinct stored names are at most as many as the names served, so the counter has room
    have hle : r.size + 1 ≤ names.toFinset.card := by
      rw [← hsize, size, ← Registry.length_keys, ← List.toFinset_card_of_nodup hnodup]
      refine Finset.card_le_card fun other ho => ?_
      rw [List.mem_toFinset] at ho ⊢
      exact hknown other ho
    refine ⟨hknown, hnodup, ?_, ?_⟩
    · rw [hsize, List.range'_concat, ← h.tokens, allocate_of_none hr]
      simp only [List.map_append, List.map_cons, List.map_nil, h.next, Nat.one_mul, Nat.add_comm]
    · rw [hsize, allocate_of_none hr]
      show (r.next + 1) % tokenCount = _
      rw [h.next, Nat.mod_eq_of_lt (by omega)]

/-- The stored tokens are exactly 1, …, n. -/
theorem Counts.exists_get?_iff (h : r.Counts names) :
    (∃ name, r.get? name = some token) ↔ 1 ≤ token ∧ token ≤ r.size := by
  have hmem : token ∈ r.tokens.entries.map Prod.snd ↔ 1 ≤ token ∧ token ≤ r.size := by
    rw [h.tokens, List.mem_range'_1]
    omega
  rw [← hmem, List.mem_map]
  constructor
  · rintro ⟨name, hr⟩
    exact ⟨(name, token), Registry.mem_of_lookup hr, rfl⟩
  · rintro ⟨⟨name, _⟩, hr, rfl⟩
    exact ⟨name, Registry.lookup_of_mem h.nodup hr⟩

/-- No two names have one token. -/
theorem Counts.get?_inj (h : r.Counts names) (hr : r.get? name = some token)
    (ho : r.get? other = some token) : name = other := by
  have hnodup : (r.tokens.entries.map Prod.snd).Nodup := by
    rw [h.tokens]
    exact List.nodup_range'
  have hentry : (name, token) = (other, token) :=
    List.inj_on_of_nodup_map hnodup (Registry.mem_of_lookup hr) (Registry.mem_of_lookup ho) rfl
  exact congrArg Prod.fst hentry

/-- A name that came later has a larger token. -/
theorem Counts.lt_of_later (h : r.Counts names) (h' : r'.Counts names)
    (hext : r.tokens.entries <+: r'.tokens.entries) (hr : r.get? name = some token)
    (hnew : r.get? other = none) (hr' : r'.get? other = some token') : token < token' := by
  have hle : token ≤ r.size := (h.exists_get?_iff.1 ⟨name, hr⟩).2
  have hpos : 1 ≤ token' := (h'.exists_get?_iff.1 ⟨other, hr'⟩).1
  by_contra hlt
  -- a token up to the size of the smaller registry has a name there, which keeps it
  obtain ⟨old, hold⟩ := h.exists_get?_iff.2 ⟨hpos, (show token' ≤ r.size by omega)⟩
  have heq : old = other := h'.get?_inj (get?_of_extends hext hold) hr'
  rw [heq, hnew] at hold
  cases hold

end ScopeRegistry

/-! ### Calls side by side -/

/-- A call for the token of a name, as far as it has come. -/
inductive Call where
  /-- The call has not looked yet. -/
  | start (name : String)
  /-- The call found no token. -/
  | missed (name : String)
  /-- The call is finished with a token. -/
  | done (name : String) (token : Nat)
  deriving DecidableEq, Repr

namespace Call

/-- The name that a call is for. -/
def name : Call → String
  | .start name => name
  | .missed name => name
  | .done name _ => name

/-- How many steps a call may still need. -/
def stepsLeft : Call → Nat
  | .start _ => 2
  | .missed _ => 1
  | .done _ _ => 0

/-- The next step of a call: it looks for the token, or gives one out. -/
def step (r : ScopeRegistry) : Call → Call × ScopeRegistry
  | .start name =>
      match r.get? name with
      | some token => (.done name token, r)
      | none => (.missed name, r)
  | .missed name => (.done name (r.allocate name).1, (r.allocate name).2)
  | .done name token => (.done name token, r)

/-- What a step can do: the registry stays, or the call's name gets its token; a call that is
finished then has the token that is stored. -/
theorem step_cases (r : ScopeRegistry) (call : Call) :
    (call.step r).1.name = call.name ∧
    (call.step r).1.stepsLeft ≤ call.stepsLeft - 1 ∧
    ((call.step r).2 = r ∨ (call.step r).2 = (r.allocate call.name).2) ∧
    ((call.step r).1 = call ∨ ∀ name token, (call.step r).1 = .done name token →
      (call.step r).2.get? name = some token) := by
  cases call with
  | start name =>
    cases h : r.get? name with
    | some token =>
      have hstep : (Call.start name).step r = (.done name token, r) := by simp only [step, h]
      rw [hstep]
      refine ⟨rfl, Nat.zero_le _, .inl rfl, .inr ?_⟩
      rintro _ _ ⟨⟩
      exact h
    | none =>
      have hstep : (Call.start name).step r = (.missed name, r) := by simp only [step, h]
      rw [hstep]
      exact ⟨rfl, Nat.le_refl _, .inl rfl, .inr nofun⟩
  | missed name =>
    refine ⟨rfl, Nat.le_refl _, .inr rfl, .inr ?_⟩
    rintro _ _ ⟨⟩
    exact r.get?_allocate_self name
  | done name token => exact ⟨rfl, Nat.le_refl _, .inl rfl, .inl rfl⟩

end Call

/-- Calls in progress on one registry. -/
structure Calls where
  /-- The registry. -/
  registry : ScopeRegistry
  /-- The calls, each as far as it has come. -/
  calls : List Call

namespace Calls

/-- One call for each of the given names, on an empty registry. -/
def ofNames (names : List String) : Calls := ⟨{}, names.map .start⟩

/-- Give one of the calls its turn. -/
def turn (s : Calls) (i : Nat) : Calls :=
  match s.calls[i]? with
  | none => s
  | some call => ⟨(call.step s.registry).2, s.calls.set i (call.step s.registry).1⟩

/-- Give turns in the order of a schedule. -/
def run (s : Calls) (schedule : List Nat) : Calls := schedule.foldl turn s

theorem run_append (s : Calls) (schedule later : List Nat) :
    s.run (schedule ++ later) = (s.run schedule).run later := List.foldl_append

/-- A call that is not interrupted does what `ScopeRegistry.assign` does. -/
theorem run_alone (r : ScopeRegistry) (name : String) :
    (Calls.mk r [.start name]).run [0, 0]
      = ⟨(r.assign name).2, [.done name (r.assign name).1]⟩ := by
  cases h : r.get? name with
  | some token => simp [run, turn, Call.step, ScopeRegistry.assign, h]
  | none => simp [run, turn, Call.step, ScopeRegistry.assign, h]

/-- The invariant of calls for some names. -/
structure Served (names : List String) (s : Calls) : Prop where
  /-- The registry serves the names. -/
  counts : s.registry.Counts names
  /-- The calls are for the names. -/
  names : s.calls.map Call.name = names
  /-- A finished call has the token that is stored for its name. -/
  done : ∀ name token, .done name token ∈ s.calls → s.registry.get? name = some token

variable {names : List String} {s : Calls}

theorem served_ofNames (names : List String) : (ofNames names).Served names where
  counts := ScopeRegistry.counts_empty names
  names := by rw [ofNames, List.map_map]; exact List.map_id' names
  done := by simp [ofNames]

theorem prefix_turn (s : Calls) (i : Nat) :
    s.registry.tokens.entries <+: (s.turn i).registry.tokens.entries := by
  unfold turn
  split
  · exact List.prefix_refl _
  · next call _ =>
    obtain ⟨-, -, hr | hr, -⟩ := call.step_cases s.registry
    · rw [hr]
    · rw [hr]
      exact s.registry.prefix_allocate call.name

theorem prefix_run (s : Calls) (schedule : List Nat) :
    s.registry.tokens.entries <+: (s.run schedule).registry.tokens.entries := by
  induction schedule generalizing s with
  | nil => exact List.prefix_refl _
  | cons i schedule ih => exact (s.prefix_turn i).trans (ih (s.turn i))

/-- One turn keeps the invariant. -/
theorem Served.turn (hroom : names.toFinset.card < tokenCount - 1) (h : s.Served names) (i : Nat) :
    (s.turn i).Served names := by
  have hext := s.prefix_turn i
  cases hi : s.calls[i]? with
  | none =>
    have hturn : s.turn i = s := by rw [Calls.turn, hi]
    rw [hturn]
    exact h
  | some call =>
    have hturn : s.turn i = ⟨(call.step s.registry).2, s.calls.set i (call.step s.registry).1⟩ := by
      rw [Calls.turn, hi]
    rw [hturn] at hext ⊢
    obtain ⟨hname, -, hr, hdone⟩ := call.step_cases s.registry
    have hcall : call ∈ s.calls := List.mem_of_getElem? hi
    have hmem : call.name ∈ names := h.names ▸ List.mem_map.2 ⟨call, hcall, rfl⟩
    refine ⟨?_, ?_, ?_⟩
    · rcases hr with hr | hr
      · rw [hr]
        exact h.counts
      · rw [hr]
        exact h.counts.allocate hroom hmem
    · show (s.calls.set i _).map Call.name = names
      obtain ⟨hlt, rfl⟩ := List.getElem?_eq_some_iff.1 hi
      rw [← h.names, List.map_set, hname, ← List.getElem_map Call.name, List.set_getElem_self]
      rwa [List.length_map]
    · -- a token that was given to an earlier call is still stored: entries only come to the end
      intro name token hmem
      rcases List.mem_or_eq_of_mem_set hmem with hold | hnew
      · exact ScopeRegistry.get?_of_extends hext (h.done name token hold)
      · rcases hdone with hsame | hdone
        · rw [hsame] at hnew
          exact ScopeRegistry.get?_of_extends hext (h.done name token (hnew ▸ hcall))
        · exact hdone name token hnew.symm

/-- Every run keeps the invariant. -/
theorem Served.run (hroom : names.toFinset.card < tokenCount - 1) (h : s.Served names)
    (schedule : List Nat) : (s.run schedule).Served names := by
  induction schedule generalizing s with
  | nil => exact h
  | cons i schedule ih => exact ih (h.turn hroom i)

/-! ### Every call comes to its end -/

theorem stepsLeft_turn {s : Calls} {j : Nat} {call : Call} (h : s.calls[j]? = some call) (i : Nat) :
    ∃ call', (s.turn i).calls[j]? = some call' ∧
      call'.stepsLeft ≤ call.stepsLeft - if i = j then 1 else 0 := by
  unfold turn
  split
  · next hi =>
    have hne : i ≠ j := by
      rintro rfl
      rw [h] at hi
      cases hi
    exact ⟨call, h, by rw [if_neg hne]; omega⟩
  · next other hi =>
    by_cases hij : i = j
    · subst hij
      obtain rfl : other = call := Option.some.inj (hi.symm.trans h)
      obtain ⟨-, hsteps, -, -⟩ := other.step_cases s.registry
      refine ⟨(other.step s.registry).1, ?_, by rw [if_pos rfl]; exact hsteps⟩
      exact List.getElem?_set_self (List.getElem?_eq_some_iff.1 h).1
    · refine ⟨call, ?_, by rw [if_neg hij]; omega⟩
      show (s.calls.set i _)[j]? = _
      rw [List.getElem?_set_ne hij, h]

theorem stepsLeft_run {s : Calls} {j : Nat} {call : Call} (h : s.calls[j]? = some call)
    (schedule : List Nat) :
    ∃ call', (s.run schedule).calls[j]? = some call' ∧
      call'.stepsLeft ≤ call.stepsLeft - schedule.count j := by
  induction schedule generalizing s call with
  | nil => exact ⟨call, h, Nat.le_refl _⟩
  | cons i schedule ih =>
    obtain ⟨call', h', hle'⟩ := stepsLeft_turn h i
    obtain ⟨call'', h'', hle''⟩ := ih h'
    refine ⟨call'', h'', ?_⟩
    rw [List.count_cons]
    simp only [beq_iff_eq]
    omega

/-- A call that had two turns is finished. -/
theorem Served.exists_done (hroom : names.toFinset.card < tokenCount - 1) {schedule : List Nat}
    {i : Nat} {name : String} (hi : names[i]? = some name) (hcount : 2 ≤ schedule.count i) :
    ∃ token, ((ofNames names).run schedule).calls[i]? = some (.done name token) := by
  have hstart : (ofNames names).calls[i]? = some (.start name) := by
    rw [ofNames, List.getElem?_map, hi]
    rfl
  obtain ⟨call, hcall, hle⟩ := stepsLeft_run hstart schedule
  have hname : call.name = name := by
    have := ((served_ofNames names).run hroom schedule).names
    rw [← this, List.getElem?_map, hcall] at hi
    exact Option.some.inj hi
  cases call with
  | start _ | missed _ =>
    simp only [Call.stepsLeft] at hle
    omega
  | done name' token => exact ⟨token, by rw [hcall, ← hname]; rfl⟩

end Calls

/-- **Tokens under interleaving.**  Calls for the tokens of any names take their steps in any order
on one registry.  At every point of such a run, `s`, and every later one, `s'`:
finished calls for one name have one token, and those for different names different ones; the
stored tokens are 1, …, n in the order in which the names came, each for one name, and the counter
stands at n + 1; what is stored stays; a name that comes later has a larger token; and scopes with
the same front are equal only for the same name.  A call that had two turns is finished, with the
token that is stored for its name; and two turns in a row are `ScopeRegistry.assign`. -/
theorem assign_interleaved {names : List String} (hnames : names.toFinset.card < tokenCount - 1)
    (schedule later : List Nat) (scopePrefix : String) :
    let s := (Calls.ofNames names).run schedule
    let s' := (Calls.ofNames names).run (schedule ++ later)
    (∀ name token token', .done name token ∈ s.calls → .done name token' ∈ s.calls →
      token = token') ∧
    (∀ name name' token token', .done name token ∈ s.calls → .done name' token' ∈ s.calls →
      name ≠ name' → token ≠ token') ∧
    s.registry.tokens.entries.map Prod.snd = List.range' 1 s.registry.size ∧
    (∀ token, (∃ name, s.registry.get? name = some token) ↔ 1 ≤ token ∧ token ≤ s.registry.size) ∧
    (∀ name name' token, s.registry.get? name = some token → s.registry.get? name' = some token →
      name = name') ∧
    s.registry.next = s.registry.size + 1 ∧
    (∀ name token, s.registry.get? name = some token → s'.registry.get? name = some token) ∧
    (∀ name name' token token', s.registry.get? name = some token → s.registry.get? name' = none →
      s'.registry.get? name' = some token' → token < token') ∧
    (∀ name name' token token', .done name token ∈ s.calls → .done name' token' ∈ s.calls →
      scopeString scopePrefix token = scopeString scopePrefix token' → name = name') ∧
    (∀ i name, names[i]? = some name → 2 ≤ schedule.count i →
      ∃ token, s.calls[i]? = some (.done name token) ∧ s.registry.get? name = some token) ∧
    (∀ (r : ScopeRegistry) name, (Calls.mk r [.start name]).run [0, 0]
      = ⟨(r.assign name).2, [.done name (r.assign name).1]⟩) := by
  intro s s'
  have hs : s.Served names := (Calls.served_ofNames names).run hnames schedule
  have hs' : s'.Served names := (Calls.served_ofNames names).run hnames (schedule ++ later)
  have hext : s.registry.tokens.entries <+: s'.registry.tokens.entries := by
    simp only [s', Calls.run_append]
    exact Calls.prefix_run s later
  refine ⟨?_, ?_, hs.counts.tokens, fun token => hs.counts.exists_get?_iff,
    fun name name' token => hs.counts.get?_inj, hs.counts.next, ?_, ?_, ?_, ?_, Calls.run_alone⟩
  · intro name token token' h h'
    exact Option.some.inj ((hs.done name token h).symm.trans (hs.done name token' h'))
  · rintro name name' token _ h h' hne rfl
    exact hne (hs.counts.get?_inj (hs.done name token h) (hs.done name' token h'))
  · intro name token h
    exact ScopeRegistry.get?_of_extends hext h
  · intro name name' token token' h hnew h'
    exact hs.counts.lt_of_later hs'.counts hext h hnew h'
  · intro name name' token token' h h' heq
    obtain rfl := scopeString_inj heq
    exact hs.counts.get?_inj (hs.done name token h) (hs.done name' token h')
  · intro i name hi hcount
    obtain ⟨token, hdone⟩ := Calls.Served.exists_done hnames hi hcount
    exact ⟨token, hdone, hs.done name token (List.mem_of_getElem? hdone)⟩

/-- Three calls all look before any of them gives out a token. -/
theorem assign_interleaved_threeMisses :
    ["a", "b", "a"].toFinset.card < tokenCount - 1 ∧
    ((Calls.ofNames ["a", "b", "a"]).run [0, 2, 1]).calls
      = [.missed "a", .missed "b", .missed "a"] ∧
    ((Calls.ofNames ["a", "b", "a"]).run [0, 2, 1, 1, 2, 0]).calls
      = [.done "a" 2, .done "b" 1, .done "a" 2] ∧
    ((Calls.ofNames ["a", "b", "a"]).run [0, 2, 1, 1, 2, 0]).registry.tokens.entries.map Prod.snd
      = List.range' 1 2 := by
  have hnames : ["a", "b", "a"].toFinset.card < tokenCount - 1 :=
    Nat.lt_of_le_of_lt (List.toFinset_card_le _) (by decide)
  obtain ⟨-, -, htokens, -⟩ := assign_interleaved hnames [0, 2, 1, 1, 2, 0] [] ""
  exact ⟨hnames, by decide, by decide, htokens⟩

end ComponentCompiler
