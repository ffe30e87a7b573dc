import ComponentCompiler.Registry

/-!
# Looking up keys

What a registry gives for a key, in terms of its entries: it is an entry with that key, no entry
has the key if nothing is given, and entries that came later do not hide earlier ones.  A key that
is new goes behind all others.

When entries are written one after the other, the last one with a key decides what is found under
it.

## Main definitions

* `LastOf` — the last element of a list with a property.
* `Registry.keys` — the keys, in the order in which they first came.
* `Registry.insertAll` — entries written one after the other.

## Main results

* `lookup_eq_none_iff`, `mem_of_lookup`, `lookup_of_mem` — lookups and entries.
* `lookup_append`, `put_of_lookup_eq_none` — entries that come later.
* `get?_insertAll_eq_some`, `mem_keys_insertAll`, `nodup_keys_insertAll` — what many writes leave.
-/

namespace ComponentCompiler

/-! ### The last element with a property -/

section LastOf

variable {α β : Type}

/-- `x` is the last element of a list with a property. -/
def LastOf (p : α → Prop) (xs : List α) (x : α) : Prop :=
  ∃ before after, xs = before ++ x :: after ∧ p x ∧ ∀ y ∈ after, ¬ p y

variable {p : α → Prop} {xs : List α} {x : α}

theorem LastOf.mem (h : LastOf p xs x) : x ∈ xs := by
  obtain ⟨before, after, rfl, -⟩ := h
  exact List.mem_append_right _ List.mem_cons_self

theorem LastOf.holds (h : LastOf p xs x) : p x := by
  obtain ⟨-, -, -, hx, -⟩ := h
  exact hx

theorem lastOf_congr {q : α → Prop} (h : ∀ y ∈ xs, (p y ↔ q y)) :
    LastOf p xs x ↔ LastOf q xs x := by
  have hstep : ∀ {p q : α → Prop}, (∀ y ∈ xs, (p y ↔ q y)) → LastOf p xs x → LastOf q xs x := by
    rintro p q h ⟨before, after, rfl, hx, hafter⟩
    refine ⟨before, after, rfl, (h x (by simp)).1 hx, fun y hy hq => hafter y hy ?_⟩
    exact (h y (by simp [hy])).2 hq
  exact ⟨hstep h, hstep fun y hy => (h y hy).symm⟩

theorem not_lastOf_nil : ¬ LastOf p [] x := fun h => absurd h.mem List.not_mem_nil

/-- What is behind the last element with a property does not matter. -/
theorem lastOf_append {ys : List α} :
    LastOf p (xs ++ ys) x ↔ LastOf p ys x ∨ (∀ y ∈ ys, ¬ p y) ∧ LastOf p xs x := by
  constructor
  · rintro ⟨before, after, heq, hx, hafter⟩
    rcases List.append_eq_append_iff.1 heq with ⟨cs, rfl, rfl⟩ | ⟨cs, rfl, hcs⟩
    · exact .inl ⟨cs, after, rfl, hx, hafter⟩
    · -- the element stands in front, or it is the first one of what follows
      cases cs with
      | nil => exact .inl ⟨[], after, hcs.symm, hx, hafter⟩
      | cons c cs =>
        obtain ⟨rfl, rfl⟩ := List.cons.inj hcs
        exact .inr ⟨fun y hy => hafter y (List.mem_append_right _ hy), before, cs, rfl, hx,
          fun y hy => hafter y (List.mem_append_left _ hy)⟩
  · rintro (⟨before, after, rfl, hx, hafter⟩ | ⟨hys, before, after, rfl, hx, hafter⟩)
    · exact ⟨xs ++ before, after, (List.append_assoc ..).symm, hx, hafter⟩
    · refine ⟨before, after ++ ys, List.append_assoc .., hx, fun y hy => ?_⟩
      rcases List.mem_append.1 hy with hy | hy
      · exact hafter y hy
      · exact hys y hy

theorem lastOf_singleton {y : α} : LastOf p [y] x ↔ p y ∧ x = y := by
  constructor
  · intro h
    obtain rfl := List.mem_singleton.1 h.mem
    exact ⟨h.holds, rfl⟩
  · rintro ⟨hy, rfl⟩
    exact ⟨[], [], rfl, hy, fun z hz => absurd hz List.not_mem_nil⟩

theorem lastOf_cons {y : α} :
    LastOf p (y :: xs) x ↔ LastOf p xs x ∨ (∀ z ∈ xs, ¬ p z) ∧ p y ∧ x = y := by
  rw [← List.singleton_append, lastOf_append, lastOf_singleton]

/-- If there is an element with a property, there is a last one. -/
theorem exists_lastOf_iff : (∃ x, LastOf p xs x) ↔ ∃ x ∈ xs, p x := by
  constructor
  · rintro ⟨x, h⟩
    exact ⟨x, h.mem, h.holds⟩
  · intro h
    induction xs with
    | nil => simp at h
    | cons y ys ih =>
      by_cases hys : ∃ x ∈ ys, p x
      · obtain ⟨x, hx⟩ := ih hys
        exact ⟨x, lastOf_cons.2 (.inl hx)⟩
      · obtain ⟨x, hmem, hx⟩ := h
        rcases List.mem_cons.1 hmem with rfl | hmem
        · exact ⟨x, [], ys, rfl, hx, fun z hz hpz => hys ⟨z, hz, hpz⟩⟩
        · exact absurd ⟨x, hmem, hx⟩ hys

theorem exists_mem_flatMap {f : α → List β} {q : β → Prop} :
    (∃ y ∈ xs.flatMap f, q y) ↔ ∃ x ∈ xs, ∃ y ∈ f x, q y := by
  simp only [List.mem_flatMap]
  constructor
  · rintro ⟨y, ⟨x, hx, hy⟩, hq⟩
    exact ⟨x, hx, y, hy, hq⟩
  · rintro ⟨x, hx, y, hy, hq⟩
    exact ⟨y, ⟨x, hx, hy⟩, hq⟩

/-- The last element with a property, of lists one behind the other, is the last one in the last
list that has one. -/
theorem lastOf_flatMap {f : α → List β} {q : β → Prop} {b : β} :
    LastOf q (xs.flatMap f) b ↔
      ∃ x, LastOf (fun x => ∃ y ∈ f x, q y) xs x ∧ LastOf q (f x) b := by
  induction xs with
  | nil =>
    refine iff_of_false not_lastOf_nil ?_
    rintro ⟨x, hx, -⟩
    exact not_lastOf_nil hx
  | cons z xs ih =>
    have hnone : (∀ y ∈ xs.flatMap f, ¬ q y) ↔ ∀ x ∈ xs, ¬ ∃ y ∈ f x, q y := by
      simpa only [not_exists, not_and] using not_congr exists_mem_flatMap
    rw [List.flatMap_cons, lastOf_append, ih, hnone]
    simp only [lastOf_cons]
    constructor
    · rintro (⟨x, hx, hb⟩ | ⟨hxs, hb⟩)
      · exact ⟨x, .inl hx, hb⟩
      · exact ⟨z, .inr ⟨hxs, ⟨b, hb.mem, hb.holds⟩, rfl⟩, hb⟩
    · rintro ⟨x, hx | ⟨hxs, -, rfl⟩, hb⟩
      · exact .inl ⟨x, hx, hb⟩
      · exact .inr ⟨hxs, hb⟩

theorem lastOf_map {f : α → β} {q : β → Prop} {b : β} :
    LastOf q (xs.map f) b ↔ ∃ x, LastOf (fun x => q (f x)) xs x ∧ f x = b := by
  induction xs with
  | nil =>
    refine iff_of_false not_lastOf_nil ?_
    rintro ⟨x, hx, -⟩
    exact not_lastOf_nil hx
  | cons z xs ih =>
    rw [List.map_cons, lastOf_cons, ih, List.forall_mem_map]
    simp only [lastOf_cons]
    grind

end LastOf

namespace Registry

variable {κ ν : Type}

/-- The keys, in the order in which they first came. -/
def keys (r : Registry κ ν) : List κ := r.entries.map Prod.fst

@[simp] theorem length_keys (r : Registry κ ν) : r.keys.length = r.size := List.length_map ..

variable [DecidableEq κ]

theorem lookup_eq_none_iff {k : κ} {es : List (κ × ν)} :
    lookup k es = none ↔ k ∉ es.map Prod.fst := by
  induction es with
  | nil => simp [lookup]
  | cons e es ih =>
    obtain ⟨k', v⟩ := e
    by_cases h : k = k'
    · simp [lookup, h]
    · simp [lookup, h, ih]

theorem mem_of_lookup {k : κ} {v : ν} {es : List (κ × ν)} (h : lookup k es = some v) :
    (k, v) ∈ es := by
  induction es with
  | nil => cases h
  | cons e es ih =>
    obtain ⟨k', v'⟩ := e
    rw [lookup] at h
    split at h
    · next hk =>
      cases h
      rw [hk]
      exact List.mem_cons_self
    · exact List.mem_cons_of_mem _ (ih h)

theorem lookup_of_mem {k : κ} {v : ν} {es : List (κ × ν)} (hes : (es.map Prod.fst).Nodup)
    (h : (k, v) ∈ es) : lookup k es = some v := by
  induction es with
  | nil => cases h
  | cons e es ih =>
    obtain ⟨hhead, htail⟩ := List.nodup_cons.1 hes
    rcases List.mem_cons.1 h with rfl | h
    · simp [lookup]
    · have hne : k ≠ e.1 := by
        rintro rfl
        exact hhead (List.mem_map.2 ⟨(e.1, v), h, rfl⟩)
      rw [lookup, if_neg hne, ih htail h]

theorem lookup_append (k : κ) (es fs : List (κ × ν)) :
    lookup k (es ++ fs) = (lookup k es).or (lookup k fs) := by
  induction es with
  | nil => rfl
  | cons e es ih =>
    rw [List.cons_append, lookup, lookup, ih]
    split <;> rfl

/-- A new key goes behind all others. -/
theorem put_of_lookup_eq_none {k : κ} {es : List (κ × ν)} (h : lookup k es = none) (v : ν) :
    put k v es = es ++ [(k, v)] := by
  induction es with
  | nil => rfl
  | cons e es ih =>
    rw [lookup] at h
    split at h
    · cases h
    · next hk => rw [put, if_neg hk, ih h, List.cons_append]

/-! ### Writing many entries -/

theorem keys_insert (r : Registry κ ν) (k : κ) (v : ν) :
    (r.insert k v).keys = if k ∈ r.keys then r.keys else r.keys ++ [k] := by
  obtain ⟨es⟩ := r
  show (put k v es).map Prod.fst = if k ∈ es.map Prod.fst then _ else _
  induction es with
  | nil => rfl
  | cons e es ih =>
    rw [put]
    by_cases hk : k = e.1
    · simp [keys, hk]
    · rw [if_neg hk, List.map_cons, ih]
      simp only [keys, List.map_cons, List.mem_cons, hk, false_or]
      split <;> rfl

/-- The registry with further entries, written one after the other. -/
def insertAll (r : Registry κ ν) (es : List (κ × ν)) : Registry κ ν :=
  es.foldl (fun r e => r.insert e.1 e.2) r

theorem insertAll_cons (r : Registry κ ν) (e : κ × ν) (es : List (κ × ν)) :
    r.insertAll (e :: es) = (r.insert e.1 e.2).insertAll es := rfl

theorem insertAll_append (r : Registry κ ν) (es fs : List (κ × ν)) :
    r.insertAll (es ++ fs) = (r.insertAll es).insertAll fs := List.foldl_append

/-- **The last entry with a key is the one that is found**, or else what was there before. -/
theorem get?_insertAll_eq_some (r : Registry κ ν) (es : List (κ × ν)) (k : κ) (v : ν) :
    (r.insertAll es).get? k = some v ↔
      LastOf (fun e => e.1 = k) es (k, v) ∨ (∀ e ∈ es, e.1 ≠ k) ∧ r.get? k = some v := by
  induction es generalizing r with
  | nil => simp [insertAll, not_lastOf_nil]
  | cons e es ih =>
    obtain ⟨k', v'⟩ := e
    rw [insertAll_cons, ih, get?_insert, lastOf_cons]
    by_cases hk : k = k'
    · subst hk
      simp [eq_comm]
    · simp [hk, Ne.symm hk]

/-- In an empty registry there is nothing but what is written. -/
theorem get?_insertAll_empty (es : List (κ × ν)) (k : κ) (v : ν) :
    (({} : Registry κ ν).insertAll es).get? k = some v ↔
      LastOf (fun e => e.1 = k) es (k, v) := by
  rw [get?_insertAll_eq_some]
  refine or_iff_left ?_
  rintro ⟨-, h⟩
  cases h

theorem get?_insertAll_empty_eq_none (es : List (κ × ν)) (k : κ) :
    (({} : Registry κ ν).insertAll es).get? k = none ↔ ¬ ∃ e ∈ es, e.1 = k := by
  rw [← exists_lastOf_iff, Option.eq_none_iff_forall_ne_some]
  constructor
  · rintro h ⟨⟨k', v⟩, hlast⟩
    obtain rfl : k' = k := hlast.holds
    exact h v ((get?_insertAll_empty es _ v).2 hlast)
  · intro h v hv
    exact h ⟨_, (get?_insertAll_empty es k v).1 hv⟩

theorem mem_keys_insertAll (r : Registry κ ν) (es : List (κ × ν)) (k : κ) :
    k ∈ (r.insertAll es).keys ↔ k ∈ r.keys ∨ ∃ e ∈ es, e.1 = k := by
  induction es generalizing r with
  | nil => simp [insertAll]
  | cons e es ih =>
    rw [insertAll_cons, ih, keys_insert]
    split <;> grind

theorem nodup_keys_insertAll {r : Registry κ ν} (h : r.keys.Nodup) (es : List (κ × ν)) :
    (r.insertAll es).keys.Nodup := by
  induction es generalizing r with
  | nil => exact h
  | cons e es ih =>
    refine ih ?_
    rw [keys_insert]
    split
    · exact h
    · next hk =>
      rw [List.nodup_append]
      grind

end Registry

end ComponentCompiler
