import ComponentCompiler.Json.Record
import ComponentCompiler.Proofs.Json.RoundTrip

/-!
# Objects as records and variants

What an object that lists its members once gives back when it is read as a record or as a variant,
and how deep such values are nested.

## Main results

* `Json.record_ofMembers` — an object is a record whose fields are its members.
* `Json.variant_ofMembers`, `Json.variant_two_types` — an object with one tag is a variant of that
  tag; an object with two tags is none.
* `Json.readable_of_textual` — textual values are readable.
-/

namespace ComponentCompiler

theorem mapM_eq_some_map {α β : Type} {f : α → Option β} {g : α → β} {xs : List α}
    (h : ∀ x ∈ xs, f x = some (g x)) : xs.mapM f = some (xs.map g) := by
  induction xs with
  | nil => rfl
  | cons x xs ih => simp [h x (by simp), ih fun y hy => h y (by simp [hy])]

theorem mapM_eq_none {α β : Type} {f : α → Option β} {xs : List α} {x : α} (hx : x ∈ xs)
    (h : f x = none) : xs.mapM f = none := by
  induction xs with
  | nil => cases hx
  | cons y ys ih =>
    rw [List.mapM_cons]
    rcases List.mem_cons.mp hx with rfl | hx
    · rw [h]; rfl
    · rw [ih hx]; cases f y <;> rfl

namespace Json

/-! ### Members -/

theorem filter_member_eq_nil {ms : List (String × Json)} {k : String} (h : k ∉ ms.map Prod.fst) :
    (ms.map fun (k, v) => (some k, v)).filter (·.1 == some k) = [] := by
  simp only [List.filter_map, List.map_eq_nil_iff, List.filter_eq_nil_iff, Function.comp_apply,
    beq_iff_eq, Option.some.injEq]
  rintro m hm rfl
  exact h (List.mem_map_of_mem hm)

theorem soleMember_of_nodup {ms : List (String × Json)} (h : (ms.map Prod.fst).Nodup)
    {m : String × Json} (hm : m ∈ ms) :
    soleMember? (ms.map fun (k, v) => (some k, v)) m.1 = some (some m.2) := by
  obtain ⟨before, after, rfl⟩ := List.append_of_mem hm
  simp only [List.map_append, List.map_cons, List.nodup_append, List.nodup_cons] at h
  have hbefore : m.1 ∉ before.map Prod.fst := fun hk => h.2.2 m.1 hk m.1 (by simp) rfl
  simp [soleMember?, filter_member_eq_nil hbefore, filter_member_eq_nil h.2.1.1]

/-- An object is a record whose fields are its members. -/
theorem record_ofMembers {fields : List String} {ms : List (String × Json)}
    (hfields : ms.map Prod.fst = fields) (h : fields.Nodup) :
    (ofMembers ms).record? fields = some ⟨false, ms.map (some ·.2)⟩ := by
  subst hfields
  have hread : (ms.map Prod.fst).mapM (soleMember? (ms.map fun (k, v) => (some k, v))) =
      some (ms.map (some ·.2)) := by
    rw [List.mapM_map]
    exact mapM_eq_some_map fun m hm => soleMember_of_nodup h hm
  have hnames : (guard ((ms.map fun (k, v) => (some k, v)).all (·.1.isSome) = true) :
      Option Unit) = some () := if_pos (by simp)
  rw [ofMembers, record?, hread, hnames]
  rfl

theorem text_ofText (s : String) : (ofText s).text? = some s := rfl

theorem texts_ofText (ss : List String) : texts? (.array (ss.map ofText)) = some ss := by
  have h : ss.mapM (text? ∘ ofText) = some (ss.map id) := mapM_eq_some_map fun s _ => rfl
  rwa [← List.mapM_map, List.map_id] at h

/-- An object with its tag in front is a variant of that tag. -/
theorem variant_ofMembers {tags : List String} {tag : String} {i : Nat}
    (htag : tags.findIdx? (· == tag) = some i) (numbered : Bool) {ms : List (String × Json)}
    (h : "type" ∉ ms.map Prod.fst) :
    (ofMembers (("type", ofText tag) :: ms)).variant? tags numbered = some (i, ofMembers ms) := by
  have hrest : (ms.map fun (k, v) => (some k, v)).filter (·.1 != some "type") =
      ms.map fun (k, v) => (some k, v) := by
    rw [List.filter_eq_self]
    intro m hm
    obtain ⟨m, hm', rfl⟩ := List.mem_map.mp hm
    have : m.1 ≠ "type" := fun hk => h (hk ▸ List.mem_map_of_mem hm')
    simpa using this
  have htag' : (ofText tag).tag? tags numbered = some i := htag
  simp [ofMembers, variant?, soleMember?, filter_member_eq_nil h, hrest, htag']

/-- An object with two tags is no variant. -/
theorem variant_two_types (tags : List String) (numbered : Bool) (tag tag' : String)
    (ms : List (String × Json)) :
    (ofMembers (("type", ofText tag) :: ("type", ofText tag') :: ms)).variant? tags numbered =
      none := by
  simp [ofMembers, variant?, soleMember?]

/-! ### Textual values -/

mutual

theorem readable_of_textual : ∀ {v : Json}, v.textual → v.readable
  | .null, _ => rfl
  | .bool _, _ => rfl
  | .number _, h => by simp [textual] at h
  | .string _, h => h
  | .array _, h => readableAll_of_textual h
  | .object _, h => readableMembers_of_textual h

theorem readableAll_of_textual : ∀ {es : List Json}, textualAll es → readableAll es
  | [], _ => rfl
  | e :: es, h => by
      rw [textualAll, Bool.and_eq_true] at h
      rw [readableAll, readable_of_textual h.1, readableAll_of_textual h.2, Bool.and_self]

theorem readableMembers_of_textual : ∀ {ms : List (Option String × Json)},
    textualMembers ms → readableMembers ms
  | [], _ => rfl
  | (k, v) :: ms, h => by
      rw [textualMembers, Bool.and_eq_true, Bool.and_eq_true] at h
      rw [readableMembers, h.1.1, readable_of_textual h.1.2, readableMembers_of_textual h.2,
        Bool.and_self, Bool.and_self]

end

theorem textual_array (es : List Json) : textual (.array es) = es.all textual := by
  rw [textual]
  induction es with
  | nil => rfl
  | cons e es ih => simp [textualAll, ih]

theorem textual_ofMembers (ms : List (String × Json)) :
    (ofMembers ms).textual = ms.all (·.2.textual) := by
  rw [ofMembers, textual]
  induction ms with
  | nil => rfl
  | cons m ms ih => simp [textualMembers, ih]

theorem textual_ofText (s : String) : (ofText s).textual = true := rfl

theorem depth_array_le {es : List Json} {n : Nat} (h : ∀ e ∈ es, e.depth ≤ n) :
    depth (.array es) ≤ n + 1 := by
  rw [depth, Nat.add_le_add_iff_right]
  induction es with
  | nil => simp [depthAll]
  | cons e es ih =>
    rw [depthAll]
    exact Nat.max_le.mpr ⟨h e (by simp), ih fun e' he' => h e' (by simp [he'])⟩

theorem exists_depth_ofMembers (ms : List (String × Json)) :
    ∃ d, (ofMembers ms).depth = d + 1 := ⟨_, by rw [ofMembers, depth]⟩

theorem depth_ofMembers_le {ms : List (String × Json)} {n : Nat} (h : ∀ m ∈ ms, m.2.depth ≤ n) :
    (ofMembers ms).depth ≤ n + 1 := by
  rw [ofMembers, depth, Nat.add_le_add_iff_right]
  induction ms with
  | nil => simp [depthMembers]
  | cons m ms ih =>
    rw [List.map_cons, depthMembers]
    exact Nat.max_le.mpr ⟨h m (by simp), ih fun m' hm' => h m' (by simp [hm'])⟩

end Json

end ComponentCompiler
