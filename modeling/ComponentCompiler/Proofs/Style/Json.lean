import ComponentCompiler.Proofs.Json.Record
import ComponentCompiler.Style.Json

/-!
# Saving and reloading stylesheets

A stylesheet that is written as a JSON text and read again comes back exactly if no body in it
holds a nested node.  A nested node has two members `type`, its own tag and the one that tells that
it is nested, and a reader that takes a member only once refuses it.  So reloading fails rather
than give another tree.

## Main definitions

* `Item.toJson` — an item as a value.
* `Stylesheet.HasBody`, `Stylesheet.Flat` — the bodies in a stylesheet, and that none of them holds
  a nested node.

## Main results

* `readItem_toJson`, `readItem_nested` — an item is read back unless it is a nested node.
* `readNode_toJson` — reading a node depends on the items of its body.
* `deserialize_serialize` — **saving and reloading**: a stylesheet is read back exactly if it is
  flat, reloading any other one fails, and no two trees are confused.
-/

namespace ComponentCompiler.Style

/-! ### Items -/

/-- An item as a value. -/
def Item.toJson : Item → Json
  | .declaration p v =>
      .ofMembers [typeMember "declaration", ("property", .ofText p), ("value", .ofText v)]
  | .nested n => .ofMembers (typeMember "nested" :: n.members)
  | .comment t => .ofMembers [typeMember "comment", ("text", .ofText t)]

theorem Item.toJsonAll_eq_map (is : List Item) : Item.toJsonAll is = is.map Item.toJson := by
  induction is with
  | nil => rfl
  | cons i is ih => cases i <;> simp [Item.toJsonAll, Item.toJson, ih]

theorem Node.exists_members (n : Node) : ∃ tag ms, n.members = typeMember tag :: ms := by
  cases n <;> exact ⟨_, _, rfl⟩

/-- A nested node cannot be read, at any depth. -/
theorem readItem_nested (depth : Nat) (n : Node) :
    readItem depth (Item.nested n).toJson = none := by
  cases depth with
  | zero => rfl
  | succ depth =>
    obtain ⟨tag, ms, hn⟩ := n.exists_members
    rw [readItem, Item.toJson, hn, typeMember, typeMember, Json.variant_two_types]
    rfl

/-- Any other item is read back. -/
theorem readItem_toJson (depth : Nat) {i : Item} (h : ∀ n, i ≠ .nested n) :
    readItem (depth + 1) i.toJson = some i := by
  cases i with
  | nested n => exact absurd rfl (h n)
  | declaration p v =>
    rw [readItem, Item.toJson, typeMember, Json.variant_ofMembers (i := 0) rfl true (by simp)]
    simp [Json.record_ofMembers, Record.required, Record.get?, Json.text_ofText]
  | comment t =>
    rw [readItem, Item.toJson, typeMember, Json.variant_ofMembers (i := 2) rfl true (by simp)]
    simp [Json.record_ofMembers, Record.required, Record.get?, Json.text_ofText]

theorem list_readItem (depth : Nat) {is : List Item} (h : ∀ n, .nested n ∉ is) :
    Json.list? (readItem (depth + 1)) (.array (Item.toJsonAll is)) = some is := by
  have hread : (is.map Item.toJson).mapM (readItem (depth + 1)) = some (is.map id) := by
    rw [List.mapM_map]
    exact mapM_eq_some_map fun i hi => readItem_toJson depth fun n hn => h n (hn ▸ hi)
  rw [Json.list?, Item.toJsonAll_eq_map, hread, List.map_id]

theorem list_readItem_eq_none (depth : Nat) {is : List Item} {n : Node} (h : .nested n ∈ is) :
    Json.list? (readItem depth) (.array (Item.toJsonAll is)) = none := by
  rw [Json.list?, Item.toJsonAll_eq_map]
  exact mapM_eq_none (List.mem_map_of_mem h) (readItem_nested depth n)

/-! ### Nodes -/

/-- The items of the block of a rule or a group. -/
def Node.body : Node → List Item
  | .rule _ body => body
  | .group _ _ body => body
  | _ => []

/-- A node with another body, if it has one. -/
def Node.withBody : Node → List Item → Node
  | .rule ss _, body => .rule ss body
  | .group name condition _, body => .group name condition body
  | n, _ => n

theorem Node.withBody_body (n : Node) : n.withBody n.body = n := by
  cases n <;> rfl

/-- Reading a node depends on the items of its body: all else is read back. -/
theorem readNode_toJson (read : Json → Option Item) (n : Node) :
    readNode read false n.toJson =
      (Json.list? read (.array (Item.toJsonAll n.body))).map n.withBody := by
  cases n with
  | rule ss body =>
    rw [readNode, Node.toJson, Node.members, typeMember,
      Json.variant_ofMembers (i := 0) rfl false (by simp)]
    simp [Json.record_ofMembers, Record.required, Record.get?, Json.texts_ofText, Node.body,
      Node.withBody, Option.map_eq_bind, Function.comp_def]
  | group name condition body =>
    rw [readNode, Node.toJson, Node.members, typeMember,
      Json.variant_ofMembers (i := 1) rfl false (by simp)]
    simp [Json.record_ofMembers, Record.required, Record.get?, Json.text_ofText, Node.body,
      Node.withBody, Option.map_eq_bind, Function.comp_def]
  | atRule name condition block =>
    rw [readNode, Node.toJson, Node.members, typeMember,
      Json.variant_ofMembers (i := 2) rfl false (by simp)]
    -- a node without a body is read whatever reads the items
    have hbody : Json.list? read (.array []) = some [] := rfl
    cases block <;>
      simp [Json.record_ofMembers, Record.required, Record.nullable, Record.get?, Json.ofText,
        Json.text?, Node.body, Node.withBody, Item.toJsonAll, hbody]
  | comment t =>
    rw [readNode, Node.toJson, Node.members, typeMember,
      Json.variant_ofMembers (i := 3) rfl false (by simp)]
    have hbody : Json.list? read (.array []) = some [] := rfl
    simp [Json.record_ofMembers, Record.required, Record.get?, Json.text_ofText, Node.body,
      Node.withBody, Item.toJsonAll, hbody]

section Textual

open Json

-- Tags, names and texts are strings, so only the items of a body are left to the induction.

mutual

theorem textual_members : ∀ n : Node, n.members.all (·.2.textual) = true
  | .rule ss body => by
      simpa [Node.members, typeMember, textual_ofText, textual_array] using textual_toJsonAll body
  | .group name condition body => by
      simpa [Node.members, typeMember, textual_ofText, textual_array] using textual_toJsonAll body
  | .atRule name condition none => rfl
  | .atRule name condition (some _) => rfl
  | .comment t => rfl

theorem textual_toJsonAll : ∀ is : List Item, ∀ e ∈ Item.toJsonAll is, e.textual
  | [], e, he => by cases he
  | .declaration p v :: is, e, he => by
      rcases List.mem_cons.mp he with rfl | he
      · rfl
      · exact textual_toJsonAll is e he
  | .nested n :: is, e, he => by
      rcases List.mem_cons.mp he with rfl | he
      · rw [textual_ofMembers, List.all_cons, textual_members n]
        rfl
      · exact textual_toJsonAll is e he
  | .comment t :: is, e, he => by
      rcases List.mem_cons.mp he with rfl | he
      · rfl
      · exact textual_toJsonAll is e he

end

theorem Node.textual_toJson (n : Node) : n.toJson.textual := by
  rw [Node.toJson, textual_ofMembers, textual_members]

theorem Stylesheet.textual_toJson (s : Stylesheet) : s.toJson.textual := by
  simp [Stylesheet.toJson, textual_ofMembers, textual_array, Node.textual_toJson]

end Textual

/-- Containers are nested three deep in a node without nested nodes: the node, its body and the
items. -/
theorem Node.depth_toJson_le {n : Node} (h : ∀ m, .nested m ∉ n.body) : n.toJson.depth ≤ 3 := by
  have hitem : ∀ e ∈ Item.toJsonAll n.body, e.depth ≤ 1 := by
    intro e he
    rw [Item.toJsonAll_eq_map] at he
    obtain ⟨i, hi, rfl⟩ := List.mem_map.mp he
    cases i with
    | nested m => exact absurd hi (h m)
    | declaration p v => exact Nat.le_refl 1
    | comment t => exact Nat.le_refl 1
  have hbody := Json.depth_array_le hitem
  have htexts (ss : List String) : (Json.array (ss.map Json.ofText)).depth ≤ 2 := by
    refine Nat.le_succ_of_le (Json.depth_array_le (n := 0) fun e he => ?_)
    obtain ⟨s, -, rfl⟩ := List.mem_map.mp he
    exact Nat.le_refl 0
  have htext (s : String) : (Json.ofText s).depth ≤ 2 := Nat.zero_le 2
  -- the node is a container itself, so its members may be two deep
  apply Json.depth_ofMembers_le
  cases n with
  | rule ss body => simpa [Node.members, typeMember, htext] using ⟨htexts ss, hbody⟩
  | group name condition body =>
    simpa [Node.members, typeMember, htext, Node.body] using hbody
  | atRule name condition block =>
    cases block <;> simp [Node.members, typeMember, htext, Json.depth]
  | comment t => simp [Node.members, typeMember, htext]

/-- A node whose body holds no nested node is read back. -/
theorem Node.ofJson_toJson {n : Node} (h : ∀ m, .nested m ∉ n.body) :
    Node.ofJson? n.toJson = some n := by
  have hdepth := Node.depth_toJson_le h
  have hguard : (n.toJson.readable && n.toJson.depth + 2 ≤ depthLimit) = true := by
    rw [Json.readable_of_textual n.textual_toJson, Bool.true_and, decide_eq_true_eq, depthLimit]
    omega
  obtain ⟨d, hd⟩ := Json.exists_depth_ofMembers n.members
  rw [Node.ofJson?, hguard, readNode_toJson, Node.toJson, hd, list_readItem d h, Option.map_some,
    Node.withBody_body]
  rfl

/-- A node whose body holds a nested node cannot be read. -/
theorem Node.ofJson_toJson_eq_none {n m : Node} (h : .nested m ∈ n.body) :
    Node.ofJson? n.toJson = none := by
  rw [Node.ofJson?, readNode_toJson, list_readItem_eq_none _ h]
  cases n.toJson.readable && n.toJson.depth + 2 ≤ depthLimit <;> rfl

/-! ### Stylesheets -/

/-- A body of a rule or a group somewhere in a stylesheet. -/
inductive Stylesheet.HasBody (s : Stylesheet) : List Item → Prop where
  /-- The body of a node at the top. -/
  | top {n : Node} (h : n ∈ s.rules) : s.HasBody n.body
  /-- The body of a node that is nested in another one. -/
  | nested {body : List Item} {n : Node} (hbody : s.HasBody body) (h : .nested n ∈ body) :
      s.HasBody n.body

/-- No body in the stylesheet holds a nested node. -/
def Stylesheet.Flat (s : Stylesheet) : Prop := ∀ body, s.HasBody body → ∀ n, .nested n ∉ body

/-- A node is nested in the body of a node at the top, or in no body. -/
theorem Stylesheet.flat_iff (s : Stylesheet) :
    s.Flat ↔ ∀ n ∈ s.rules, ∀ m, .nested m ∉ n.body := by
  refine ⟨fun h n hn => h n.body (.top hn), fun h body hbody => ?_⟩
  induction hbody with
  | top hn => exact h _ hn
  | nested hbody hn ih => exact absurd hn (ih _)

theorem Stylesheet.deserialize_serialize_eq (s : Stylesheet) :
    deserialize? s.serialize = ((s.rules.map Node.toJson).mapM Node.ofJson?).map Stylesheet.mk := by
  rw [deserialize?, serialize, Json.parse_text_print s.textual_toJson]
  simp [ofJson?, toJson, Json.record_ofMembers, Record.required, Record.get?, Json.list?,
    Option.map_eq_bind, Function.comp_def]

theorem Stylesheet.deserialize_of_flat {s : Stylesheet} (h : s.Flat) :
    deserialize? s.serialize = some s := by
  rw [flat_iff] at h
  have hread : (s.rules.map Node.toJson).mapM Node.ofJson? = some (s.rules.map id) := by
    rw [List.mapM_map]
    exact mapM_eq_some_map fun n hn => Node.ofJson_toJson (h n hn)
  rw [deserialize_serialize_eq, hread, List.map_id, Option.map_some]

theorem Stylesheet.deserialize_of_not_flat {s : Stylesheet} (h : ¬ s.Flat) :
    deserialize? s.serialize = none := by
  rw [flat_iff] at h
  obtain ⟨n, hn, m, hm⟩ : ∃ n ∈ s.rules, ∃ m, .nested m ∈ n.body := by simpa using h
  rw [deserialize_serialize_eq,
    mapM_eq_none (List.mem_map_of_mem hn) (Node.ofJson_toJson_eq_none hm), Option.map_none]

theorem Stylesheet.eq_of_deserialize {s t : Stylesheet} (h : deserialize? s.serialize = some t) :
    t = s ∧ s.Flat := by
  by_cases hs : s.Flat
  · rw [deserialize_of_flat hs, Option.some.injEq] at h
    exact ⟨h.symm, hs⟩
  · rw [deserialize_of_not_flat hs] at h
    cases h

/-- **Saving and reloading.**  A stylesheet is read back from its text exactly if no body in it
holds a nested node, and else it is not read at all.  So flat stylesheets have texts of their own,
and no tree comes back from the texts of two. -/
theorem deserialize_serialize (s : Stylesheet) :
    (Stylesheet.deserialize? s.serialize = some s ↔ s.Flat) ∧
      (¬ s.Flat → Stylesheet.deserialize? s.serialize = none) ∧
      (∀ t, s.Flat → s.serialize = t.serialize → s = t) ∧
      ∀ t u, Stylesheet.deserialize? s.serialize = some u →
        Stylesheet.deserialize? t.serialize = some u → s = t := by
  refine ⟨⟨fun h => (s.eq_of_deserialize h).2, s.deserialize_of_flat⟩, s.deserialize_of_not_flat,
    fun t hs hst => ?_, fun t u hs ht => ?_⟩
  · have ht := Stylesheet.deserialize_of_flat hs
    rw [hst] at ht
    exact (Stylesheet.eq_of_deserialize ht).1
  · exact (Stylesheet.eq_of_deserialize hs).1.symm.trans (Stylesheet.eq_of_deserialize ht).1

end ComponentCompiler.Style
