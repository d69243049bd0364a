import ExampleOverlay.Proofs.Store.Lists

/-!
# What the rows of a store say

`Store.bare?` gives what a stored row says, its place aside. The four edits of a list are seen here as
changes of that view: appending adds rows, removing takes one out, moving changes nothing, and a
change in place replaces one row. Each edit comes with the facts that a commit asks for
(`Store.Planned`).
-/

namespace ExampleOverlay.Store

open Chain

variable {k : Kind} {s s' : Store} {owner : ExampleId} {items items' : List (Item k)}

/-! ## The view -/

/-- The row of an id, if it is stored. -/
def item? (s : Store) (k : Kind) (id : ItemId) : Option (Item k) :=
  match s.get? k id with
  | none => none
  | some r => (r.toItem k).toOption

/-- What the row of an id says, if it is stored. -/
def bare? (s : Store) (k : Kind) (id : ItemId) : Option (Item k) := (s.item? k id).map Item.bare

/-- An ordered store holds records of items. -/
theorem Ordered.get?_eq (hs : s.Ordered) (id : ItemId) : s.get? k id = (s.item? k id).map Record.ofItem := by
  unfold item?
  cases hr : s.get? k id with
  | none => rfl
  | some r =>
    obtain ⟨i, rfl, -⟩ := hs.exists_item hr
    simp [Except.toOption]

theorem item?_of_get? {id : ItemId} {i : Item k} (h : s.get? k id = some (Record.ofItem i)) :
    s.item? k id = some i := by
  simp only [item?, h, Record.toItem_ofItem]
  rfl

theorem Ordered.item?_eq_some_iff (hs : s.Ordered) {id : ItemId} {i : Item k} :
    s.item? k id = some i ↔ s.get? k id = some (Record.ofItem i) := by
  refine ⟨fun h => ?_, item?_of_get?⟩
  rw [hs.get?_eq, h]
  rfl

theorem Ordered.id_of_item? (hs : s.Ordered) {id : ItemId} {i : Item k} (h : s.item? k id = some i) :
    i.id = id :=
  ((hs.sound k).keyed (hs.item?_eq_some_iff.1 h)).1

theorem Ordered.get?_eq_none_iff (hs : s.Ordered) {id : ItemId} : s.get? k id = none ↔ s.item? k id = none := by
  rw [hs.get?_eq]
  cases s.item? k id <;> simp

theorem bare?_eq_none_iff {id : ItemId} : s.bare? k id = none ↔ s.item? k id = none := Option.map_eq_none_iff

theorem bare?_eq_some_iff {id : ItemId} {j : Item k} :
    s.bare? k id = some j ↔ ∃ i, s.item? k id = some i ∧ i.bare = j := Option.map_eq_some_iff

theorem bare?_of_item? {id : ItemId} {i : Item k} (h : s.item? k id = some i) : s.bare? k id = some i.bare :=
  bare?_eq_some_iff.2 ⟨i, h, rfl⟩

theorem Holds.item?_of_mem (h : s.Holds owner items) {i : Item k} (hi : i ∈ items) :
    s.item? k i.id = some i := item?_of_get? (h.get?_of_mem hi)

/-- The rows of an example are those stored for it. -/
theorem Holds.mem_of_item? (hs : s.Ordered) (h : s.Holds owner items) {id : ItemId} {i : Item k}
    (hi : s.item? k id = some i) (ho : i.owner = owner) : i ∈ items := by
  have hid := hs.id_of_item? hi
  subst hid
  exact h.mem_of_get? (hs.item?_eq_some_iff.1 hi) ho

theorem Holds.bare?_of_mem (h : s.Holds owner items) {i : Item k} (hi : i ∈ items) :
    s.bare? k i.id = some i.bare := by rw [bare?, h.item?_of_mem hi]; rfl

/-- No stored row is its own parent. -/
theorem Sound.selfless (hs : s.Sound) {id : ItemId} {i : Item k} (h : s.get? k id = some (Record.ofItem i)) :
    i.parent ≠ some i.id := by
  obtain ⟨-, -, hself⟩ := (hs k).keyed h
  simp only [Table.namesItself, Record.ofItem, Bool.or_eq_false_iff, beq_eq_false_iff_ne] at hself
  exact hself.2

theorem Ordered.selfless (hs : s.Ordered) {id : ItemId} {i : Item k} (h : s.item? k id = some i) :
    i.parent ≠ some id := by
  obtain rfl := hs.id_of_item? h
  exact hs.sound.selfless (hs.item?_eq_some_iff.1 h)

theorem Ordered.parent_ne (hs : s.Ordered) {id p : ItemId} {i : Item k} (h : s.item? k id = some i)
    (hp : i.parent = some p) : p ≠ id := by
  rintro rfl
  exact hs.selfless h hp

/-- The rows linked to a row, each once. -/
theorem Ordered.exists_children (hs : s.Ordered) (parent : ItemId) : ∃ rows : List (Item k),
    s.children k parent = rows.map Record.ofItem ∧ (idsOf rows).Nodup ∧
      ∀ i, i ∈ rows ↔ s.item? k i.id = some i ∧ i.parent = some parent := by
  have hmem : ∀ r, r ∈ s.children k parent ↔ s.get? k r.id = some r ∧ r.parent = some parent := fun _ =>
    (hs.sound k).mem_ofParent
  obtain ⟨rows, hrows⟩ : ∃ rows : List (Item k), s.children k parent = rows.map Record.ofItem :=
    Record.exists_map_ofItem fun r hr => by
      obtain ⟨i, hi, -⟩ := hs.exists_item ((hmem r).1 hr).1
      exact ⟨i, hi⟩
  refine ⟨rows, hrows, ?_, fun i => ?_⟩
  · have hnd : ((s.children k parent).map (·.id)).Nodup := (hs.sound k).nodup_ofParent parent
    rw [hrows, List.map_map] at hnd
    exact hnd
  · rw [hs.item?_eq_some_iff]
    have hi := hmem (Record.ofItem i)
    rw [hrows] at hi
    refine Iff.trans ⟨List.mem_map_of_mem, fun h => ?_⟩ hi
    obtain ⟨j, hj, hji⟩ := List.mem_map.1 h
    exact Record.ofItem_injective hji ▸ hj

/-! ## Planned edits -/

/-- A splice on the list held, to rows `order` in that order, that can be stored. -/
structure Planned (s : Store) (owner : ExampleId) (items : List (Item k)) (sp : Splice k)
    (items' : List (Item k)) : Prop where
  holds : s.Holds owner items
  turns : sp.Turns items items'
  storable : s.Storable owner items sp

/-- Rows put into a new order can be stored if they say what may be stored for the example. -/
theorem Planned.of_order {sp : Splice k} {order : List (Item k)} (h : s.Holds owner items)
    (ht : sp.Turns items (link none order)) (hne : sp.isEmpty = false)
    (hok : ∀ i ∈ order, i.owner = owner ∧ i.parent ≠ some i.id ∧ (i.id ∈ idsOf items ∨ s.get? k i.id = none)) :
    s.Planned owner items sp (link none order) where
  holds := h
  turns := ht
  storable := by
    have hbare : ∀ i ∈ sp.puts, ∃ j ∈ order, j.bare = i.bare := fun i hi =>
      List.mem_map.1 (bare_mem_link ((ht.mem i).2 (Or.inl hi)))
    refine ⟨hne, fun i hi => ?_, fun i hi => ?_, fun i hi => ?_⟩ <;>
      obtain ⟨j, hj, hji⟩ := hbare i hi <;> obtain ⟨hid, ho, hp, -, -⟩ := Item.bare_eq_iff.1 hji
    · exact ho ▸ (hok j hj).1
    · rw [← hp, ← hid]; exact (hok j hj).2.1
    · rw [← hid]; exact (hok j hj).2.2

/-- The rows of the list held may be stored for its example. -/
theorem Holds.storable_of_mem (hs : s.Sound) (h : s.Holds owner items) {i : Item k} (hi : i ∈ items) :
    i.owner = owner ∧ i.parent ≠ some i.id ∧ (i.id ∈ idsOf items ∨ s.get? k i.id = none) :=
  ⟨h.owned i hi, hs.selfless (h.get?_of_mem hi), Or.inl (List.mem_map_of_mem hi)⟩

/-- New rows of the example, of ids that are not stored, are planned at the end of its list. -/
theorem Holds.planned_append (hs : s.Sound) (h : s.Holds owner items) (version : Nat) {new : List (Item k)}
    (hne : new ≠ []) (hnd : (idsOf new).Nodup)
    (hok : ∀ i ∈ new, i.owner = owner ∧ i.parent ≠ some i.id ∧ s.get? k i.id = none) :
    s.Planned owner items (Chain.appendAll ⟨owner, version, items⟩ new) (link none (items ++ new)) := by
  have hnd' : (idsOf (items ++ new)).Nodup := by
    refine nodup_idsOf_append h.linked.nodup hnd fun j hj hid => ?_
    obtain ⟨i, hi, hij⟩ := List.mem_map.1 hid
    have hstored := h.get?_of_mem hi
    rw [hij, (hok j hj).2.2] at hstored
    cases hstored
  refine .of_order h (appendAll_turns (c := ⟨owner, version, items⟩) h.linked hnd') ?_ fun i hi => ?_
  · cases new with
    | nil => exact absurd rfl hne
    | cons first rest => simp [Chain.appendAll, Splice.isEmpty, link]
  · rcases List.mem_append.1 hi with hi | hi
    · exact h.storable_of_mem hs hi
    · obtain ⟨ho, hp, hg⟩ := hok i hi
      exact ⟨ho, hp, Or.inr hg⟩

/-- A row of the list is planned to be taken out. -/
theorem Holds.planned_remove (hs : s.Sound) (h : s.Holds owner items) (version : Nat) {id : ItemId}
    (hid : id ∈ idsOf items) :
    ∃ sp, Chain.remove? ⟨owner, version, items⟩ id = some sp ∧ sp.deletes = [id] ∧
      s.Planned owner items sp (link none (items.filter (·.id != id))) := by
  obtain ⟨sp, hsp, hdel, ht⟩ := remove?_turns (c := ⟨owner, version, items⟩) h.linked hid
  refine ⟨sp, hsp, hdel, .of_order h ht (by simp [Splice.isEmpty, hdel]) fun i hi => ?_⟩
  exact h.storable_of_mem hs (List.mem_filter.1 hi).1

/-- A new order of the list is planned by relinking. -/
theorem Holds.planned_relink (hs : s.Sound) (h : s.Holds owner items) {order : List (Item k)}
    (hperm : order.Perm items) (hne : Splice.isEmpty { puts := relinked order } = false) :
    s.Planned owner items { puts := relinked order } (link none order) :=
  .of_order h (relinked_turns h.linked hperm) hne fun _ hi => h.storable_of_mem hs (hperm.subset hi)

/-- A row of the list is planned to be replaced in its place. -/
theorem Holds.planned_replace (h : s.Holds owner items) {x edited : Item k} (hx : x ∈ items)
    (hid : edited.id = x.id) (ho : edited.owner = x.owner) (hprev : edited.prev = x.prev)
    (hnext : edited.next = x.next) (hself : edited.parent ≠ some edited.id) :
    s.Planned owner items { puts := [edited] } (replaced items edited) where
  holds := h
  turns := replaced_turns h.linked hx hid hprev hnext
  storable := {
    nonempty := rfl
    owned := by simpa [ho] using h.owned x hx
    selfless := by simpa using hself
    fresh := by
      intro i hi
      obtain rfl := List.mem_singleton.1 hi
      exact Or.inl (hid ▸ List.mem_map_of_mem hx) }

/-! ## What edits change -/

/-- After a list was turned, its rows are those of the new list, and all others are left alone. -/
theorem Turned.item?_eq (ht : s.Turned s' owner items items') (id : ItemId) :
    s'.item? k id = if id ∈ idsOf items' then items'.find? (·.id == id)
      else if id ∈ idsOf items then none else s.item? k id := by
  by_cases hid' : id ∈ idsOf items'
  · obtain ⟨i, hi, rfl⟩ := List.mem_map.1 hid'
    rw [if_pos hid', find?_id_of_mem ht.holds.linked.nodup hi, ht.holds.item?_of_mem hi]
  · rw [if_neg hid']
    by_cases hid : id ∈ idsOf items
    · rw [if_pos hid, item?, ht.gone hid hid']
    · rw [if_neg hid, item?, item?, ht.rows hid hid']

/-- A row of the table that was written is a row of the new list or was there before. -/
theorem Turned.mem_or_item? (ht : s.Turned s' owner items items') {id : ItemId} {y : Item k}
    (hy : s'.item? k id = some y) : y ∈ items' ∧ y.id = id ∨ s.item? k id = some y := by
  rw [ht.item?_eq] at hy
  split at hy
  · exact Or.inl ⟨List.mem_of_find?_eq_some hy, by simpa using List.find?_some hy⟩
  · split at hy
    · cases hy
    · exact Or.inr hy

/-- After a list was turned, its rows say what the new list says, and all others what they said. -/
theorem Turned.bare?_eq (ht : s.Turned s' owner items items') (id : ItemId) :
    s'.bare? k id = if id ∈ idsOf items' then (items'.find? (·.id == id)).map Item.bare
      else if id ∈ idsOf items then none else s.bare? k id := by
  rw [bare?, ht.item?_eq, apply_ite (Option.map Item.bare), apply_ite (Option.map Item.bare)]
  rfl

theorem find?_map_bare {a b : List (Item k)} (h : a.map Item.bare = b.map Item.bare) (id : ItemId) :
    (a.find? (·.id == id)).map Item.bare = (b.find? (·.id == id)).map Item.bare := by
  have hfind : ∀ l : List (Item k), (l.find? (·.id == id)).map Item.bare =
      (l.map Item.bare).find? (·.id == id) := by
    intro l
    rw [List.find?_map]
    rfl
  rw [hfind, hfind, h]

/-- Relinking shows what the rows say in their new order. -/
theorem Turned.bare?_link {order : List (Item k)} (ht : s.Turned s' owner items (link none order))
    (id : ItemId) :
    s'.bare? k id = if id ∈ idsOf order then (order.find? (·.id == id)).map Item.bare
      else if id ∈ idsOf items then none else s.bare? k id := by
  rw [ht.bare?_eq, idsOf_link, find?_map_bare (link_map_bare none order)]

/-- **Appending adds the new rows.** -/
theorem Turned.bare?_append (h : s.Holds owner items) {new : List (Item k)}
    (ht : s.Turned s' owner items (link none (items ++ new))) (id : ItemId) :
    s'.bare? k id = ((new.find? (·.id == id)).map Item.bare).or (s.bare? k id) := by
  have hnd := ht.holds.linked.nodup
  rw [idsOf_link, idsOf, List.map_append, List.nodup_append] at hnd
  rw [ht.bare?_link, List.find?_append]
  by_cases hid : id ∈ idsOf items
  · obtain ⟨i, hi, rfl⟩ := List.mem_map.1 hid
    have hnew : new.find? (·.id == i.id) = none :=
      find?_id_eq_none.2 fun hn => hnd.2.2 i.id (List.mem_map_of_mem hi) i.id hn rfl
    rw [if_pos (by simp only [idsOf, List.map_append, List.mem_append]; exact Or.inl hid),
      find?_id_of_mem h.linked.nodup hi, hnew, h.bare?_of_mem hi]
    rfl
  · rw [find?_id_eq_none.2 hid, Option.none_or, if_neg hid]
    by_cases hn : id ∈ idsOf new
    · obtain ⟨i, hi, rfl⟩ := List.mem_map.1 hn
      rw [if_pos (by simp only [idsOf, List.map_append, List.mem_append]; exact Or.inr hn),
        find?_id_of_mem hnd.2.1 hi]
      rfl
    · rw [if_neg (by simp only [idsOf, List.map_append, List.mem_append]; exact not_or.2 ⟨hid, hn⟩),
        find?_id_eq_none.2 hn]
      rfl

/-- **Removing takes out one row.** -/
theorem Turned.bare?_remove (h : s.Holds owner items) {id : ItemId} (hid : id ∈ idsOf items)
    (ht : s.Turned s' owner items (link none (items.filter (·.id != id)))) (id' : ItemId) :
    s'.bare? k id' = if id' = id then none else s.bare? k id' := by
  have hmem : id' ∈ idsOf (items.filter (·.id != id)) ↔ id' ∈ idsOf items ∧ id' ≠ id := by
    simp only [idsOf, List.mem_map, List.mem_filter, bne_iff_ne, ne_eq]
    constructor
    · rintro ⟨i, ⟨hi, hne⟩, rfl⟩; exact ⟨⟨i, hi, rfl⟩, hne⟩
    · rintro ⟨⟨i, hi, rfl⟩, hne⟩; exact ⟨i, ⟨hi, hne⟩, rfl⟩
  rw [ht.bare?_link]
  by_cases he : id' = id
  · subst he
    rw [if_neg fun hm => (hmem.1 hm).2 rfl, if_pos hid, if_pos rfl]
  · rw [if_neg he]
    by_cases hi : id' ∈ idsOf items
    · obtain ⟨i, hi', rfl⟩ := List.mem_map.1 hi
      have hf : i ∈ items.filter (·.id != id) := List.mem_filter.2 ⟨hi', by simpa using he⟩
      rw [if_pos (hmem.2 ⟨hi, he⟩), find?_id_of_mem (h.linked.nodup.sublist (List.filter_sublist.map _)) hf,
        h.bare?_of_mem hi']
      rfl
    · rw [if_neg fun hm => hi (hmem.1 hm).1, if_neg hi]

/-- **Reordering changes what no row says.** -/
theorem Turned.bare?_relink (h : s.Holds owner items) {order : List (Item k)} (hperm : order.Perm items)
    (ht : s.Turned s' owner items (link none order)) (id : ItemId) : s'.bare? k id = s.bare? k id := by
  have hids : id ∈ idsOf order ↔ id ∈ idsOf items := (hperm.map _).mem_iff
  rw [ht.bare?_link]
  by_cases hid : id ∈ idsOf items
  · obtain ⟨i, hi, rfl⟩ := List.mem_map.1 hid
    have hnd : (idsOf order).Nodup := ((hperm.map (·.id)).nodup_iff).2 h.linked.nodup
    rw [if_pos (hids.2 hid), find?_id_of_mem hnd (hperm.symm.subset hi), h.bare?_of_mem hi]
    rfl
  · rw [if_neg (mt hids.1 hid), if_neg hid]

/-- **Replacing a row changes what it says.** -/
theorem Turned.bare?_replace (h : s.Holds owner items) {edited : Item k} (hid : edited.id ∈ idsOf items)
    (ht : s.Turned s' owner items (replaced items edited)) (id : ItemId) :
    s'.bare? k id = if id = edited.id then some edited.bare else s.bare? k id := by
  obtain ⟨x, hx, hxid⟩ := List.mem_map.1 hid
  have hmem : ∀ i ∈ items, (if i.id = edited.id then edited else i) ∈ replaced items edited := fun i hi =>
    List.mem_map_of_mem hi
  by_cases he : id = edited.id
  · have hm := hmem x hx
    rw [if_pos hxid] at hm
    rw [if_pos he, he, ht.holds.bare?_of_mem hm]
  · rw [if_neg he, ht.bare?_eq]
    rw [idsOf_replaced]
    by_cases hi : id ∈ idsOf items
    · obtain ⟨i, hi', rfl⟩ := List.mem_map.1 hi
      have hm := hmem i hi'
      rw [if_neg he] at hm
      rw [if_pos hi, find?_id_of_mem ht.holds.linked.nodup hm, h.bare?_of_mem hi']
      rfl
    · rw [if_neg hi, if_neg hi]

/-- Other kinds say what they said. -/
theorem Turned.bare?_of_ne (ht : s.Turned s' owner items items') {k' : Kind} (hk : k' ≠ k) (id : ItemId) :
    s'.bare? k' id = s.bare? k' id := by
  rw [bare?, bare?, item?, item?, get?, get?, ht.kinds hk]

end ExampleOverlay.Store
