import ExampleOverlay.Proofs.Runs.Calm

/-!
# Where rows stand

Seen with their places, a change of a row in its place changes no other row, and taking a row out of its list leads
the links to it past it (`Item.past`); rows of other lists stay as they are. A row cannot be taken out if its own
write is made to fail or that of a row next to it, which has to be relinked: it is *pinned* (`Store.Pinned`).
-/

namespace ExampleOverlay

open Chain

variable {k : Kind}

namespace Item

/-- A row once `x` is taken out of its list: where it was linked to `x` it is linked to what comes after or before. -/
def past (x i : Item k) : Item k where
  __ := i
  prev := if i.prev = some x.id then x.prev else i.prev
  next := if i.next = some x.id then x.next else i.next

@[simp] theorem past_id (x i : Item k) : (x.past i).id = i.id := rfl
@[simp] theorem past_owner (x i : Item k) : (x.past i).owner = i.owner := rfl
@[simp] theorem past_bare (x i : Item k) : (x.past i).bare = i.bare := rfl

end Item

namespace Chain

variable {items : List (Item k)} {x : Item k}

/-- Linking past a row that is not there is relinking the ends. -/
theorem map_past_segment : ∀ {a : List (Item k)} {prev next : Option ItemId}, segment prev next a = a →
    x.id ∉ idsOf a → a.map x.past = segment (if prev = some x.id then x.prev else prev)
      (if next = some x.id then x.next else next) a
  | [], _, _, _, _ => rfl
  | i :: rest, prev, next, h, hx => by
    rw [idsOf, List.map_cons, List.mem_cons, not_or] at hx
    rw [segment, List.cons.injEq] at h
    obtain ⟨hi, hrest⟩ := h
    have hself : some i.id ≠ some x.id := fun he => hx.1 (Option.some.inj he).symm
    rw [List.map_cons, segment, map_past_segment hrest hx.2, if_neg hself]
    congr 1
    refine Item.eq_of_bare_eq rfl ?_ ?_
    · show (if i.prev = some x.id then x.prev else i.prev) = _
      rw [show i.prev = prev by rw [← hi]]
    · show (if i.next = some x.id then x.next else i.next) = _
      rw [show i.next = (rest.head?.map (·.id)).or next by rw [← hi]]
      cases rest with
      | nil => rfl
      | cons j rest =>
        have hj : some j.id ≠ some x.id := fun he => hx.2 (by simp [← Option.some.inj he])
        simp [hj]

/-- A row of linked rows is linked to the rows beside it. -/
theorem Linked.links_of_split {a b : List (Item k)} (h : Linked (a ++ x :: b)) :
    x.prev = a.getLast?.map (·.id) ∧ x.next = b.head?.map (·.id) ∧ segment none (some x.id) a = a ∧
      segment (some x.id) none b = b := by
  obtain ⟨ha, hb⟩ := h.append_parts
  rw [segment, List.cons.injEq, Option.or_none] at hb
  exact ⟨by rw [← hb.1], by rw [← hb.1], ha, hb.2⟩

/-- Taking a row out leads its neighbours past it, and changes no other row. -/
theorem Linked.link_filter_ne (h : Linked items) (hx : x ∈ items) :
    link none (items.filter (·.id != x.id)) = (items.filter (·.id != x.id)).map x.past := by
  obtain ⟨a, b, rfl⟩ := List.append_of_mem hx
  obtain ⟨hprev, hnext, ha, hb⟩ := h.links_of_split
  have hnd := h.nodup
  rw [idsOf, List.map_append, List.map_cons, List.nodup_append, List.nodup_cons] at hnd
  have hxa : x.id ∉ idsOf a := fun hm => hnd.2.2 x.id hm x.id (by simp) rfl
  rw [show (a ++ x :: b).filter (·.id != x.id) = a ++ b from others_of_split (c := ⟨x.owner, 0, _⟩) rfl h.nodup,
    link_eq_segment, segment_append, List.map_append, map_past_segment ha hxa, map_past_segment hb hnd.2.1.1]
  simp [hprev, hnext]

end Chain

namespace Store

variable {s s' : Store} {owner : ExampleId} {items : List (Item k)} {x edited : Item k}

/-- **Taking a row out** leads the rows of its list past it. -/
theorem Turned.item?_remove (hs : s.Ordered) (h : s.Holds owner items) (hx : x ∈ items)
    (ht : s.Turned s' owner items (link none (items.filter (·.id != x.id)))) (id : ItemId) :
    s'.item? k id = if id = x.id then none
      else (s.item? k id).map fun i => if i.owner = owner then x.past i else i := by
  rw [h.linked.link_filter_ne hx] at ht
  have hids : idsOf ((items.filter (·.id != x.id)).map x.past) = idsOf (items.filter (·.id != x.id)) := by
    simp [idsOf, Function.comp_def]
  rw [ht.item?_eq, hids]
  by_cases hid : id = x.id
  · rw [if_pos hid, if_neg, if_pos (hid ▸ List.mem_map_of_mem hx)]
    simp [hid]
  rw [if_neg hid]
  by_cases hmem : id ∈ idsOf items
  · obtain ⟨i, hi, rfl⟩ := List.mem_map.1 hmem
    have hkept : i ∈ items.filter (·.id != x.id) := List.mem_filter.2 ⟨hi, by simpa using hid⟩
    rw [if_pos (List.mem_map_of_mem hkept), h.item?_of_mem hi, Option.map_some, if_pos (h.owned i hi)]
    exact find?_id_of_mem ht.holds.linked.nodup (List.mem_map_of_mem hkept)
  · rw [if_neg (fun hf => hmem (List.Sublist.map _ List.filter_sublist |>.subset hf)), if_neg hmem]
    cases hi : s.item? k id with
    | none => rfl
    | some i =>
      have hne : i.owner ≠ owner := by
        rintro rfl
        exact hmem (hs.id_of_item? hi ▸ List.mem_map_of_mem (h.mem_of_item? hs hi rfl))
      rw [Option.map_some, if_neg hne]

/-- **Changing a row in its place** changes no other. -/
theorem Turned.item?_replace (h : s.Holds owner items) (hid : edited.id ∈ idsOf items)
    (ht : s.Turned s' owner items (replaced items edited)) (id : ItemId) :
    s'.item? k id = if id = edited.id then some edited else s.item? k id := by
  have hmem : ∀ i ∈ items, (if i.id = edited.id then edited else i) ∈ replaced items edited := fun i hi =>
    List.mem_map_of_mem hi
  by_cases he : id = edited.id
  · obtain ⟨x, hx, hxid⟩ := List.mem_map.1 hid
    have hm := hmem x hx
    rw [if_pos hxid] at hm
    rw [if_pos he, he, ht.holds.item?_of_mem hm]
  · rw [if_neg he, ht.item?_eq, idsOf_replaced]
    by_cases hi : id ∈ idsOf items
    · obtain ⟨i, hi', rfl⟩ := List.mem_map.1 hi
      have hm := hmem i hi'
      rw [if_neg he] at hm
      rw [if_pos hi, find?_id_of_mem ht.holds.linked.nodup hm, h.item?_of_mem hi']
    · rw [if_neg hi, if_neg hi]

/-- **What rows say and the order of their lists** tell where they stand. -/
theorem Ordered.item?_eq_of_ids (hs : s.Ordered) (hs' : s'.Ordered) (hbare : s'.bare? k = s.bare? k)
    (hids : ∀ {owner} {items items' : List (Item k)}, s.Holds owner items → s'.Holds owner items' →
      idsOf items' = idsOf items) : s'.item? k = s.item? k := by
  have hrows : ∀ {s : Store} {owner} {items : List (Item k)}, s.Holds owner items →
      (items.map Item.bare).map some = (idsOf items).map (s.bare? k) := fun h => by
    rw [List.map_map, idsOf, List.map_map]
    exact List.map_congr_left fun i hi => (h.bare?_of_mem hi).symm
  have hlists : ∀ {owner} {items : List (Item k)}, s.Holds owner items → s'.Holds owner items := fun {owner items} h => by
    obtain ⟨items', h'⟩ := hs'.lists k owner
    have hsame : items'.map Item.bare = items.map Item.bare := by
      refine (List.map_inj_right fun _ _ => Option.some.inj).1 ?_
      rw [hrows h', hrows h, hids h h', hbare]
    have hlist : items' = items := by
      rw [← h'.linked.segment_eq, ← h.linked.segment_eq, segment_congr none none hsame]
    rwa [hlist] at h'
  funext id
  cases hi : s.item? k id with
  | none =>
    have hnone : s'.bare? k id = none := by rw [hbare, bare?, hi]; rfl
    exact bare?_eq_none_iff.1 hnone
  | some i =>
    obtain ⟨items, h⟩ := hs.lists k i.owner
    rw [← hs.id_of_item? hi]
    exact (hlists h).item?_of_mem (h.mem_of_item? hs hi rfl)

/-! ## Rows that cannot be taken out -/

/-- The row or a row next to it was made to fail. -/
def Pinned (s : Store) (i : Item k) : Prop :=
  i.id ∈ s.failing ∨ (∃ j ∈ i.prev, j ∈ s.failing) ∨ ∃ j ∈ i.next, j ∈ s.failing

instance (s : Store) (i : Item k) : Decidable (s.Pinned i) := inferInstanceAs (Decidable (_ ∨ _ ∨ _))

/-- What takes a row out writes the row and those next to it. -/
theorem blocked_remove_iff (h : s.Holds owner items) (hx : x ∈ items) {version : Nat} {sp : Splice k}
    (hsp : Chain.remove? ⟨owner, version, items⟩ x.id = some sp) : s.Blocked sp ↔ s.Pinned x := by
  obtain ⟨a, b, rfl⟩ := List.append_of_mem hx
  obtain ⟨hprev, hnext, -, -⟩ := h.linked.links_of_split
  rw [remove?_of_split (c := ⟨owner, version, _⟩) rfl h.linked.nodup, Option.some.injEq] at hsp
  subst hsp
  have hwritten : ∀ id, id ∈ idsOf ((a.getLast?.map fun i => { i with next := b.head?.map (·.id) }).toList ++
      (b.head?.map fun i => { i with prev := a.getLast?.map (·.id) }).toList) ∨ id ∈ [x.id] ↔
        id = x.id ∨ id ∈ x.prev ∨ id ∈ x.next := by
    intro id
    rw [hprev, hnext, or_comm]
    cases a.getLast? <;> cases b.head? <;> simp [idsOf, eq_comm]
  simp only [Blocked, hwritten]
  constructor
  · rintro ⟨id, hfail, rfl | hid | hid⟩
    · exact Or.inl hfail
    · exact Or.inr (Or.inl ⟨id, hid, hfail⟩)
    · exact Or.inr (Or.inr ⟨id, hid, hfail⟩)
  · rintro (hfail | ⟨id, hid, hfail⟩ | ⟨id, hid, hfail⟩)
    · exact ⟨x.id, hfail, Or.inl rfl⟩
    · exact ⟨id, hfail, Or.inr (Or.inl hid)⟩
    · exact ⟨id, hfail, Or.inr (Or.inr hid)⟩

end Store

end ExampleOverlay
