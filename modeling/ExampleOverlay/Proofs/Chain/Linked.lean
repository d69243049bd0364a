import ExampleOverlay.Chain
import Mathlib.Data.List.Perm.Basic
import Mathlib.Data.List.Perm.Subperm
import Mathlib.Data.List.Nodup

/-!
# Linked rows

The order of a list is the one its links spell out. `Chain.segment` links rows in a given order with
both ends fixed, so that a list can be cut anywhere and its parts relinked on their own; `Linked`
says that rows stand linked in the order in which they are given. What a row says beside its links is
its `bare` form: relinking never touches it.
-/

namespace ExampleOverlay

variable {k : Kind}

namespace Item

/-- What a row says, its place aside. -/
def bare (i : Item k) : Item k := { i with prev := none, next := none }

@[simp] theorem bare_id (i : Item k) : i.bare.id = i.id := rfl
@[simp] theorem bare_owner (i : Item k) : i.bare.owner = i.owner := rfl
@[simp] theorem bare_parent (i : Item k) : i.bare.parent = i.parent := rfl
@[simp] theorem bare_fields (i : Item k) : i.bare.fields = i.fields := rfl
@[simp] theorem bare_overridden (i : Item k) : i.bare.overridden = i.overridden := rfl
@[simp] theorem bare_bare (i : Item k) : i.bare.bare = i.bare := rfl

theorem bare_eq_iff {i j : Item k} : i.bare = j.bare ↔ i.id = j.id ∧ i.owner = j.owner ∧
    i.parent = j.parent ∧ i.fields = j.fields ∧ i.overridden = j.overridden := by
  cases i; cases j
  simp [bare]

theorem id_eq_of_bare_eq {i j : Item k} (h : i.bare = j.bare) : i.id = j.id := (bare_eq_iff.1 h).1

/-- A row is what it says and where it stands. -/
theorem eq_of_bare_eq {i j : Item k} (h : i.bare = j.bare) (hp : i.prev = j.prev) (hn : i.next = j.next) :
    i = j := by
  cases i; cases j
  simp_all [bare]

end Item

/-- The ids of rows, in their order. -/
abbrev idsOf (items : List (Item k)) : List ItemId := items.map (·.id)

/-- Rows that say the same in the same order have the same ids. -/
theorem idsOf_eq_of_map_bare_eq {a b : List (Item k)} (h : a.map Item.bare = b.map Item.bare) :
    idsOf a = idsOf b := by
  have := congrArg (List.map (·.id)) h
  rwa [List.map_map, List.map_map] at this

/-! ## Rows of distinct ids -/

theorem eq_of_id_eq {items : List (Item k)} (h : (idsOf items).Nodup) {i j : Item k} (hi : i ∈ items)
    (hj : j ∈ items) (hid : i.id = j.id) : i = j := List.inj_on_of_nodup_map h hi hj hid

theorem find?_id_of_mem {items : List (Item k)} (h : (idsOf items).Nodup) {i : Item k} (hi : i ∈ items) :
    items.find? (·.id == i.id) = some i := by
  obtain ⟨j, hj⟩ : ∃ j, items.find? (·.id == i.id) = some j := by
    have : (items.find? (·.id == i.id)).isSome := by
      rw [List.find?_isSome]; exact ⟨i, hi, by simp⟩
    exact Option.isSome_iff_exists.1 this
  have hid : j.id = i.id := by simpa using List.find?_some hj
  rw [hj, eq_of_id_eq h (List.mem_of_find?_eq_some hj) hi hid]

theorem find?_id_eq_none {items : List (Item k)} {id : ItemId} :
    items.find? (·.id == id) = none ↔ id ∉ idsOf items := by
  simp [idsOf]

/-- Rows of new and different ids can be put behind others. -/
theorem nodup_idsOf_append {a b : List (Item k)} (ha : (idsOf a).Nodup) (hb : (idsOf b).Nodup)
    (hnew : ∀ i ∈ b, i.id ∉ idsOf a) : (idsOf (a ++ b)).Nodup := by
  rw [idsOf, List.map_append, List.nodup_append]
  refine ⟨ha, hb, ?_⟩
  rintro id hid _ hid' rfl
  obtain ⟨i, hi, rfl⟩ := List.mem_map.1 hid'
  exact hnew i hi hid

theorem not_mem_of_split {a b : List (Item k)} {x : Item k} (h : (idsOf (a ++ x :: b)).Nodup) :
    x.id ∉ idsOf a ∧ x.id ∉ idsOf b := by
  rw [idsOf, List.map_append, List.map_cons, List.nodup_middle, List.nodup_cons, List.mem_append, not_or] at h
  exact h.1

namespace Chain

/-! ## Segments -/

/-- Rows linked in the order given, the first back to `prev` and the last on to `next`. -/
def segment (prev next : Option ItemId) : List (Item k) → List (Item k)
  | [] => []
  | i :: rest =>
    { i with prev := prev, next := (rest.head?.map (·.id)).or next } :: segment (some i.id) next rest

theorem link_eq_segment : ∀ (prev : Option ItemId) (items : List (Item k)),
    link prev items = segment prev none items
  | _, [] => rfl
  | prev, i :: rest => by rw [link, segment, link_eq_segment (some i.id) rest, Option.or_none]

@[simp] theorem segment_map_bare : ∀ (prev next : Option ItemId) (items : List (Item k)),
    (segment prev next items).map Item.bare = items.map Item.bare
  | _, _, [] => rfl
  | _, next, i :: rest => by
    rw [segment, List.map_cons, List.map_cons, segment_map_bare (some i.id) next rest]; rfl

@[simp] theorem idsOf_segment (prev next : Option ItemId) (items : List (Item k)) :
    idsOf (segment prev next items) = idsOf items :=
  idsOf_eq_of_map_bare_eq (segment_map_bare prev next items)

@[simp] theorem length_segment (prev next : Option ItemId) (items : List (Item k)) :
    (segment prev next items).length = items.length := by
  rw [← List.length_map Item.bare, segment_map_bare, List.length_map]

theorem head?_id_eq {a b : List (Item k)} (h : idsOf a = idsOf b) :
    a.head?.map (·.id) = b.head?.map (·.id) := by
  simpa [idsOf, List.head?_map] using congrArg List.head? h

/-- Linking forgets the links that were there. -/
theorem segment_congr : ∀ {a b : List (Item k)} (prev next : Option ItemId),
    a.map Item.bare = b.map Item.bare → segment prev next a = segment prev next b
  | [], [], _, _, _ => rfl
  | [], _ :: _, _, _, h => by simp at h
  | _ :: _, [], _, _, h => by simp at h
  | i :: a, j :: b, prev, next, h => by
    simp only [List.map_cons, List.cons.injEq] at h
    have hids : a.head?.map (·.id) = b.head?.map (·.id) := head?_id_eq (idsOf_eq_of_map_bare_eq h.2)
    rw [segment, segment, segment_congr (some i.id) next h.2, hids, ← Item.id_eq_of_bare_eq h.1]
    congr 1
    exact Item.eq_of_bare_eq (Item.bare_eq_iff.2 ⟨rfl, (Item.bare_eq_iff.1 h.1).2⟩) rfl rfl

theorem segment_segment (p n p' n' : Option ItemId) (items : List (Item k)) :
    segment p n (segment p' n' items) = segment p n items :=
  segment_congr p n (segment_map_bare p' n' items)

/-- A list is cut into two segments that link to each other. -/
theorem segment_append : ∀ (prev next : Option ItemId) (a b : List (Item k)),
    segment prev next (a ++ b) = segment prev ((b.head?.map (·.id)).or next) a ++
      segment ((a.getLast?.map (·.id)).or prev) next b
  | _, _, [], _ => by simp [segment]
  | prev, next, [i], b => by simp [segment]
  | prev, next, i :: j :: a, b => by
    rw [List.cons_append, segment, segment_append (some i.id) next (j :: a) b, segment.eq_2 prev _ i,
      List.getLast?_cons_cons, List.getLast?_cons]
    simp

theorem segment_singleton (prev next : Option ItemId) (i : Item k) :
    segment prev next [i] = [{ i with prev := prev, next := next }] := by simp [segment]

/-! ## Linked rows -/

/-- Rows linked to each other in the order given, no two of one id. -/
structure Linked (items : List (Item k)) : Prop where
  links : link none items = items
  nodup : (idsOf items).Nodup

theorem Linked.nil : Linked ([] : List (Item k)) := ⟨rfl, List.nodup_nil⟩

theorem Linked.segment_eq {items : List (Item k)} (h : Linked items) : segment none none items = items := by
  rw [← link_eq_segment, h.links]

/-- Any rows of distinct ids are linked once their links are set. -/
theorem linked_link {items : List (Item k)} (h : (idsOf items).Nodup) : Linked (link none items) := by
  rw [link_eq_segment]
  exact ⟨by rw [link_eq_segment, segment_segment], by rw [idsOf_segment]; exact h⟩

@[simp] theorem link_map_bare (prev : Option ItemId) (items : List (Item k)) :
    (link prev items).map Item.bare = items.map Item.bare := by
  rw [link_eq_segment, segment_map_bare]

/-- A row that is linked anew says what it said. -/
theorem bare_mem_link {prev : Option ItemId} {order : List (Item k)} {i : Item k} (hi : i ∈ link prev order) :
    i.bare ∈ order.map Item.bare := by
  rw [← link_map_bare prev order]
  exact List.mem_map_of_mem hi

theorem exists_bare_mem_link (prev : Option ItemId) {order : List (Item k)} {i : Item k} (hi : i ∈ order) :
    ∃ j ∈ link prev order, j.bare = i.bare := by
  have hbare : i.bare ∈ (link prev order).map Item.bare := by
    rw [link_map_bare]
    exact List.mem_map_of_mem hi
  exact List.mem_map.1 hbare

@[simp] theorem idsOf_link (prev : Option ItemId) (items : List (Item k)) :
    idsOf (link prev items) = idsOf items := idsOf_eq_of_map_bare_eq (link_map_bare prev items)

theorem length_link (prev : Option ItemId) (items : List (Item k)) : (link prev items).length = items.length := by
  rw [link_eq_segment, length_segment]

/-- Both parts of linked rows are linked, each to the end of the other. -/
theorem Linked.append_parts {a b : List (Item k)} (h : Linked (a ++ b)) :
    segment none (b.head?.map (·.id)) a = a ∧ segment (a.getLast?.map (·.id)) none b = b := by
  have := h.segment_eq
  rw [segment_append, Option.or_none, Option.or_none] at this
  exact List.append_inj this (by simp)

/-- No row of a list stands next to itself. -/
theorem Linked.prev_ne {items : List (Item k)} (h : Linked items) {i : Item k} (hi : i ∈ items) :
    i.prev ≠ some i.id ∧ i.next ≠ some i.id := by
  obtain ⟨a, b, rfl⟩ := List.append_of_mem hi
  obtain ⟨-, hb⟩ := h.append_parts
  rw [segment, List.cons.injEq] at hb
  have hnd := h.nodup
  simp only [idsOf, List.map_append, List.map_cons, List.nodup_append, List.nodup_cons, List.mem_map,
    List.mem_cons, forall_exists_index, and_imp] at hnd
  have hprev : i.prev = a.getLast?.map (·.id) := by rw [← hb.1]
  have hnext : i.next = b.head?.map (·.id) := by rw [← hb.1, Option.or_none]
  rw [hprev, hnext]
  refine ⟨fun hl => ?_, fun hh => ?_⟩
  · obtain ⟨j, hj, hid⟩ := Option.map_eq_some_iff.1 hl
    exact hnd.2.2 j.id j (List.mem_of_getLast? hj) rfl i.id (Or.inl rfl) hid
  · obtain ⟨j, hj, hid⟩ := Option.map_eq_some_iff.1 hh
    exact hnd.2.1.1 ⟨j, List.mem_of_mem_head? hj, hid⟩

end Chain

end ExampleOverlay
