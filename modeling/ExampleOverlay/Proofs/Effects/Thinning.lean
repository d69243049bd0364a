import ExampleOverlay.Proofs.Store.Places
import Mathlib.Data.List.Perm.Subperm

/-!
# Lists that lose rows

Changing a row in its place and taking a row out lead to lists with some of the rows they had, in the order they had
(`Session.Thins`). Each of the two edits is refused if what it has to write was made to fail, and only then.
-/

namespace ExampleOverlay.Session

open Chain Program

variable {k : Kind} {s t u : Session} {owner : ExampleId} {items items' : List (Item k)} {id : ItemId}
  {x edited : Item k}

/-- The lists of one kind may have lost rows, the rows that are left stay in their order, and nothing else happened
but to what these rows say. -/
structure Thins (k : Kind) (s t : Session) : Prop where
  sane : t.Sane
  registry : t.world.registry = s.world.registry
  failing : t.store.failing = s.store.failing
  kinds : ∀ {k'}, k' ≠ k → t.store.table k' = s.store.table k'
  owners : ∀ {id} {i : Item k}, t.store.item? k id = some i →
    ∃ x : Item k, s.store.item? k id = some x ∧ x.owner = i.owner
  order : ∀ {owner} {items items' : List (Item k)}, s.store.Holds owner items → t.store.Holds owner items' →
    (idsOf items').Sublist (idsOf items)

theorem Thins.trans (h : s.Thins k t) (h' : t.Thins k u) : s.Thins k u where
  sane := h'.sane
  registry := h'.registry.trans h.registry
  failing := h'.failing.trans h.failing
  kinds hk := (h'.kinds hk).trans (h.kinds hk)
  owners hi := by
    obtain ⟨y, hy, hyi⟩ := h'.owners hi
    obtain ⟨x, hx, hxy⟩ := h.owners hy
    exact ⟨x, hx, hxy.trans hyi⟩
  order {owner _ _} hs hu := by
    obtain ⟨items, ht⟩ := h.sane.ordered.lists k owner
    exact (h'.order ht hu).trans (h.order hs ht)

/-- An example has one list. -/
theorem holds_unique (hs : s.Sane) (h : s.store.Holds owner items) (h' : s.store.Holds owner items') :
    items' = items := by
  have hread := (h'.chain_eq hs.ordered.sound).symm.trans (h.chain_eq hs.ordered.sound)
  simpa using hread

theorem Thins.refl (hs : s.Sane) : s.Thins k s where
  sane := hs
  registry := rfl
  failing := rfl
  kinds _ := rfl
  owners hi := ⟨_, hi, rfl⟩
  order h h' := by rw [holds_unique hs h h']

/-- A list was turned into one of some of its ids, in their order. -/
theorem Turned.thins (hs : s.Sane) (h : s.Turned t owner items items')
    (hsub : (idsOf items').Sublist (idsOf items)) : s.Thins k t where
  sane := h.sane hs fun _ hid => Or.inl (hsub.subset hid)
  registry := by rw [h.eq]; rfl
  failing := h.turned.failing
  kinds hk := h.turned.kinds hk
  owners {id i} hi := by
    rw [h.turned.item?_eq] at hi
    split at hi
    next hid =>
      obtain ⟨x, hx, rfl⟩ := List.mem_map.1 (hsub.subset hid)
      refine ⟨x, h.holds.item?_of_mem hx, ?_⟩
      rw [h.holds.owned x hx, h.turned.holds.owned i (List.mem_of_find?_eq_some hi)]
    next =>
      split at hi
      next => cases hi
      next => exact ⟨i, hi, rfl⟩
  order {owner' _ _} hl hl' := by
    have hsane : t.Sane := h.sane hs fun _ hid => Or.inl (hsub.subset hid)
    by_cases ho : owner' = owner
    · subst ho
      rwa [holds_unique hs h.holds hl, holds_unique hsane h.turned.holds hl']
    · have hsame := hl.of_scan_eq hs.ordered.sound h.turned.sound
        (h.turned.scan_eq hs.ordered.sound h.holds (Or.inr ho))
      rw [holds_unique hsane hsame hl']

/-- The rows left in a list are those that are stored. -/
theorem Thins.ids_eq (h : s.Thins k t) (hl : s.store.Holds owner items)
    (hl' : t.store.Holds owner items') :
    idsOf items' = (idsOf items).filter fun id => (t.store.item? k id).isSome := by
  have hkeep : ∀ id ∈ idsOf items', (t.store.item? k id).isSome = true := by
    intro id hid
    obtain ⟨i, hi, rfl⟩ := List.mem_map.1 hid
    rw [hl'.item?_of_mem hi, Option.isSome_some]
  have hsub := (h.order hl hl').filter fun id => (t.store.item? k id).isSome
  rw [List.filter_eq_self.2 hkeep] at hsub
  refine hsub.eq_of_length_le (List.subperm_of_subset (hl.linked.nodup.filter _) fun id hid => ?_).length_le
  obtain ⟨hid, hsome⟩ := List.mem_filter.1 hid
  obtain ⟨i, hi⟩ := Option.isSome_iff_exists.1 hsome
  obtain ⟨x, hx, ho⟩ := h.owners hi
  obtain ⟨y, hy, rfl⟩ := List.mem_map.1 hid
  obtain rfl := Option.some.inj ((hl.item?_of_mem hy).symm.trans hx)
  rw [hl.owned y hy] at ho
  rw [← h.sane.ordered.id_of_item? hi]
  exact List.mem_map_of_mem (hl'.mem_of_item? h.sane.ordered hi ho.symm)

/-- What is read of a list is what is left of it, in the same order. -/
theorem Thins.chain_filter (hs : s.Sane) (h : s.Thins k t) {p : ItemId → Bool}
    (hp : ∀ {id i}, s.store.item? k id = some i → (t.store.item? k id).isSome = p id) (owner : ExampleId) :
    ∃ c c' : Chain k, s.store.chain k owner = .ok c ∧ t.store.chain k owner = .ok c' ∧ c'.ids = c.ids.filter p := by
  obtain ⟨items, hl⟩ := hs.ordered.lists k owner
  obtain ⟨items', hl'⟩ := h.sane.ordered.lists k owner
  refine ⟨_, _, hl.chain_eq hs.ordered.sound, hl'.chain_eq h.sane.ordered.sound, (h.ids_eq hl hl').trans ?_⟩
  refine List.filter_congr fun id hid => ?_
  obtain ⟨i, hi, rfl⟩ := List.mem_map.1 hid
  exact hp (hl.item?_of_mem hi)

/-- Where no row was lost, every list has the rows it had. -/
theorem Thins.chain_of_kept (hs : s.Sane) (h : s.Thins k t)
    (hkept : ∀ {id i}, s.store.item? k id = some i → (t.store.item? k id).isSome = true) (owner : ExampleId) :
    ∃ c c' : Chain k, s.store.chain k owner = .ok c ∧ t.store.chain k owner = .ok c' ∧ c'.ids = c.ids := by
  obtain ⟨c, c', hc, hc', hids⟩ := h.chain_filter hs (p := fun _ => true) hkept owner
  exact ⟨c, c', hc, hc', by rw [hids, List.filter_true]⟩

/-! ## The two edits -/

/-- **Changing a row** in its place is refused if the row was made to fail, and changes no other. -/
theorem thins_modify (hs : s.Sane) (limit : Nat) {edit : Item k → Except EngineError (Item k × Bool)}
    (hedit : Sure edit) (hx : s.store.item? k id = some x) (he : edit x = .ok (edited, true)) :
    (id ∈ s.store.failing ∧ ∃ e, s.run (Editing.modify limit id edit) = (.error (.store (.backend e)), s)) ∨
      id ∉ s.store.failing ∧ ∃ t, s.run (Editing.modify limit id edit) = (.ok edited, t) ∧ s.Thins k t ∧
        ∀ j, t.store.item? k j = if j = id then some edited else s.store.item? k j := by
  obtain ⟨items, h⟩ := hs.ordered.lists k x.owner
  rcases turned_modify hs limit hedit hx he h with hrefused | ⟨hfree, t, hrun, ht⟩
  · exact Or.inl hrefused
  · have hid : edited.id = id := (hedit.inPlace x edited he).1.trans (hs.ordered.id_of_item? hx)
    have hmem : edited.id ∈ idsOf items := by
      rw [(hedit.inPlace x edited he).1]
      exact List.mem_map_of_mem (h.mem_of_item? hs.ordered hx rfl)
    refine Or.inr ⟨hfree, t, hrun, ht.thins hs (by rw [idsOf_replaced]), fun j => ?_⟩
    rw [ht.turned.item?_replace h hmem, hid]

/-- **Taking a row out** is refused if the row is pinned, and leads the rows of its list past it. -/
theorem thins_remove (hs : s.Sane) (limit : Nat) (hx : s.store.item? k id = some x) :
    (s.store.Pinned x ∧ ∃ e, s.run (Editing.remove limit k id) = (.error (.store (.backend e)), s)) ∨
      ¬ s.store.Pinned x ∧ ∃ t, s.run (Editing.remove limit k id) = (.ok x, t) ∧ s.Thins k t ∧
        ∀ j, t.store.item? k j = if j = id then none
          else (s.store.item? k j).map fun i => if i.owner = x.owner then x.past i else i := by
  obtain ⟨items, h⟩ := hs.ordered.lists k x.owner
  obtain rfl : x.id = id := hs.ordered.id_of_item? hx
  have hmem := h.mem_of_item? hs.ordered hx rfl
  obtain ⟨sp, hsp, -, hc⟩ := commits_remove hs.ordered limit hx h
  have hpinned := Store.blocked_remove_iff h hmem hsp
  rcases hc with ⟨hb, hrefused⟩ | ⟨hb, hrun, ht⟩
  · exact Or.inl ⟨hpinned.1 hb, hrefused⟩
  · refine Or.inr ⟨mt hpinned.2 hb, _, hrun, ht.thins hs ?_, ht.turned.item?_remove hs.ordered h hmem⟩
    rw [idsOf_link]
    exact List.filter_sublist.map _

end ExampleOverlay.Session
