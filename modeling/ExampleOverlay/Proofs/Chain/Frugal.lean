import ExampleOverlay.Proofs.Chain.Moves

/-!
# Splices store what changes

A splice stores the rows whose links change and no others, each of them once, and says nothing new of them but their
links (`Splice.Frugal`). Appending and removing pick those rows by hand and a move compares all links, but each of
them puts the rows into a new order; a splice that turns the rows into an order stores what changes as soon as it
stores no row as it stood (`Splice.Turns.frugal`). Main statement: `Chain.splices_frugal`.
-/

namespace ExampleOverlay

open Chain

variable {k : Kind}

namespace Splice

/-- The splice leads from the rows of a chain, and new ones behind them, to the rows `after`. It stores just those whose
links are others then, and changes nothing else of them. -/
structure Frugal (s : Splice k) (c : Chain k) (new after : List (Item k)) : Prop where
  arranged : Arranged after
  applied : after.Perm (s.applyTo c.items)
  found : (∀ i ∈ new, i.owner = c.owner) → ∀ version, s.Leads c ⟨c.owner, version, after⟩
  once : (idsOf s.puts ++ s.deletes).Nodup
  survives : ∀ i ∈ c.items, i.id ∈ idsOf after ↔ i.id ∉ s.deletes
  stored : ∀ i ∈ c.items, ∀ j ∈ after, j.id = i.id →
    (i.id ∈ idsOf s.puts ↔ j.prev ≠ i.prev ∨ j.next ≠ i.next)
  appended : ∀ i ∈ new, i.id ∈ idsOf s.puts
  lasting : s.puts ⊆ after
  unaltered : ∀ p ∈ s.puts, ∃ i ∈ c.items ++ new, p.bare = i.bare

variable {s : Splice k} {items items' : List (Item k)} {c : Chain k}

/-- No id is both stored and deleted, nor either of them twice. -/
theorem Turns.once (h : s.Turns items items') (hdeletes : s.deletes.Nodup) : (idsOf s.puts ++ s.deletes).Nodup := by
  refine List.nodup_append.2 ⟨h.nodup, hdeletes, ?_⟩
  rintro id hid _ hid' rfl
  obtain ⟨p, hp, rfl⟩ := List.mem_map.1 hid
  exact h.disjoint p hp hid'

/-- A row is there after a splice just if the splice does not delete it. -/
theorem Turns.mem_idsOf_iff (h : s.Turns items items') {i : Item k} (hi : i ∈ items) :
    i.id ∈ idsOf items' ↔ i.id ∉ s.deletes := by
  constructor
  · intro hid
    obtain ⟨j, hj, hji⟩ := List.mem_map.1 hid
    rw [← hji]
    rcases (h.mem j).1 hj with hput | ⟨-, hkept, -⟩
    · exact h.disjoint j hput
    · exact hkept
  · intro hkept
    by_cases hid : i.id ∈ idsOf s.puts
    · obtain ⟨p, hp, hpi⟩ := List.mem_map.1 hid
      exact List.mem_map.2 ⟨p, (h.mem p).2 (Or.inl hp), hpi⟩
    · exact List.mem_map_of_mem ((h.mem i).2 (Or.inr ⟨hi, hkept, hid⟩))

/-- **A row is stored just if its links change**, where no row is stored as it stood and the row says what it said. -/
theorem Turns.mem_puts_iff (h : s.Turns items items') (hnd : (idsOf items).Nodup) (hidle : ∀ p ∈ s.puts, p ∉ items)
    {i j : Item k} (hi : i ∈ items) (hj : j ∈ items') (hid : j.id = i.id) (hbare : j.bare = i.bare) :
    i.id ∈ idsOf s.puts ↔ j.prev ≠ i.prev ∨ j.next ≠ i.next := by
  constructor
  · intro hput
    obtain ⟨p, hp, hpi⟩ := List.mem_map.1 hput
    obtain rfl : p = j := eq_of_id_eq h.linked.nodup ((h.mem p).2 (Or.inl hp)) hj (hpi.trans hid.symm)
    by_contra hsame
    rw [not_or, not_not, not_not] at hsame
    exact hidle p hp (Item.eq_of_bare_eq hbare hsame.1 hsame.2 ▸ hi)
  · intro hchange
    rcases (h.mem j).1 hj with hput | ⟨hold, -, -⟩
    · exact hid ▸ List.mem_map_of_mem hput
    · -- a row that is left alone has the links that it had
      obtain rfl := eq_of_id_eq hnd hold hi hid
      simp at hchange

/-- **A splice that puts the rows of a chain and new ones into an order** stores what changes if it stores no row as it
stood. -/
theorem Turns.frugal {new order : List (Item k)} (h : s.Turns c.items (link none order)) (hl : Linked c.items)
    (howner : ∀ i ∈ c.items, i.owner = c.owner) (hids : (idsOf (c.items ++ new)).Nodup)
    (horder : order ⊆ c.items ++ new) (hnew : new ⊆ order) (hdeletes : s.deletes.Nodup)
    (hidle : ∀ p ∈ s.puts, p ∉ c.items) : s.Frugal c new (link none order) where
  arranged := (linked_iff.1 h.linked).1
  applied := (h.applyTo_perm hl.nodup).symm
  found hnewOwner version := by
    refine h.leads hl (owner_of_mem_link fun i hi => ?_) version
    exact (List.mem_append.1 (horder hi)).elim (howner i) (hnewOwner i)
  once := h.once hdeletes
  survives i hi := h.mem_idsOf_iff hi
  stored i hi j hj hid := by
    obtain ⟨i', hi', hbare⟩ := List.mem_map.1 (bare_mem_link hj)
    obtain rfl : i' = i :=
      eq_of_id_eq hids (horder hi') (List.mem_append_left _ hi) ((Item.id_eq_of_bare_eq hbare).trans hid)
    exact h.mem_puts_iff hl.nodup hidle hi hj hid hbare.symm
  appended i hi := by
    obtain ⟨j, hj, hji⟩ := exists_bare_mem_link none (hnew hi)
    have hid : j.id = i.id := Item.id_eq_of_bare_eq hji
    rcases (h.mem j).1 hj with hput | ⟨hold, -, -⟩
    · exact hid ▸ List.mem_map_of_mem hput
    · rw [idsOf, List.map_append, List.nodup_append] at hids
      exact absurd hid (hids.2.2 _ (List.mem_map_of_mem hold) _ (List.mem_map_of_mem hi))
  lasting p hp := (h.mem p).2 (Or.inl hp)
  unaltered p hp := by
    obtain ⟨i, hi, hbare⟩ := List.mem_map.1 (bare_mem_link ((h.mem p).2 (Or.inl hp)))
    exact ⟨i, horder hi, hbare.symm⟩

end Splice

namespace Chain

variable {c : Chain k}

/-! ## No row is stored as it stood -/

/-- The last row gets a successor, and the new rows were not there. -/
theorem appendAll_idle {new : List (Item k)} (hl : Linked c.items) (hfresh : ∀ i ∈ new, i.id ∉ idsOf c.items) :
    ∀ p ∈ (c.appendAll new).puts, p ∉ c.items := by
  intro p hp hmem
  cases new with
  | nil => cases hp
  | cons first rest =>
    rcases List.mem_append.1 hp with hp | hp
    · obtain ⟨t, ht, rfl⟩ := Option.map_eq_some_iff.1 (Option.mem_toList.1 hp)
      obtain ⟨htail, hnone⟩ := hl.getLast?_eq_some_iff.1 ht
      have hsame : { t with next := some first.id } = t := eq_of_id_eq hl.nodup hmem htail rfl
      rw [← hsame] at hnone
      cases hnone
    · obtain ⟨i, hi, hip⟩ := List.mem_map.1 (bare_mem_link hp)
      exact hfresh i hi (Item.id_eq_of_bare_eq hip ▸ List.mem_map_of_mem hmem)

/-- The neighbours of a row that is removed named it, and they do so no more. -/
theorem remove?_idle {id : ItemId} {s : Splice k} (hl : Linked c.items) (hs : c.remove? id = some s) :
    ∀ p ∈ s.puts, p ∉ c.items := by
  obtain ⟨x, hx, rfl⟩ := List.mem_map.1 (mem_of_remove?_eq_some hs)
  obtain ⟨a, b, hc⟩ := List.append_of_mem hx
  rw [remove?_of_split hc hl.nodup] at hs
  obtain rfl := Option.some.inj hs
  have hadjacent := (linked_iff.1 hl).1.adjacent
  rw [hc] at hadjacent
  obtain ⟨-, hafter, hbefore⟩ := List.isChain_append.1 hadjacent
  obtain ⟨hxa, hxb⟩ := not_mem_of_split (hc ▸ hl.nodup)
  intro p hp hmem
  rcases List.mem_append.1 hp with hp | hp <;>
    obtain ⟨i, hi, rfl⟩ := Option.map_eq_some_iff.1 (Option.mem_toList.1 hp)
  · have hsame : { i with next := b.head?.map (·.id) } = i := by
      refine eq_of_id_eq hl.nodup hmem ?_ rfl
      rw [hc]
      exact List.mem_append_left _ (List.mem_of_getLast? hi)
    have hnext : i.next = some x.id := (hbefore i hi x rfl).1
    rw [← hsame] at hnext
    obtain ⟨j, hj, hjx⟩ := Option.map_eq_some_iff.1 hnext
    exact hxb (hjx ▸ List.mem_map_of_mem (List.mem_of_mem_head? hj))
  · have hsame : { i with prev := a.getLast?.map (·.id) } = i := by
      refine eq_of_id_eq hl.nodup hmem ?_ rfl
      rw [hc]
      exact List.mem_append_right _ (List.mem_cons_of_mem _ (List.mem_of_mem_head? hi))
    have hprev : i.prev = some x.id := ((List.isChain_cons.1 hafter).1 i hi).2
    rw [← hsame] at hprev
    obtain ⟨j, hj, hjx⟩ := Option.map_eq_some_iff.1 hprev
    exact hxa (hjx ▸ List.mem_map_of_mem (List.mem_of_getLast? hj))

/-- A move compares what it links with what was there. -/
theorem relinked_idle {items order : List (Item k)} (hl : Linked items) (hperm : order.Perm items) :
    ∀ p ∈ relinked order, p ∉ items := by
  intro p hp hmem
  obtain ⟨⟨i, j⟩, hij, rfl⟩ := List.mem_map.1 hp
  obtain ⟨hzip, hne⟩ := List.mem_filter.1 hij
  have hi : i ∈ items := hperm.subset (List.of_mem_zip hzip).1
  have hsame : i = j := eq_of_id_eq hl.nodup hi hmem (id_eq_of_mem_zip_link hzip)
  simp [hsame] at hne

/-! ## How many rows are stored -/

theorem length_appendAll_le (c : Chain k) (new : List (Item k)) : (c.appendAll new).puts.length ≤ new.length + 1 := by
  cases new with
  | nil => exact Nat.zero_le _
  | cons first rest =>
    have htail : (c.tail?.map fun t => { t with next := some first.id }).toList.length ≤ 1 := Option.length_toList_le
    simp only [appendAll, List.length_append, length_link]
    omega

theorem length_remove?_le {id : ItemId} {s : Splice k} (hs : c.remove? id = some s) : s.puts.length ≤ 2 := by
  rw [remove?] at hs
  split at hs
  · cases hs
  next place _ =>
    obtain rfl := Option.some.inj hs
    rw [List.length_append]
    exact Nat.add_le_add Option.length_toList_le Option.length_toList_le

/-! ## Main statement -/

/-- **A splice stores what changes.** Whatever is appended to a chain that was found, removed from it or moved in it,
the splice stores just the rows whose links are others in the chain that comes of it, each of them once, and alters
no other column: at most one row more than is appended, two for a removal and five for a move. Only a removal deletes,
and only its row. -/
theorem splices_frugal {owner : ExampleId} {version : Nat} {rows : List (Item k)}
    (hc : ofRows owner version rows = .ok c) :
    (∀ new : List (Item k), (idsOf new).Nodup → (∀ i ∈ new, i.id ∉ idsOf c.items) →
      (∃ after, (c.appendAll new).Frugal c new after) ∧
      (c.appendAll new).deletes = [] ∧ (c.appendAll new).puts.length ≤ new.length + 1) ∧
    (∀ id splice, c.remove? id = some splice →
      (∃ after, splice.Frugal c [] after) ∧ splice.deletes = [id] ∧ splice.puts.length ≤ 2) ∧
    ∀ id target side splice, c.move id target side = .ok splice →
      (∃ after, splice.Frugal c [] after) ∧ splice.deletes = [] ∧ splice.puts.length ≤ 5 := by
  obtain ⟨rfl, -, hperm, hl, hrows⟩ := ofRows_eq_ok_iff.1 hc
  have howner : ∀ i ∈ c.items, i.owner = c.owner := fun i hi => hrows i (hperm.subset hi)
  have hids : (idsOf (c.items ++ [])).Nodup := by
    rw [List.append_nil]
    exact hl.nodup
  refine ⟨fun new hnd hfresh => ?_, fun id splice hs => ?_, fun id target side splice hs => ?_⟩
  · have hids' := nodup_idsOf_append hl.nodup hnd hfresh
    have hdeletes : (c.appendAll new).deletes = [] := by cases new <;> rfl
    have hfrugal := (appendAll_turns hl hids').frugal hl howner hids' (List.Subset.refl _)
      (List.subset_append_right _ _) (hdeletes ▸ List.nodup_nil) (appendAll_idle hl hfresh)
    exact ⟨⟨_, hfrugal⟩, hdeletes, length_appendAll_le c new⟩
  · obtain ⟨s, hs', hdeletes, hturns⟩ := remove?_turns hl (mem_of_remove?_eq_some hs)
    obtain rfl : splice = s := Option.some.inj (hs.symm.trans hs')
    have horder : c.others id ⊆ c.items ++ [] := by
      rw [List.append_nil]
      exact List.filter_sublist.subset
    have hfrugal := hturns.frugal hl howner hids horder (List.nil_subset _)
      (hdeletes ▸ List.nodup_singleton _) (remove?_idle hl hs)
    exact ⟨⟨_, hfrugal⟩, hdeletes, length_remove?_le hs⟩
  · have hmove := move_eq_reinsert hl id target side
    cases hreinsert : reinsert id target side c.items with
    | none =>
      rw [hreinsert] at hmove
      obtain ⟨e, hmove⟩ := hmove
      rw [hs] at hmove
      cases hmove
    | some order =>
      rw [hreinsert] at hmove
      obtain ⟨-, -, horder, hmove⟩ := hmove
      obtain rfl := Except.ok.inj (hs.symm.trans hmove)
      have hsub : order ⊆ c.items ++ [] := by
        rw [List.append_nil]
        exact horder.subset
      have hfrugal := (relinked_turns hl horder).frugal hl howner hids hsub (List.nil_subset _) List.nodup_nil
        (relinked_idle hl horder)
      exact ⟨⟨_, hfrugal⟩, rfl, length_relinked_le hl hreinsert⟩

/-- To three headers a fourth is appended, the one in the middle is removed, and the last is put first. -/
theorem splices_frugal_shuffled : ∃ c, ofRows ⟨100⟩ 7 shuffled = .ok c ∧
    (∃ new after, idsOf (c.appendAll new).puts = [⟨2⟩, ⟨4⟩, ⟨5⟩] ∧ (c.appendAll new).Frugal c new after) ∧
    (∃ splice after, c.remove? ⟨3⟩ = some splice ∧ idsOf splice.puts = [⟨1⟩, ⟨2⟩] ∧ splice.Frugal c [] after) ∧
    ∃ splice after, c.move ⟨2⟩ ⟨1⟩ .before = .ok splice ∧ idsOf splice.puts = [⟨2⟩, ⟨1⟩, ⟨3⟩] ∧
      splice.Frugal c [] after := by
  have hc : ofRows ⟨100⟩ 7 shuffled = .ok _ := rfl
  obtain ⟨happend, hremove, hmove⟩ := splices_frugal hc
  obtain ⟨⟨after, hafter⟩, -⟩ := happend [Item.fresh ⟨4⟩ ⟨100⟩ (KeyValue.ofPair "d" "4"),
    Item.fresh ⟨5⟩ ⟨100⟩ (KeyValue.ofPair "e" "5")] (by decide) (by decide)
  obtain ⟨⟨after', hafter'⟩, -⟩ := hremove ⟨3⟩ _ rfl
  obtain ⟨⟨after'', hafter''⟩, -⟩ := hmove ⟨2⟩ ⟨1⟩ .before _ rfl
  exact ⟨_, rfl, ⟨_, after, by decide, hafter⟩, ⟨_, after', rfl, by decide, hafter'⟩,
    _, after'', rfl, by decide, hafter''⟩

end Chain

end ExampleOverlay
