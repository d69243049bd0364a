import ExampleOverlay.Proofs.Chain.Arranged

/-!
# Splices that are stored

The rows of a splice are stored in place of those of the same ids, and the list is scanned and walked again.
What is then found is the chain the splice was planned for, however the rows were scanned
(`Splice.Turns.leads`): new rows follow the old ones in the order given, and where a row was removed the others
keep their order (`Chain.ofRows_append_remove`). A splice stores rows that say what rows of the list or new ones
say, at other places (`Chain.bare_mem_appendAll`, `Chain.bare_mem_remove?`, `Chain.bare_mem_move`).
-/

namespace ExampleOverlay

open Chain

variable {k : Kind}

namespace Splice

/-! ## Storing rows -/

/-- Rows of different ids are stored, and those of other ids are left alone. -/
theorem mem_foldl_store : ∀ {puts rows : List (Item k)} {i : Item k}, (idsOf puts).Nodup →
    (i ∈ puts.foldl store rows ↔ i ∈ puts ∨ i ∈ rows ∧ i.id ∉ idsOf puts)
  | [], _, _, _ => by simp
  | p :: puts, rows, i, h => by
    rw [idsOf, List.map_cons, List.nodup_cons] at h
    have hp : i = p → i.id ∉ idsOf puts := by
      rintro rfl
      exact h.1
    rw [List.foldl_cons, mem_foldl_store h.2, store, List.mem_append, List.mem_filter, List.mem_singleton]
    simp only [idsOf, List.map_cons, List.mem_cons, bne_iff_ne, ne_eq, not_or]
    tauto

theorem nodup_foldl_store : ∀ {puts rows : List (Item k)}, (idsOf rows).Nodup →
    (idsOf (puts.foldl store rows)).Nodup
  | [], _, h => h
  | p :: puts, rows, h => by
    have hstore : (idsOf (store rows p)).Nodup := by
      rw [idsOf, store, List.map_append, List.nodup_append]
      refine ⟨h.sublist (List.filter_sublist.map _), by simp, ?_⟩
      intro id hid id' hid'
      obtain ⟨i, hi, rfl⟩ := List.mem_map.1 hid
      obtain rfl : id' = p.id := by simpa using hid'
      simpa using (List.mem_filter.1 hi).2
    rw [List.foldl_cons]
    exact nodup_foldl_store hstore

/-! ## The chain that is found then -/

variable {s : Splice k} {items items' : List (Item k)} {c c' : Chain k}

theorem Turns.applyTo_perm (h : s.Turns items items') (hnd : (idsOf items).Nodup) :
    (s.applyTo items).Perm items' := by
  unfold applyTo
  have hkept : (idsOf (items.filter fun i => !s.deletes.contains i.id)).Nodup :=
    hnd.sublist (List.filter_sublist.map _)
  refine (List.perm_ext_iff_of_nodup (.of_map _ (nodup_foldl_store hkept)) (.of_map _ h.linked.nodup)).2 fun i => ?_
  rw [h.mem, mem_foldl_store h.nodup]
  simp [List.mem_filter, and_assoc]

/-- Once the splice is stored over the rows of the one chain, the other is found at its version, in whatever
order the rows are scanned. -/
def Leads (s : Splice k) (c c' : Chain k) : Prop :=
  c'.owner = c.owner ∧ ∀ rows, rows.Perm (s.applyTo c.items) → ofRows c.owner c'.version rows = .ok c'

/-- **A splice leads to the rows that it turns the chain into.** -/
theorem Turns.leads (h : s.Turns c.items items') (hl : Linked c.items) (howner : ∀ i ∈ items', i.owner = c.owner)
    (version : Nat) : s.Leads c ⟨c.owner, version, items'⟩ := by
  refine ⟨rfl, fun rows hrows => ?_⟩
  have hperm : items'.Perm rows := (hrows.trans (h.applyTo_perm hl.nodup)).symm
  exact ofRows_of_linked hperm h.linked fun i hi => howner i (hperm.symm.subset hi)

end Splice

namespace Chain

/-! ## What the rows of a splice say -/

theorem bare_mem_appendAll {c : Chain k} {new : List (Item k)} {i : Item k} (hi : i ∈ (c.appendAll new).puts) :
    i.bare ∈ (c.items ++ new).map Item.bare := by
  rw [List.map_append, List.mem_append]
  cases new with
  | nil => cases hi
  | cons first rest =>
    rcases List.mem_append.1 hi with hi | hi
    · obtain ⟨t, ht, rfl⟩ := Option.map_eq_some_iff.1 (Option.mem_toList.1 hi)
      exact Or.inl (List.mem_map.2 ⟨t, List.mem_of_getLast? ht, rfl⟩)
    · exact Or.inr (bare_mem_link hi)

theorem bare_mem_remove? {c : Chain k} {id : ItemId} {s : Splice k} (hs : c.remove? id = some s) {i : Item k}
    (hi : i ∈ s.puts) : i.bare ∈ c.items.map Item.bare := by
  rw [remove?] at hs
  split at hs
  · cases hs
  next place _ =>
    obtain rfl := Option.some.inj hs
    rcases List.mem_append.1 hi with hi | hi <;>
      obtain ⟨j, hj, rfl⟩ := Option.map_eq_some_iff.1 (Option.mem_toList.1 hi)
    · split at hj
      · cases hj
      · exact List.mem_map.2 ⟨j, List.mem_of_getElem? hj, rfl⟩
    · exact List.mem_map.2 ⟨j, List.mem_of_getElem? hj, rfl⟩

theorem bare_mem_relinked {order : List (Item k)} {i : Item k} (hi : i ∈ relinked order) :
    i.bare ∈ order.map Item.bare := by
  obtain ⟨p, hp, rfl⟩ := List.mem_map.1 hi
  exact bare_mem_link (List.of_mem_zip (List.mem_filter.1 hp).1).2

theorem bare_mem_move {c : Chain k} {id target : ItemId} {side : Side} {s : Splice k}
    (hs : c.move id target side = .ok s) {i : Item k} (hi : i ∈ s.puts) : i.bare ∈ c.items.map Item.bare := by
  rw [move] at hs
  split at hs
  · cases hs
  split at hs
  · cases hs
  next moving hget =>
    split at hs
    · cases hs
    · obtain rfl := Except.ok.inj hs
      obtain ⟨j, hj, hji⟩ := List.mem_map.1 (bare_mem_relinked hi)
      refine List.mem_map.2 ⟨j, ?_, hji⟩
      rcases List.eq_or_mem_of_mem_insertIdx hj with rfl | hj
      · exact List.mem_of_find?_eq_some hget
      · exact List.mem_of_mem_filter hj

/-! ## Appending and removing -/

variable {c : Chain k}

/-- Rows that are linked in another order belong to the examples that they belonged to. -/
theorem owner_of_mem_link {order : List (Item k)} {owner : ExampleId} (h : ∀ i ∈ order, i.owner = owner) :
    ∀ i ∈ link none order, i.owner = owner := by
  intro i hi
  obtain ⟨j, hj, hji⟩ := List.mem_map.1 (bare_mem_link hi)
  exact (Item.bare_eq_iff.1 hji).2.1.symm.trans (h j hj)

/-- **Appending and removing keep one chain.** After rows of the example with new and different ids were appended
to a chain that was found, whatever their links, they follow its rows in the order given. A row is removed
exactly if it is there, and the others then stand as before. No row says anything else. -/
theorem ofRows_append_remove {owner : ExampleId} {version : Nat} {rows : List (Item k)}
    (hc : ofRows owner version rows = .ok c) (version' : Nat) :
    (∀ new : List (Item k), (∀ i ∈ new, i.owner = owner) → (idsOf new).Nodup →
      (∀ i ∈ new, i.id ∉ idsOf c.items) → ∃ c', c'.version = version' ∧ (c.appendAll new).Leads c c' ∧
        c'.items.map Item.bare = (c.items ++ new).map Item.bare) ∧
    ∀ id : ItemId, (c.remove? id = none ↔ id ∉ idsOf c.items) ∧
      ∀ splice, c.remove? id = some splice → ∃ c', c'.version = version' ∧ splice.Leads c c' ∧
        c'.items.map Item.bare = (c.items.filter (·.id != id)).map Item.bare := by
  obtain ⟨rfl, -, hperm, hl, howner⟩ := ofRows_eq_ok_iff.1 hc
  have hitems : ∀ i ∈ c.items, i.owner = c.owner := fun i hi => howner i (hperm.subset hi)
  constructor
  · intro new hnew hnd hfresh
    have hids : (idsOf (c.items ++ new)).Nodup := by
      rw [idsOf, List.map_append, List.nodup_append]
      refine ⟨hl.nodup, hnd, fun id hid id' hid' => ?_⟩
      obtain ⟨i, hi, rfl⟩ := List.mem_map.1 hid'
      rintro rfl
      exact hfresh i hi hid
    refine ⟨_, rfl, (appendAll_turns hl hids).leads hl (owner_of_mem_link fun i hi => ?_) version', ?_⟩
    · exact (List.mem_append.1 hi).elim (hitems i) (hnew i)
    · exact link_map_bare none _
  · intro id
    refine ⟨remove?_eq_none_iff, fun splice hsplice => ?_⟩
    have hid : id ∈ idsOf c.items := by
      by_contra h
      rw [remove?_eq_none_iff.2 h] at hsplice
      cases hsplice
    obtain ⟨s, hs, -, hturns⟩ := remove?_turns hl hid
    obtain rfl : splice = s := Option.some.inj (hsplice.symm.trans hs)
    refine ⟨_, rfl, hturns.leads hl (owner_of_mem_link fun i hi => ?_) version', ?_⟩
    · exact hitems i (List.mem_of_mem_filter hi)
    · exact link_map_bare none _

/-- A header whose links lead elsewhere is appended to three, and the one in the middle is removed. -/
theorem ofRows_append_remove_shuffled : ∃ c, ofRows ⟨100⟩ 7 shuffled = .ok c ∧
    (∃ c', (c.appendAll [{ Item.fresh ⟨4⟩ ⟨100⟩ (KeyValue.ofPair "d" "4") with prev := some ⟨9⟩ }]).Leads c c' ∧
      idsOf c'.items = [⟨1⟩, ⟨3⟩, ⟨2⟩, ⟨4⟩]) ∧
    ∃ splice c', c.remove? ⟨3⟩ = some splice ∧ splice.Leads c c' ∧ idsOf c'.items = [⟨1⟩, ⟨2⟩] := by
  have hc : ofRows ⟨100⟩ 7 shuffled = .ok _ := rfl
  have h := ofRows_append_remove hc 8
  obtain ⟨c', -, hleads, hbare⟩ := h.1
    [{ Item.fresh ⟨4⟩ ⟨100⟩ (KeyValue.ofPair "d" "4") with prev := some ⟨9⟩ }] (by decide) (by decide) (by decide)
  obtain ⟨d', -, hleads', hbare'⟩ := (h.2 ⟨3⟩).2 _ rfl
  exact ⟨_, rfl, ⟨c', hleads, (idsOf_eq_of_map_bare_eq hbare).trans (by decide)⟩,
    _, d', rfl, hleads', (idsOf_eq_of_map_bare_eq hbare').trans (by decide)⟩

end Chain

end ExampleOverlay
