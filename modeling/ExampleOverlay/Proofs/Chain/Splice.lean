import ExampleOverlay.Chain.Splice
import ExampleOverlay.Proofs.Chain.Linked
import Mathlib.Data.List.InsertIdx

/-!
# What splices make of a list

A splice *turns* linked rows into other linked rows when the rows stored and the rows left alone are
exactly the rows of the new list. Each edit is put in this form: appending, removing and moving relink
the rows in their new order, and a change of one row keeps the order as it is.
-/

namespace ExampleOverlay

open Chain

variable {k : Kind}

namespace Splice

/-- Storing and deleting the rows of a splice turns the linked rows `items` into the linked rows
`items'`. -/
structure Turns (s : Splice k) (items items' : List (Item k)) : Prop where
  linked : Linked items'
  nodup : (idsOf s.puts).Nodup
  disjoint : ∀ i ∈ s.puts, i.id ∉ s.deletes
  deleted : ∀ id ∈ s.deletes, id ∈ idsOf items
  mem : ∀ i, i ∈ items' ↔ i ∈ s.puts ∨ i ∈ items ∧ i.id ∉ s.deletes ∧ i.id ∉ idsOf s.puts

/-- Rows that are neither stored nor deleted stay, so it is enough to account for every row. -/
theorem Turns.of_subset {s : Splice k} {items items' : List (Item k)} (hl : Linked items')
    (hnd : (idsOf s.puts).Nodup) (hdel : ∀ id ∈ s.deletes, id ∈ idsOf items ∧ id ∉ idsOf items')
    (hputs : ∀ i ∈ s.puts, i ∈ items') (hnew : ∀ i ∈ items', i ∈ s.puts ∨ i ∈ items)
    (hold : ∀ i ∈ items, i ∈ items' ∨ i.id ∈ s.deletes ∨ i.id ∈ idsOf s.puts) : s.Turns items items' where
  linked := hl
  nodup := hnd
  disjoint i hi hd := (hdel _ hd).2 (List.mem_map_of_mem (hputs i hi))
  deleted id hd := (hdel id hd).1
  mem i := by
    constructor
    · intro hi
      by_cases hp : i ∈ s.puts
      · exact Or.inl hp
      · refine Or.inr ⟨(hnew i hi).resolve_left hp, fun hd => (hdel _ hd).2 (List.mem_map_of_mem hi),
          fun hid => ?_⟩
        obtain ⟨j, hj, hji⟩ := List.mem_map.1 hid
        exact hp (eq_of_id_eq hl.nodup (hputs j hj) hi hji ▸ hj)
    · rintro (hi | ⟨hi, hd, hid⟩)
      · exact hputs i hi
      · rcases hold i hi with h | h | h
        · exact h
        · exact absurd h hd
        · exact absurd h hid

end Splice

namespace Chain

/-! ## Relinking the end of a segment -/

theorem segment_concat (prev next : Option ItemId) (a : List (Item k)) (t : Item k) :
    segment prev next (a ++ [t]) =
      segment prev (some t.id) a ++ [{ t with prev := (a.getLast?.map (·.id)).or prev, next }] := by
  rw [segment_append, segment_singleton]
  rfl

/-- Linking a segment on to another row changes its last row alone. -/
theorem segment_next {prev next next' : Option ItemId} {a : List (Item k)} (h : segment prev next a = a) :
    segment prev next' a = a.dropLast ++ (a.getLast?.map fun i => { i with next := next' }).toList := by
  rcases List.eq_nil_or_concat' a with rfl | ⟨b, t, rfl⟩
  · rfl
  · rw [segment_concat] at h ⊢
    obtain ⟨hb, ht⟩ := List.append_inj h (by simp)
    rw [List.cons.injEq] at ht
    have hprev : t.prev = (b.getLast?.map (·.id)).or prev := by rw [← ht.1]
    rw [hb, List.dropLast_concat, List.getLast?_concat]
    simp [hprev]

/-- Linking a segment back to another row changes its first row alone. -/
theorem segment_prev {prev prev' next : Option ItemId} {b : List (Item k)} (h : segment prev next b = b) :
    segment prev' next b = (b.head?.map fun i => { i with prev := prev' }).toList ++ b.tail := by
  cases b with
  | nil => rfl
  | cons i rest =>
    rw [segment, List.cons.injEq] at h
    have hnext : i.next = (rest.head?.map (·.id)).or next := by rw [← h.1]
    rw [segment, h.2]
    simp [hnext]

theorem mem_dropLast_or {a : List (Item k)} {i : Item k} (hi : i ∈ a) :
    i ∈ a.dropLast ∨ a.getLast? = some i := by
  rcases List.eq_nil_or_concat' a with rfl | ⟨b, t, rfl⟩
  · cases hi
  · rw [List.dropLast_concat, List.getLast?_concat]
    exact (List.mem_append.1 hi).imp id fun ht => congrArg some (List.mem_singleton.1 ht).symm

theorem mem_tail_or {b : List (Item k)} {i : Item k} (hi : i ∈ b) : i ∈ b.tail ∨ b.head? = some i := by
  cases b with
  | nil => cases hi
  | cons j rest => exact (List.mem_cons.1 hi).symm.imp id fun hj => congrArg some hj.symm

/-! ## Appending -/

/-- **Appending rows** relinks the list with the rows at its end. -/
theorem appendAll_turns {c : Chain k} {new : List (Item k)} (hl : Linked c.items)
    (hnd : (idsOf (c.items ++ new)).Nodup) :
    (c.appendAll new).Turns c.items (link none (c.items ++ new)) := by
  have hlinked := linked_link hnd
  cases new with
  | nil =>
    have e : link none (c.items ++ []) = c.items := by rw [List.append_nil, hl.links]
    rw [e] at hlinked ⊢
    exact .of_subset hl List.nodup_nil (by simp [appendAll]) (by simp [appendAll]) (fun i hi => Or.inr hi)
      fun i hi => Or.inl hi
  | cons first rest =>
    -- the old rows but the last, then the rows stored: the last with a new link, and the new ones
    have e : link none (c.items ++ first :: rest) = c.items.dropLast ++ (c.appendAll (first :: rest)).puts := by
      rw [link_eq_segment, segment_append, segment_next hl.segment_eq, List.append_assoc]
      congr 1
      simp [appendAll, tail?, link_eq_segment]
    have hids : idsOf (c.appendAll (first :: rest)).puts =
        idsOf (c.items.getLast?.toList ++ first :: rest) := by
      simp only [appendAll, idsOf, List.map_append, tail?]
      congr 1
      · cases c.items.getLast? <;> rfl
      · exact idsOf_link _ _
    refine .of_subset hlinked ?_ (by simp [appendAll]) (fun i hi => ?_) (fun i hi => ?_) fun i hi => ?_
    · have := hlinked.nodup
      rw [e, idsOf, List.map_append] at this
      exact (List.nodup_append.1 this).2.1
    · rw [e]; exact List.mem_append_right _ hi
    · rw [e] at hi
      rcases List.mem_append.1 hi with hi | hi
      · exact Or.inr ((List.dropLast_sublist _).subset hi)
      · exact Or.inl hi
    · rw [e, hids]
      rcases mem_dropLast_or hi with hi | hi
      · exact Or.inl (List.mem_append_left _ hi)
      · exact Or.inr (Or.inr (by simp [idsOf, hi]))

/-! ## Removing -/

theorem position?_of_split {c : Chain k} {a b : List (Item k)} {x : Item k} (hc : c.items = a ++ x :: b)
    (hnd : (idsOf c.items).Nodup) : c.position? x.id = some a.length := by
  rw [hc, idsOf, List.map_append, List.nodup_append] at hnd
  rw [position?, hc, List.findIdx?_append]
  have ha : a.findIdx? (·.id == x.id) = none := by
    rw [List.findIdx?_eq_none_iff]
    intro i hi
    simpa using hnd.2.2 i.id (List.mem_map_of_mem hi) x.id (by simp)
  rw [ha, List.findIdx?_cons]
  simp

theorem remove?_of_split {c : Chain k} {a b : List (Item k)} {x : Item k} (hc : c.items = a ++ x :: b)
    (hnd : (idsOf c.items).Nodup) : c.remove? x.id = some
      { puts := (a.getLast?.map fun i => { i with next := b.head?.map (·.id) }).toList ++
          (b.head?.map fun i => { i with prev := a.getLast?.map (·.id) }).toList
        deletes := [x.id] } := by
  have hbefore : (if a.length = 0 then none else c.items[a.length - 1]?) = a.getLast? := by
    rcases List.eq_nil_or_concat' a with rfl | ⟨a', t, rfl⟩
    · rfl
    · simp [hc]
  have hafter : c.items[a.length + 1]? = b.head? := by
    rw [hc, List.getElem?_append_right (by omega)]
    simp [List.head?_eq_getElem?]
  rw [remove?, position?_of_split hc hnd]
  simp only [hbefore, hafter]

theorem remove?_eq_none_iff {c : Chain k} {id : ItemId} : c.remove? id = none ↔ id ∉ idsOf c.items := by
  unfold remove?
  split
  next h => simpa [position?, idsOf] using h
  next place h =>
    have : id ∈ idsOf c.items := by
      obtain ⟨hlt, hid, -⟩ := List.findIdx?_eq_some_iff_getElem.1 h
      exact List.mem_map.2 ⟨_, List.getElem_mem hlt, by simpa using hid⟩
    simpa using this

theorem mem_of_remove?_eq_some {c : Chain k} {id : ItemId} {s : Splice k} (h : c.remove? id = some s) :
    id ∈ idsOf c.items := by
  by_contra hnot
  rw [remove?_eq_none_iff.2 hnot] at h
  cases h

theorem others_of_split {c : Chain k} {a b : List (Item k)} {x : Item k} (hc : c.items = a ++ x :: b)
    (hnd : (idsOf c.items).Nodup) : c.others x.id = a ++ b := by
  simp only [hc, idsOf, List.map_append, List.map_cons, List.nodup_append, List.nodup_cons, List.mem_map,
    List.mem_cons] at hnd
  rw [others, hc, List.filter_append, List.filter_cons_of_neg (by simp)]
  congr 1
  · exact List.filter_eq_self.2 fun i hi => by simpa using hnd.2.2 i.id ⟨i, hi, rfl⟩ x.id (Or.inl rfl)
  · exact List.filter_eq_self.2 fun i hi => by
      simp only [bne_iff_ne, ne_eq]
      exact fun h => hnd.2.1.1 ⟨i, hi, h⟩

/-- Where a row is gone, its neighbours are linked to each other and the rest is left alone. -/
theorem link_gap {a b : List (Item k)} {x : Item k} (hl : Linked (a ++ x :: b)) : link none (a ++ b) =
    (a.dropLast ++ (a.getLast?.map fun i => { i with next := b.head?.map (·.id) }).toList) ++
      ((b.head?.map fun i => { i with prev := a.getLast?.map (·.id) }).toList ++ b.tail) := by
  obtain ⟨ha, hxb⟩ := hl.append_parts
  rw [segment, List.cons.injEq] at hxb
  rw [link_eq_segment, segment_append, segment_next ha, segment_prev hxb.2, Option.or_none, Option.or_none]

/-- **Removing a row** relinks the others. -/
theorem remove?_turns {c : Chain k} {id : ItemId} (hl : Linked c.items) (hid : id ∈ idsOf c.items) :
    ∃ s, c.remove? id = some s ∧ s.deletes = [id] ∧ s.Turns c.items (link none (c.others id)) := by
  obtain ⟨x, hx, rfl⟩ := List.mem_map.1 hid
  obtain ⟨a, b, hc⟩ := List.append_of_mem hx
  have hsplit := others_of_split hc hl.nodup
  refine ⟨_, remove?_of_split hc hl.nodup, rfl, ?_⟩
  have hnd' : (idsOf (a ++ b)).Nodup := by
    refine hl.nodup.sublist ?_
    rw [hc]
    exact List.Sublist.map _ ((List.sublist_cons_self x b).append_left a)
  have e := link_gap (hc ▸ hl)
  rw [hsplit]
  have hlinked := linked_link hnd'
  refine .of_subset hlinked ?_ ?_ ?_ ?_ ?_
  · have := hlinked.nodup
    rw [e] at this
    refine this.sublist (List.Sublist.map _ ?_)
    exact (List.sublist_append_right _ _).append (List.sublist_append_left _ _)
  · intro id hd
    obtain rfl := List.mem_singleton.1 hd
    refine ⟨hid, ?_⟩
    rw [idsOf_link, ← hsplit]
    simp [others, idsOf]
  · intro i hi
    rw [e]
    rcases List.mem_append.1 hi with hi | hi
    · exact List.mem_append_left _ (List.mem_append_right _ hi)
    · exact List.mem_append_right _ (List.mem_append_left _ hi)
  · intro i hi
    rw [e] at hi
    rw [hc]
    rcases List.mem_append.1 hi with hi | hi <;> rcases List.mem_append.1 hi with hi | hi
    · exact Or.inr (List.mem_append_left _ ((List.dropLast_sublist _).subset hi))
    · exact Or.inl (List.mem_append_left _ hi)
    · exact Or.inl (List.mem_append_right _ hi)
    · exact Or.inr (List.mem_append_right _ (List.mem_cons_of_mem _ (List.mem_of_mem_tail hi)))
  · intro i hi
    rw [e]
    rw [hc] at hi
    rcases List.mem_append.1 hi with hi | hi
    · rcases mem_dropLast_or hi with hi | hi
      · exact Or.inl (List.mem_append_left _ (List.mem_append_left _ hi))
      · exact Or.inr (Or.inr (by simp [idsOf, hi]))
    · rcases List.mem_cons.1 hi with rfl | hi
      · exact Or.inr (Or.inl (List.mem_singleton_self _))
      · rcases mem_tail_or hi with hi | hi
        · exact Or.inl (List.mem_append_right _ (List.mem_append_right _ hi))
        · exact Or.inr (Or.inr (by simp [idsOf, hi]))

/-! ## Moving -/

theorem id_eq_of_mem_zip_link : ∀ {order : List (Item k)} {prev : Option ItemId} {i j : Item k},
    (i, j) ∈ order.zip (link prev order) → i.id = j.id
  | [], _, _, _, h => by simp at h
  | x :: rest, prev, i, j, h => by
    rw [link, List.zip_cons_cons, List.mem_cons] at h
    rcases h with h | h
    · obtain ⟨rfl, rfl⟩ := Prod.mk.inj h; rfl
    · exact id_eq_of_mem_zip_link h

/-- A new order is reached by storing the rows whose links it changes. -/
theorem relinked_turns {items order : List (Item k)} (hl : Linked items) (hperm : order.Perm items) :
    Splice.Turns { puts := relinked order } items (link none order) := by
  have hnd : (idsOf order).Nodup := ((hperm.map (·.id)).nodup_iff).2 hl.nodup
  have hlen : order.length = (link none order).length := (length_link none order).symm
  have hputs : ∀ j, j ∈ relinked order ↔ ∃ i, (i, j) ∈ order.zip (link none order) ∧ i ≠ j := by
    intro j
    simp [relinked, and_comm]
  refine .of_subset (linked_link hnd) ?_ (by simp) (fun j hj => ?_) (fun j hj => ?_) fun i hi => ?_
  · have hsub : (relinked order).Sublist ((order.zip (link none order)).map (·.2)) :=
      (List.filter_sublist ..).map _
    rw [List.map_snd_zip (Nat.le_of_eq hlen.symm)] at hsub
    exact (linked_link hnd).nodup.sublist (hsub.map _)
  · obtain ⟨i, hij, -⟩ := (hputs j).1 hj
    exact (List.of_mem_zip hij).2
  · obtain ⟨n, hn, rfl⟩ := List.getElem_of_mem hj
    have hij : (order[n], (link none order)[n]) ∈ order.zip (link none order) := by
      rw [← List.getElem_zip (h := by simpa [← hlen] using hn)]
      exact List.getElem_mem _
    by_cases h : order[n] = (link none order)[n]
    · exact Or.inr (h ▸ hperm.subset (List.of_mem_zip hij).1)
    · exact Or.inl ((hputs _).2 ⟨_, hij, h⟩)
  · obtain ⟨n, hn, rfl⟩ := List.getElem_of_mem (hperm.symm.subset hi)
    have hij : (order[n], (link none order)[n]) ∈ order.zip (link none order) := by
      rw [← List.getElem_zip (h := by simpa [← hlen] using hn)]
      exact List.getElem_mem _
    by_cases h : order[n] = (link none order)[n]
    · exact Or.inl (h ▸ (List.of_mem_zip hij).2)
    · refine Or.inr (Or.inr ?_)
      rw [id_eq_of_mem_zip_link hij]
      exact List.mem_map_of_mem ((hputs _).2 ⟨_, hij, h⟩)

/-- The order that a move gives to the rows of a chain: the row moved is taken out and put back next
to its target. -/
def moved (c : Chain k) (moving : Item k) (target : ItemId) (side : Side) : List (Item k) :=
  let anchor := (c.others moving.id).findIdx (·.id == target)
  (c.others moving.id).insertIdx (match side with | .before => anchor | .after => anchor + 1) moving

theorem moved_perm {c : Chain k} {moving : Item k} (hl : Linked c.items) (hm : moving ∈ c.items)
    {target : ItemId} (ht : target ∈ idsOf (c.others moving.id)) (side : Side) :
    (c.moved moving target side).Perm c.items := by
  obtain ⟨a, b, hc⟩ := List.append_of_mem hm
  have hlt : (c.others moving.id).findIdx (·.id == target) < (c.others moving.id).length := by
    rw [List.findIdx_lt_length]
    obtain ⟨i, hi, rfl⟩ := List.mem_map.1 ht
    exact ⟨i, hi, by simp⟩
  have hins : (c.moved moving target side).Perm (moving :: c.others moving.id) := by
    unfold moved
    cases side with
    | before => exact List.perm_insertIdx _ _ (Nat.le_of_lt hlt)
    | after => exact List.perm_insertIdx _ _ hlt
  refine hins.trans ?_
  rw [others_of_split hc hl.nodup, hc]
  exact List.perm_middle.symm

/-- **A move** is planned for two different rows of the list, and stores the rows whose links the new
order changes. -/
theorem move_eq {c : Chain k} {id target : ItemId} (side : Side) (hne : id ≠ target) :
    (∃ moving ∈ c.items, moving.id = id ∧ target ∈ idsOf c.items ∧ target ∈ idsOf (c.others id) ∧
      c.move id target side = .ok { puts := relinked (c.moved moving target side) }) ∨
    id ∉ idsOf c.items ∧ c.move id target side = .error (.exampleMismatch k id c.owner) ∨
    id ∈ idsOf c.items ∧ target ∉ idsOf c.items ∧
      c.move id target side = .error (.invalidTarget target c.owner) := by
  unfold move
  rw [if_neg hne]
  cases hget : c.get? id with
  | none => exact Or.inr (Or.inl ⟨find?_id_eq_none.1 hget, rfl⟩)
  | some moving =>
    have hm : moving ∈ c.items := List.mem_of_find?_eq_some hget
    obtain rfl : moving.id = id := by simpa using List.find?_some hget
    have hothers : target ∈ idsOf (c.others moving.id) ↔ target ∈ idsOf c.items := by
      simp only [others, idsOf, List.mem_map, List.mem_filter, bne_iff_ne, ne_eq]
      constructor
      · rintro ⟨i, ⟨hi, -⟩, rfl⟩; exact ⟨i, hi, rfl⟩
      · rintro ⟨i, hi, rfl⟩; exact ⟨i, ⟨hi, fun h => hne h.symm⟩, rfl⟩
    cases hfind : (c.others moving.id).findIdx? (·.id == target) with
    | none =>
      have ht : target ∉ idsOf c.items := by
        rw [← hothers]
        simpa [idsOf] using hfind
      exact Or.inr (Or.inr ⟨List.mem_map_of_mem hm, ht, rfl⟩)
    | some anchor =>
      have hanchor : (c.others moving.id).findIdx (·.id == target) = anchor :=
        (List.findIdx?_eq_some_iff_findIdx_eq.1 hfind).2
      have ht : target ∈ idsOf (c.others moving.id) := by
        obtain ⟨hlt, hid, -⟩ := List.findIdx?_eq_some_iff_getElem.1 hfind
        exact List.mem_map.2 ⟨_, List.getElem_mem hlt, by simpa using hid⟩
      exact Or.inl ⟨moving, hm, rfl, hothers.1 ht, ht, by subst hanchor; rfl⟩

/-! ## Changing a row in its place -/

/-- A change of rows that leaves their places alone keeps them linked. -/
theorem segment_map {f : Item k → Item k} : ∀ {items : List (Item k)} {prev next : Option ItemId},
    (∀ i ∈ items, (f i).id = i.id ∧ (f i).prev = i.prev ∧ (f i).next = i.next) →
    segment prev next items = items → segment prev next (items.map f) = items.map f
  | [], _, _, _, _ => rfl
  | i :: rest, prev, next, hf, h => by
    rw [segment, List.cons.injEq] at h
    obtain ⟨hid, hprev, hnext⟩ := hf i (by simp)
    have hp : i.prev = prev := by rw [← h.1]
    have hn : i.next = (rest.head?.map (·.id)).or next := by rw [← h.1]
    have hrest := segment_map (fun j hj => hf j (List.mem_cons_of_mem _ hj)) h.2
    have hhead : (rest.map f).head?.map (·.id) = rest.head?.map (·.id) := by
      cases rest with
      | nil => rfl
      | cons j rest => simp [(hf j (by simp)).1]
    rw [List.map_cons, segment, hhead, hid, hrest, ← hn, ← hnext, ← hp, ← hprev, ← hid]

/-- The rows with one of them replaced. -/
def replaced (items : List (Item k)) (edited : Item k) : List (Item k) :=
  items.map fun i => if i.id = edited.id then edited else i

@[simp] theorem idsOf_replaced (items : List (Item k)) (edited : Item k) :
    idsOf (replaced items edited) = idsOf items := by
  rw [idsOf, replaced, List.map_map]
  refine List.map_congr_left fun i _ => ?_
  by_cases h : i.id = edited.id <;> simp [h]

/-- **Storing one row anew** in its old place keeps the list as it stands. -/
theorem replaced_turns {items : List (Item k)} {x edited : Item k} (hl : Linked items) (hx : x ∈ items)
    (hid : edited.id = x.id) (hprev : edited.prev = x.prev) (hnext : edited.next = x.next) :
    Splice.Turns { puts := [edited] } items (replaced items edited) := by
  have hsame : ∀ i ∈ items, i.id = edited.id → i = x := fun i hi h => eq_of_id_eq hl.nodup hi hx (h.trans hid)
  have hplace : ∀ i ∈ items, (if i.id = edited.id then edited else i).id = i.id ∧
      (if i.id = edited.id then edited else i).prev = i.prev ∧
      (if i.id = edited.id then edited else i).next = i.next := by
    intro i hi
    split
    next h => rw [hsame i hi h]; exact ⟨hid, hprev, hnext⟩
    · exact ⟨rfl, rfl, rfl⟩
  have hlinked : Linked (replaced items edited) :=
    ⟨by rw [link_eq_segment]; exact segment_map hplace hl.segment_eq, by rw [idsOf_replaced]; exact hl.nodup⟩
  refine .of_subset hlinked (by simp) (by simp) (fun i hi => ?_) (fun i hi => ?_) fun i hi => ?_
  · obtain rfl := List.mem_singleton.1 hi
    exact List.mem_map.2 ⟨x, hx, if_pos hid.symm⟩
  · obtain ⟨j, hj, rfl⟩ := List.mem_map.1 hi
    by_cases h : j.id = edited.id
    · simp [h]
    · simp [h, hj]
  · by_cases h : i.id = edited.id
    · exact Or.inr (Or.inr (by simp [h]))
    · exact Or.inl (List.mem_map.2 ⟨i, hi, if_neg h⟩)

end Chain

end ExampleOverlay
