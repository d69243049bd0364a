import ExampleOverlay.Proofs.Chain.Splice
import ExampleOverlay.Proofs.Chain.Walk
import Mathlib.Data.List.Chain

/-!
# Rows that their links arrange

Links spell out at most one order of the rows that carry them: the first row has no predecessor, the last
no successor, and any two next to each other name each other (`Arranged`). Rows are accepted exactly when
their links do spell out an order, in whatever order they were scanned, and the chain found has them in that
order and tells of nothing else. Main statement: `ofRows_arranges`.
-/

namespace ExampleOverlay

variable {k : Kind}

theorem Item.relinked_eq_iff {i : Item k} {prev next : Option ItemId} :
    { i with prev, next } = i ↔ i.prev = prev ∧ i.next = next := by
  constructor
  · intro h
    rw [← h]
    exact ⟨rfl, rfl⟩
  · rintro ⟨rfl, rfl⟩
    rfl

namespace Chain

/-- The rows stand in the order that their links spell out. -/
structure Arranged (order : List (Item k)) : Prop where
  first : ∀ i ∈ order.head?, i.prev = none
  adjacent : order.IsChain fun i j => i.next = some j.id ∧ j.prev = some i.id
  last : ∀ i ∈ order.getLast?, i.next = none

/-! ## Arranged rows are linked rows -/

theorem segment_eq_iff : ∀ {items : List (Item k)} {prev next : Option ItemId},
    segment prev next items = items ↔ (∀ i ∈ items.head?, i.prev = prev) ∧
      (items.IsChain fun i j => i.next = some j.id ∧ j.prev = some i.id) ∧ ∀ i ∈ items.getLast?, i.next = next
  | [], _, _ => by simp [segment]
  | [i], prev, next => by simp [segment, Item.relinked_eq_iff]
  | i :: j :: rest, prev, next => by
    rw [segment, List.cons.injEq, segment_eq_iff, Item.relinked_eq_iff, List.isChain_cons_cons,
      List.getLast?_cons_cons]
    simp only [List.head?_cons, Option.mem_some_iff, forall_eq', Option.map_some, Option.some_or]
    constructor
    · rintro ⟨⟨hprev, hnext⟩, hback, hrest⟩
      exact ⟨hprev, ⟨⟨hnext, hback⟩, hrest.1⟩, hrest.2⟩
    · rintro ⟨hprev, ⟨⟨hnext, hback⟩, hchain⟩, hlast⟩
      exact ⟨⟨hprev, hnext⟩, hback, hchain, hlast⟩

theorem linked_iff {items : List (Item k)} : Linked items ↔ Arranged items ∧ (idsOf items).Nodup := by
  constructor
  · intro h
    obtain ⟨hfirst, hadjacent, hlast⟩ := segment_eq_iff.1 h.segment_eq
    exact ⟨⟨hfirst, hadjacent, hlast⟩, h.nodup⟩
  · rintro ⟨h, hnd⟩
    refine ⟨?_, hnd⟩
    rw [link_eq_segment]
    exact segment_eq_iff.2 ⟨h.first, h.adjacent, h.last⟩

/-! ## The two ends -/

/-- Only the first row has no predecessor. -/
theorem Linked.head?_eq_some_iff {items : List (Item k)} (h : Linked items) {i : Item k} :
    items.head? = some i ↔ i ∈ items ∧ i.prev = none := by
  constructor
  · intro hi
    exact ⟨List.mem_of_head? hi, (linked_iff.1 h).1.first i hi⟩
  · rintro ⟨hi, hprev⟩
    cases items with
    | nil => cases hi
    | cons j rest =>
      have hmem : i ∈ (j :: rest).filter Item.isHead := List.mem_filter.2 ⟨hi, by simp [Item.isHead, hprev]⟩
      rw [h.filter_isHead, List.mem_singleton] at hmem
      rw [hmem, List.head?_cons]

/-- Only the last row has no successor. -/
theorem Linked.getLast?_eq_some_iff {items : List (Item k)} (h : Linked items) {i : Item k} :
    items.getLast? = some i ↔ i ∈ items ∧ i.next = none := by
  constructor
  · intro hi
    exact ⟨List.mem_of_getLast? hi, (linked_iff.1 h).1.last i hi⟩
  · rintro ⟨hi, hnext⟩
    obtain ⟨a, b, rfl⟩ := List.append_of_mem hi
    cases b with
    | nil => simp
    | cons j b =>
      -- a row that another one follows names it
      obtain ⟨-, ⟨hj, -⟩, -⟩ := List.isChain_append_cons_cons.1 (linked_iff.1 h).1.adjacent
      rw [hnext] at hj
      cases hj

/-! ## There is only one order -/

/-- **Links spell out one order**: the walk from the one row without a predecessor finds it. -/
theorem Linked.eq_of_perm {a b : List (Item k)} (ha : Linked a) (hb : Linked b) (h : a.Perm b) : a = b := by
  have hhead : a.head? = b.head? := by
    ext i
    rw [ha.head?_eq_some_iff, hb.head?_eq_some_iff, h.mem_iff]
  have hwalk : ∀ {c : List (Item k)}, Linked c → c.Perm b → walk b b.length [] (c.head?.map (·.id)) = .ok c := by
    intro c hc hperm
    exact walk_of_linked hb.nodup c [] b.length (fun i hi => hperm.subset hi) hc.segment_eq
      (by simpa using hc.nodup) (Nat.le_of_eq hperm.length_eq)
  have hfound := hwalk ha h
  rw [hhead, hwalk hb (.refl b)] at hfound
  exact (Except.ok.inj hfound).symm

/-! ## What is told of a chain -/

/-- The rows of a chain are the ones given, in the only order that their links spell out, and whatever is looked
up in the chain agrees with that order. -/
structure Orders (c : Chain k) (rows : List (Item k)) : Prop where
  arranged : ∀ order, order.Perm rows ∧ Arranged order ↔ order = c.items
  position : ∀ id n, c.position? id = some n ↔ (c.items[n]?).map (·.id) = some id
  row : ∀ id i, c.get? id = some i ↔ i ∈ rows ∧ i.id = id
  listed : ∀ id, c.contains id = true ↔ id ∈ idsOf rows
  head : ∀ i, c.head? = some i ↔ i ∈ rows ∧ i.prev = none
  tail : ∀ i, c.tail? = some i ↔ i ∈ rows ∧ i.next = none
  summary : c.summary =
    ⟨c.owner, rows.length, c.items.head?.map (·.id), c.items.getLast?.map (·.id), c.version⟩

variable {c : Chain k} {rows : List (Item k)}

theorem position?_eq_some_iff (hnd : (idsOf c.items).Nodup) {id : ItemId} {n : Nat} :
    c.position? id = some n ↔ (c.items[n]?).map (·.id) = some id := by
  constructor
  · intro h
    obtain ⟨hlt, hid, -⟩ := List.findIdx?_eq_some_iff_getElem.1 h
    rw [List.getElem?_eq_getElem hlt]
    simpa using hid
  · intro h
    obtain ⟨i, hi, rfl⟩ := Option.map_eq_some_iff.1 h
    obtain ⟨hlt, rfl⟩ := List.getElem?_eq_some_iff.1 hi
    have hsplit : c.items = c.items.take n ++ c.items[n] :: c.items.drop (n + 1) := by simp
    rw [position?_of_split hsplit hnd, List.length_take, Nat.min_eq_left (Nat.le_of_lt hlt)]

theorem orders_of_linked (hl : Linked c.items) (hperm : c.items.Perm rows) : c.Orders rows where
  arranged order := by
    constructor
    · rintro ⟨horder, harranged⟩
      have hnd : (idsOf order).Nodup := ((horder.trans hperm.symm).map (·.id)).nodup_iff.2 hl.nodup
      exact (linked_iff.2 ⟨harranged, hnd⟩).eq_of_perm hl (horder.trans hperm.symm)
    · rintro rfl
      exact ⟨hperm, (linked_iff.1 hl).1⟩
  position _ _ := position?_eq_some_iff hl.nodup
  row id i := by
    rw [← hperm.mem_iff]
    constructor
    · intro h
      exact ⟨List.mem_of_find?_eq_some h, by simpa using List.find?_some h⟩
    · rintro ⟨hi, rfl⟩
      exact find?_id_of_mem hl.nodup hi
  listed id := by
    rw [contains, List.any_eq_true, idsOf, List.mem_map]
    simp [hperm.mem_iff]
  head i := by rw [← hperm.mem_iff]; exact hl.head?_eq_some_iff
  tail i := by rw [← hperm.mem_iff]; exact hl.getLast?_eq_some_iff
  summary := by rw [Chain.summary, size, hperm.length_eq]; rfl

/-- **Rows make a chain exactly when their links arrange them**: they are all of the example, no two of them have
one id, and they can be put into an order in which each names its neighbours. The chain has them in that
order, which is the only one, and in whatever order the rows are scanned it is the same chain. -/
theorem ofRows_arranges (owner : ExampleId) (version : Nat) (rows : List (Item k)) :
    ((∃ c, ofRows owner version rows = .ok c) ↔
      (∀ i ∈ rows, i.owner = owner) ∧ (idsOf rows).Nodup ∧ ∃ order, order.Perm rows ∧ Arranged order) ∧
    ∀ c, ofRows owner version rows = .ok c → c.owner = owner ∧ c.version = version ∧ c.Orders rows ∧
      ∀ rows', rows'.Perm rows → ofRows owner version rows' = .ok c := by
  refine ⟨⟨?_, ?_⟩, fun c hc => ?_⟩
  · rintro ⟨c, hc⟩
    obtain ⟨-, -, hperm, hl, howner⟩ := ofRows_eq_ok_iff.1 hc
    exact ⟨howner, (hperm.map (·.id)).nodup_iff.1 hl.nodup, c.items, hperm, (linked_iff.1 hl).1⟩
  · rintro ⟨howner, hnd, order, hperm, harranged⟩
    have hl : Linked order := linked_iff.2 ⟨harranged, (hperm.map (·.id)).nodup_iff.2 hnd⟩
    exact ⟨_, ofRows_of_linked hperm hl howner⟩
  · obtain ⟨howner, hversion, hperm, hl, hrows⟩ := ofRows_eq_ok_iff.1 hc
    refine ⟨howner, hversion, orders_of_linked hl hperm, fun rows' hrows' => ?_⟩
    exact ofRows_eq_ok_iff.2
      ⟨howner, hversion, hperm.trans hrows'.symm, hl, fun i hi => hrows i (hrows'.subset hi)⟩

/-- Three headers, scanned in another order than their links spell out. -/
def shuffled : List (Item .header) := [
  { Item.fresh ⟨3⟩ ⟨100⟩ (KeyValue.ofPair "c" "3") with prev := some ⟨1⟩, next := some ⟨2⟩ },
  { Item.fresh ⟨2⟩ ⟨100⟩ (KeyValue.ofPair "b" "2") with prev := some ⟨3⟩ },
  { Item.fresh ⟨1⟩ ⟨100⟩ (KeyValue.ofPair "a" "1") with next := some ⟨3⟩ }]

theorem ofRows_arranges_shuffled : ∃ c, ofRows ⟨100⟩ 7 shuffled = .ok c ∧ idsOf c.items = [⟨1⟩, ⟨3⟩, ⟨2⟩] ∧
    c.Orders shuffled ∧ ofRows ⟨100⟩ 7 shuffled.reverse = .ok c := by
  obtain ⟨-, -, horders, hscan⟩ := (ofRows_arranges ⟨100⟩ 7 shuffled).2 _ rfl
  exact ⟨_, rfl, by decide, horders, hscan _ shuffled.reverse_perm⟩

end Chain

end ExampleOverlay
