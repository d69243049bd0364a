import ExampleOverlay.Proofs.Chain.Stored

/-!
# Moves

A move erases a row and inserts it again next to its target (`reinsert`). Two neighbouring blocks of the list
change places by that, one of which is the row alone (`reinsert_swaps`), so links change only where blocks meet:
at most five rows are stored anew (`length_relinked_le`), and none exactly if the row stands next to its target
already (`relinked_eq_nil_iff_standsBeside`). Main statement: `Chain.move_reinserts`.
-/

namespace ExampleOverlay

open Chain

variable {k : Kind}

/-- Puts a row next to another, if there is one of that id. -/
def insertNextTo (row : Item k) (target : ItemId) (side : Side) : List (Item k) → Option (List (Item k))
  | [] => none
  | i :: rest =>
    if i.id = target then some (if side = .before then row :: i :: rest else i :: row :: rest)
    else (insertNextTo row target side rest).map (i :: ·)

/-- Erases a row and inserts it again next to another. -/
def reinsert (id target : ItemId) (side : Side) (rows : List (Item k)) : Option (List (Item k)) := do
  let row ← rows.find? (·.id == id)
  insertNextTo row target side (rows.filter (·.id != id))

/-! ## What is inserted anew says what it said -/

theorem map_bare_filter (rows : List (Item k)) (id : ItemId) :
    (rows.filter (·.id != id)).map Item.bare = (rows.map Item.bare).filter (·.id != id) := by
  rw [List.filter_map]
  rfl

theorem insertNextTo_map_bare (row : Item k) (target : ItemId) (side : Side) : ∀ rows : List (Item k),
    (insertNextTo row target side rows).map (List.map Item.bare) =
      insertNextTo row.bare target side (rows.map Item.bare)
  | [] => rfl
  | i :: rest => by
    rw [List.map_cons, insertNextTo, insertNextTo, Item.bare_id, ← insertNextTo_map_bare row target side rest]
    split
    · cases side <;> rfl
    · cases insertNextTo row target side rest <;> rfl

/-- Where a row is inserted does not depend on the links. -/
theorem reinsert_map_bare (id target : ItemId) (side : Side) (rows : List (Item k)) :
    (reinsert id target side rows).map (List.map Item.bare) = reinsert id target side (rows.map Item.bare) := by
  have hfind : (rows.map Item.bare).find? (·.id == id) = (rows.find? (·.id == id)).map Item.bare := by
    rw [List.find?_map]
    rfl
  rw [reinsert, reinsert, hfind, ← map_bare_filter]
  cases rows.find? (·.id == id) with
  | none => rfl
  | some row => exact insertNextTo_map_bare row target side _

/-! ## Where a row is inserted -/

/-- A row on one side of another. -/
def beside (row target : Item k) : Side → List (Item k)
  | .before => [row, target]
  | .after => [target, row]

theorem insertNextTo_append {row t : Item k} (side : Side) {b : List (Item k)} : ∀ {a : List (Item k)},
    t.id ∉ idsOf a → insertNextTo row t.id side (a ++ t :: b) = some (a ++ (beside row t side ++ b))
  | [], _ => by
    rw [List.nil_append, insertNextTo, if_pos rfl]
    cases side <;> rfl
  | i :: a, h => by
    rw [idsOf, List.map_cons, List.mem_cons, not_or] at h
    rw [List.cons_append, insertNextTo, if_neg (Ne.symm h.1), insertNextTo_append side h.2]
    rfl

theorem insertNextTo_eq_some {row : Item k} {target : ItemId} (side : Side) : ∀ {rows : List (Item k)},
    target ∈ idsOf rows → insertNextTo row target side rows = some (rows.insertIdx
      (match side with
        | .before => rows.findIdx (·.id == target)
        | .after => rows.findIdx (·.id == target) + 1) row)
  | [], h => absurd h List.not_mem_nil
  | i :: rest, h => by
    rw [insertNextTo]
    by_cases hi : i.id = target
    · rw [if_pos hi, List.findIdx_cons, beq_iff_eq.2 hi]
      cases side <;> rfl
    · have hrest : target ∈ idsOf rest := (List.mem_cons.1 h).resolve_left (Ne.symm hi)
      rw [if_neg hi, insertNextTo_eq_some side hrest, List.findIdx_cons, beq_eq_false_iff_ne.2 hi]
      cases side <;> rfl

theorem insertNextTo_eq_none {row : Item k} {target : ItemId} {side : Side} : ∀ {rows : List (Item k)},
    target ∉ idsOf rows → insertNextTo row target side rows = none
  | [], _ => rfl
  | i :: rest, h => by
    rw [idsOf, List.map_cons, List.mem_cons, not_or] at h
    rw [insertNextTo, if_neg (Ne.symm h.1), insertNextTo_eq_none h.2]
    rfl

/-- A row that is inserted stands next to its target, and the others stand as they stood. -/
theorem insertNextTo_cases {row : Item k} {target : ItemId} {side : Side} : ∀ {rows order : List (Item k)},
    insertNextTo row target side rows = some order →
    ∃ a t b, rows = a ++ t :: b ∧ t.id = target ∧ order = a ++ (beside row t side ++ b)
  | [], _, h => by cases h
  | i :: rest, order, h => by
    rw [insertNextTo] at h
    split at h
    next hi =>
      refine ⟨[], i, rest, rfl, hi, ?_⟩
      rw [← Option.some.inj h]
      cases side <;> rfl
    next =>
      obtain ⟨order', h', rfl⟩ := Option.map_eq_some_iff.1 h
      obtain ⟨a, t, b, rfl, ht, rfl⟩ := insertNextTo_cases h'
      exact ⟨i :: a, t, b, rfl, ht, rfl⟩

variable {items order a b : List (Item k)} {x : Item k} {id target : ItemId} {side : Side}

theorem filter_ne_of_split (h : (idsOf (a ++ x :: b)).Nodup) : (a ++ x :: b).filter (·.id != x.id) = a ++ b :=
  others_of_split (c := ⟨⟨0⟩, 0, a ++ x :: b⟩) rfl h

/-! ## Blocks that change places -/

/-- **A row that is erased and inserted again** changes places with the rows in between. -/
theorem reinsert_swaps (hnd : (idsOf items).Nodup) (h : reinsert id target side items = some order) :
    ∃ a m n b, items = a ++ (m ++ (n ++ b)) ∧ order = a ++ (n ++ (m ++ b)) ∧ (m.length = 1 ∨ n.length = 1) := by
  obtain ⟨x, hx, h⟩ := Option.bind_eq_some_iff.1 h
  obtain rfl : x.id = id := by simpa using List.find?_some hx
  obtain ⟨p, q, rfl⟩ := List.append_of_mem (List.mem_of_find?_eq_some hx)
  rw [filter_ne_of_split hnd] at h
  -- the row goes between `u` and `v`
  obtain ⟨u, v, hpq, rfl⟩ : ∃ u v, p ++ q = u ++ v ∧ order = u ++ x :: v := by
    obtain ⟨a, t, b, hrows, -, rfl⟩ := insertNextTo_cases h
    cases side with
    | before => exact ⟨a, t :: b, hrows, rfl⟩
    | after => exact ⟨a ++ [t], b, by simp [hrows], by simp [beside]⟩
  rcases List.append_eq_append_iff.1 hpq with ⟨m, rfl, rfl⟩ | ⟨m, rfl, rfl⟩
  · exact ⟨p, [x], m, v, rfl, by simp, Or.inl rfl⟩
  · exact ⟨u, m, [x], q, by simp, rfl, Or.inr rfl⟩

theorem reinsert_perm (hnd : (idsOf items).Nodup) (h : reinsert id target side items = some order) :
    order.Perm items := by
  obtain ⟨a, m, n, b, rfl, rfl, -⟩ := reinsert_swaps hnd h
  exact (List.perm_append_comm_assoc n m b).append_left a

namespace Chain

/-! ## Rows whose links change -/

/-- In how many places two lists of rows differ. -/
def changes (old new : List (Item k)) : Nat := (old.zip new).countP fun p => p.1 != p.2

theorem length_relinked (order : List (Item k)) : (relinked order).length = changes order (link none order) := by
  rw [relinked, List.length_map, changes, List.countP_eq_length_filter]

theorem changes_append {a a' b b' : List (Item k)} (h : a.length = a'.length) :
    changes (a ++ b) (a' ++ b') = changes a a' + changes b b' := by
  rw [changes, List.zip_append h, List.countP_append]
  rfl

theorem changes_le_length (old new : List (Item k)) : changes old new ≤ old.length := by
  refine (List.countP_le_length).trans ?_
  rw [List.length_zip]
  exact Nat.min_le_left _ _

theorem changes_cons (i j : Item k) (a b : List (Item k)) :
    changes (i :: a) (j :: b) = changes a b + if i = j then 0 else 1 := by
  rw [changes, List.zip_cons_cons, List.countP_cons, changes]
  by_cases h : i = j <;> simp [h]

theorem changes_cons_relinked (i : Item k) (prev next : Option ItemId) (a b : List (Item k)) :
    changes (i :: a) ({ i with prev, next } :: b) =
      changes a b + if i.prev = prev ∧ i.next = next then 0 else 1 := by
  have h : i = { i with prev, next } ↔ i.prev = prev ∧ i.next = next := eq_comm.trans Item.relinked_eq_iff
  simp only [changes_cons, h]

/-- Nothing changes exactly if the rows are the same. -/
theorem changes_eq_zero_iff : ∀ {old new : List (Item k)}, old.length = new.length →
    (changes old new = 0 ↔ new = old)
  | [], [], _ => by simp [changes]
  | i :: a, j :: b, h => by
    rw [List.length_cons, List.length_cons, Nat.add_right_cancel_iff] at h
    rw [changes_cons, Nat.add_eq_zero_iff, changes_eq_zero_iff h, List.cons.injEq]
    simp [and_comm, eq_comm]

theorem changes_nil (new : List (Item k)) : changes [] new = 0 := by simp [changes]

/-- A block that is linked to other rows changes at its ends alone, and only where it is linked anew. -/
theorem changes_segment : ∀ {items : List (Item k)} {prev next : Option ItemId} (prev' next' : Option ItemId),
    segment prev next items = items → changes items (segment prev' next' items) ≤
      (if prev = prev' then 0 else 1) + if next = next' then 0 else 1
  | [], _, _, _, _, _ => by simp [changes_nil]
  | [i], prev, next, prev', next', h => by
    obtain ⟨rfl, rfl⟩ : i.prev = prev ∧ i.next = next := by simpa [segment_eq_iff] using h
    rw [segment_singleton, changes_cons_relinked, changes_nil]
    by_cases hp : i.prev = prev' <;> by_cases hn : i.next = next' <;> simp [hp, hn]
  | i :: j :: rest, prev, next, prev', next', h => by
    rw [segment, List.cons.injEq, Item.relinked_eq_iff] at h
    obtain ⟨⟨rfl, hnext⟩, hrest⟩ := h
    have ih := changes_segment (some i.id) next' hrest
    rw [segment, changes_cons_relinked, hnext]
    simp only [List.head?_cons, Option.map_some, Option.some_or, and_true, if_true] at ih ⊢
    omega

/-- Rows that are linked to each other can be cut into parts that are. -/
theorem exists_segment_parts {prev next : Option ItemId} {a b : List (Item k)}
    (h : segment prev next (a ++ b) = a ++ b) :
    ∃ next' prev', segment prev next' a = a ∧ segment prev' next b = b := by
  rw [segment_append] at h
  obtain ⟨ha, hb⟩ := List.append_inj h (by simp)
  exact ⟨_, _, ha, hb⟩

theorem exists_segment_append (prev next : Option ItemId) (a b : List (Item k)) :
    ∃ next' prev', segment prev next (a ++ b) = segment prev next' a ++ segment prev' next b :=
  ⟨_, _, segment_append prev next a b⟩

/-- Where two blocks change places, the rows before them change at their end, those after them at their start,
and the blocks at both of their ends. -/
theorem changes_swap {a m n b : List (Item k)} (h : Linked (a ++ (m ++ (n ++ b))))
    (hone : m.length = 1 ∨ n.length = 1) :
    changes (a ++ (n ++ (m ++ b))) (link none (a ++ (n ++ (m ++ b)))) ≤ 5 := by
  obtain ⟨_, _, ha, h⟩ := exists_segment_parts h.segment_eq
  obtain ⟨_, _, hm, h⟩ := exists_segment_parts h
  obtain ⟨_, _, hn, hb⟩ := exists_segment_parts h
  obtain ⟨aNext, nPrev, ea⟩ := exists_segment_append none none a (n ++ (m ++ b))
  obtain ⟨nNext, mPrev, en⟩ := exists_segment_append nPrev none n (m ++ b)
  obtain ⟨mNext, bPrev, em⟩ := exists_segment_append mPrev none m b
  rw [link_eq_segment, ea, en, em, changes_append (by simp), changes_append (by simp),
    changes_append (by simp)]
  have hend : ∀ p q : Option ItemId, (if p = q then 0 else 1) ≤ 1 := fun p q => by split <;> omega
  have hfirst : changes a (segment none aNext a) ≤ 1 := (changes_segment none aNext ha).trans (by simp [hend])
  have hlast : changes b (segment bPrev none b) ≤ 1 := (changes_segment bPrev none hb).trans (by simp [hend])
  have hblock : ∀ {block : List (Item k)} {prev next : Option ItemId} (prev' next' : Option ItemId),
      segment prev next block = block → changes block (segment prev' next' block) ≤ 2 :=
    fun prev' next' h => (changes_segment prev' next' h).trans (Nat.add_le_add (hend _ _) (hend _ _))
  have hn2 := hblock nPrev nNext hn
  have hm2 := hblock mPrev mNext hm
  have hnlen := changes_le_length n (segment nPrev nNext n)
  have hmlen := changes_le_length m (segment mPrev mNext m)
  omega

/-- **A move stores at most five rows**: the row moved and its neighbours, old and new. -/
theorem length_relinked_le (hl : Linked items) (h : reinsert id target side items = some order) :
    (relinked order).length ≤ 5 := by
  obtain ⟨a, m, n, b, rfl, rfl, hone⟩ := reinsert_swaps hl.nodup h
  rw [length_relinked]
  exact changes_swap hl hone

/-! ## Rows that stand in their place -/

/-- No link changes exactly if the rows stand in that order already. -/
theorem relinked_eq_nil_iff (hl : Linked items) (hperm : order.Perm items) : relinked order = [] ↔ order = items := by
  have hlen : order.length = (link none order).length := (length_link none order).symm
  rw [← List.length_eq_zero_iff, length_relinked, changes_eq_zero_iff hlen]
  constructor
  · intro h
    exact Linked.eq_of_perm ⟨h, (hperm.map (·.id)).nodup_iff.2 hl.nodup⟩ hl hperm
  · rintro rfl
    exact hl.links

/-- The row of one id stands directly before or after the row of another. -/
def StandsBeside (items : List (Item k)) (id target : ItemId) : Side → Prop
  | .before => [id, target] <:+: idsOf items
  | .after => [target, id] <:+: idsOf items

theorem standsBeside_iff : StandsBeside items id target side ↔
    ∃ a x t b, items = a ++ (beside x t side ++ b) ∧ x.id = id ∧ t.id = target := by
  constructor
  · intro h
    have hpair : ∀ {p q : ItemId}, [p, q] <:+: idsOf items →
        ∃ a i j b, items = a ++ ([i, j] ++ b) ∧ i.id = p ∧ j.id = q := by
      rintro p q ⟨s, t, h⟩
      obtain ⟨u, b, rfl, hu, -⟩ := List.map_eq_append_iff.1 h.symm
      obtain ⟨a, v, rfl, -, hv⟩ := List.map_eq_append_iff.1 hu
      obtain ⟨i, w, rfl, hi, hw⟩ := List.map_eq_cons_iff.1 hv
      obtain ⟨j, z, rfl, hj, hz⟩ := List.map_eq_cons_iff.1 hw
      obtain rfl := List.map_eq_nil_iff.1 hz
      exact ⟨a, i, j, b, by simp, hi, hj⟩
    cases side with
    | before => exact hpair h
    | after =>
      obtain ⟨a, t, x, b, hitems, ht, hx⟩ := hpair h
      exact ⟨a, x, t, b, hitems, hx, ht⟩
  · rintro ⟨a, x, t, b, rfl, rfl, rfl⟩
    cases side <;> exact ⟨idsOf a, idsOf b, by simp [beside, idsOf]⟩

/-- A row that stands beside its target is inserted where it was erased. -/
theorem reinsert_of_standsBeside (hnd : (idsOf items).Nodup) (h : StandsBeside items id target side) :
    reinsert id target side items = some items := by
  obtain ⟨a, x, t, b, rfl, rfl, rfl⟩ := standsBeside_iff.1 h
  have hx : x ∈ beside x t side := by cases side <;> simp [beside]
  have ht : t ∈ beside x t side := by cases side <;> simp [beside]
  have hfind := find?_id_of_mem hnd (List.mem_append_right a (List.mem_append_left b hx))
  have hfilter : (a ++ (beside x t side ++ b)).filter (·.id != x.id) = a ++ t :: b := by
    cases side with
    | before => exact filter_ne_of_split hnd
    | after =>
      have hsplit : a ++ (beside x t .after ++ b) = (a ++ [t]) ++ x :: b := by simp [beside]
      rw [hsplit] at hnd ⊢
      rw [filter_ne_of_split hnd, List.append_assoc]
      rfl
  have hnew : t.id ∉ idsOf a := by
    rw [idsOf, List.map_append, List.nodup_append] at hnd
    intro hmem
    exact hnd.2.2 _ hmem _ (List.mem_map_of_mem (List.mem_append_left b ht)) rfl
  rw [reinsert, hfind, hfilter]
  exact insertNextTo_append side hnew

theorem standsBeside_of_reinsert (h : reinsert id target side items = some order) :
    StandsBeside order id target side := by
  obtain ⟨x, hx, hinsert⟩ := Option.bind_eq_some_iff.1 h
  obtain ⟨a, t, b, -, ht, horder⟩ := insertNextTo_cases hinsert
  exact standsBeside_iff.2 ⟨a, x, t, b, horder, by simpa using List.find?_some hx, ht⟩

/-- **A move stores nothing exactly if the row stands beside its target.** -/
theorem relinked_eq_nil_iff_standsBeside (hl : Linked items) (h : reinsert id target side items = some order) :
    relinked order = [] ↔ StandsBeside items id target side := by
  rw [relinked_eq_nil_iff hl (reinsert_perm hl.nodup h)]
  constructor
  · rintro rfl
    exact standsBeside_of_reinsert h
  · intro hstands
    exact Option.some.inj (h.symm.trans (reinsert_of_standsBeside hl.nodup hstands))

/-! ## Moves of a chain -/

variable {c : Chain k}

/-- A move that is planned stores the rows whose links change when the row is inserted again. -/
theorem reinsert_eq_moved (hnd : (idsOf c.items).Nodup) (hx : x ∈ c.items) (ht : target ∈ idsOf (c.others x.id)) :
    reinsert x.id target side c.items = some (c.moved x target side) := by
  rw [reinsert, find?_id_of_mem hnd hx]
  exact insertNextTo_eq_some side ht

/-- A move is planned to the order that inserting the row anew gives, and not planned where that fails. -/
theorem move_eq_reinsert {c : Chain k} (hl : Linked c.items) (id target : ItemId) (side : Side) :
    match reinsert id target side c.items with
    | none => ∃ e, c.move id target side = .error e
    | some order => id ≠ target ∧ (∃ moving ∈ c.items, moving.id = id) ∧ order.Perm c.items ∧
        c.move id target side = .ok { puts := relinked order } := by
  have herased : ∀ {a b : ItemId}, a ∉ idsOf c.items ∨ a = b → a ∉ idsOf (c.items.filter (·.id != b)) := by
    rintro a b h hmem
    obtain ⟨i, hi, rfl⟩ := List.mem_map.1 hmem
    obtain ⟨hi, hne⟩ := List.mem_filter.1 hi
    rcases h with h | rfl
    · exact h (List.mem_map_of_mem hi)
    · simp at hne
  have hnone : ∀ {a b : ItemId}, a ∉ idsOf c.items ∨ a = b → reinsert b a side c.items = none := by
    intro a b h
    rw [reinsert]
    cases c.items.find? (·.id == b) with
    | none => rfl
    | some row => exact insertNextTo_eq_none (herased h)
  by_cases hne : id = target
  · rw [hnone (Or.inr hne.symm)]
    exact ⟨_, if_pos hne⟩
  rcases move_eq (c := c) side hne with ⟨moving, hm, rfl, -, hto, hmove⟩ | ⟨hid, hmove⟩ | ⟨-, ht, hmove⟩
  · rw [reinsert_eq_moved hl.nodup hm hto]
    exact ⟨hne, ⟨moving, hm, rfl⟩, moved_perm hl hm hto side, hmove⟩
  · rw [reinsert, find?_id_eq_none.2 hid]
    exact ⟨_, hmove⟩
  · rw [hnone (Or.inl ht)]
    exact ⟨_, hmove⟩

/-- What is promised of the splice of a move: it deletes nothing and stores at most five rows, none exactly if the
row stands beside its target; it leads to the list with the row erased and inserted again next to its target,
where no row says anything else; and there the same move has nothing left to store. -/
structure Relocates (c : Chain k) (id target : ItemId) (side : Side) (splice : Splice k) : Prop where
  deletes : splice.deletes = []
  puts : splice.puts.length ≤ 5
  idle : splice.isEmpty = true ↔ StandsBeside c.items id target side
  leads : ∀ version, ∃ order c', reinsert id target side c.items = some order ∧ c'.version = version ∧
    splice.Leads c c' ∧ c'.items.map Item.bare = order.map Item.bare ∧ c'.move id target side = .ok {}

theorem isEmpty_eq_true_iff {puts : List (Item k)} : Splice.isEmpty { puts := puts } = true ↔ puts = [] := by
  simp [Splice.isEmpty]

/-- Where a row stands beside its target, the move has nothing to store. -/
theorem move_eq_nothing (hl : Linked c.items) (h : StandsBeside c.items id target side) :
    c.move id target side = .ok {} := by
  have hmove := move_eq_reinsert hl id target side
  have hself := reinsert_of_standsBeside hl.nodup h
  rw [hself] at hmove
  obtain ⟨-, -, -, hmove⟩ := hmove
  rw [hmove, (relinked_eq_nil_iff_standsBeside hl hself).2 h]

theorem relocates_of_reinsert (hl : Linked c.items) (howner : ∀ i ∈ c.items, i.owner = c.owner)
    (h : reinsert id target side c.items = some order) :
    c.Relocates id target side { puts := relinked order } where
  deletes := rfl
  puts := length_relinked_le hl h
  idle := isEmpty_eq_true_iff.trans (relinked_eq_nil_iff_standsBeside hl h)
  leads version := by
    have hperm := reinsert_perm hl.nodup h
    have hturns := relinked_turns hl hperm
    have hstands : StandsBeside (link none order) id target side := by
      have := standsBeside_of_reinsert h
      unfold StandsBeside at this ⊢
      rwa [idsOf_link]
    refine ⟨order, _, h, rfl, hturns.leads hl (owner_of_mem_link fun i hi => howner i (hperm.subset hi)) version,
      link_map_bare none order, ?_⟩
    exact move_eq_nothing hturns.linked hstands

/-- **A move is an erasure and an insertion.** In a chain that was found a row cannot be moved next to itself, nor one
that is not in the list, nor to a target that is not; any other move is planned, stores at most five rows and
leads to the list with the row inserted again next to its target. -/
theorem move_reinserts {owner : ExampleId} {version : Nat} {rows : List (Item k)}
    (hc : ofRows owner version rows = .ok c) (id target : ItemId) (side : Side) :
    (id = target → c.move id target side = .error (.selfReferentialMove id)) ∧
    (id ≠ target → id ∉ idsOf c.items → c.move id target side = .error (.exampleMismatch k id owner)) ∧
    (id ≠ target → id ∈ idsOf c.items → target ∉ idsOf c.items →
      c.move id target side = .error (.invalidTarget target owner)) ∧
    (id ≠ target → id ∈ idsOf c.items → target ∈ idsOf c.items →
      ∃ splice, c.move id target side = .ok splice ∧ c.Relocates id target side splice) := by
  obtain ⟨rfl, -, hperm, hl, howner⟩ := ofRows_eq_ok_iff.1 hc
  refine ⟨fun h => if_pos h, fun hne hid => ?_, fun hne hid ht => ?_, fun hne hid ht => ?_⟩ <;>
    rcases move_eq (c := c) side hne with ⟨x, hx, rfl, hmem, hto, hmove⟩ | ⟨hnot, hmove⟩ | ⟨hin, hnot, hmove⟩
  · exact absurd (List.mem_map_of_mem hx) hid
  · exact hmove
  · exact absurd hin hid
  · exact absurd hmem ht
  · exact absurd hid hnot
  · exact hmove
  · exact ⟨_, hmove, relocates_of_reinsert hl (fun i hi => howner i (hperm.subset hi))
      (reinsert_eq_moved hl.nodup hx hto)⟩
  · exact absurd hid hnot
  · exact absurd ht hnot

/-- The last of three headers is put first. -/
theorem move_reinserts_shuffled : ∃ c splice, ofRows ⟨100⟩ 7 shuffled = .ok c ∧ idsOf c.items = [⟨1⟩, ⟨3⟩, ⟨2⟩] ∧
    c.move ⟨2⟩ ⟨1⟩ .before = .ok splice ∧ splice.puts.length = 3 ∧ c.Relocates ⟨2⟩ ⟨1⟩ .before splice := by
  have hc : ofRows ⟨100⟩ 7 shuffled = .ok _ := rfl
  obtain ⟨-, -, -, hmoves⟩ := move_reinserts hc ⟨2⟩ ⟨1⟩ .before
  obtain ⟨splice, hsplice, hrelocates⟩ := hmoves (by decide) (by decide) (by decide)
  refine ⟨_, splice, rfl, by decide, hsplice, ?_, hrelocates⟩
  rw [← Except.ok.inj hsplice]
  decide

end Chain

end ExampleOverlay
