import ExampleOverlay.Program
import ExampleOverlay.Proofs.Chain.Splice
import ExampleOverlay.Proofs.Chain.Walk
import ExampleOverlay.Proofs.Store.Table

/-!
# Lists in a store

A store *holds* linked rows for an example when they are exactly the rows stored for it; a store is
`Ordered` when its tables are sound and it holds a list for every example and kind. Reading a list
then gives the rows held (`Holds.chain_eq`). A splice planned on the list held and committed under its
version is let through unless one of its rows is made to fail, and then turns that list and touches no
other (`Holds.commit_eq`); planned under another version it is refused (`fault?_of_stale`).
-/

namespace ExampleOverlay

open Chain

variable {k : Kind}

/-! ## Records of items -/

theorem Record.ofItem_injective {i j : Item k} (h : Record.ofItem i = Record.ofItem j) : i = j := by
  have := congrArg (Record.toItem k) h
  simpa using this

theorem Record.toItems_map_ofItem : ∀ rows : List (Item k), Record.toItems k (rows.map Record.ofItem) = .ok rows
  | [] => rfl
  | i :: rows => by
    rw [Record.toItems, List.map_cons, List.mapM_cons, Record.toItem_ofItem]
    have ih := Record.toItems_map_ofItem rows
    rw [Record.toItems] at ih
    rw [ih]
    rfl

/-- Records that hold items are those of a list of items. -/
theorem Record.exists_map_ofItem : ∀ {rs : List Record}, (∀ r ∈ rs, ∃ i : Item k, Record.ofItem i = r) →
    ∃ rows : List (Item k), rs = rows.map Record.ofItem
  | [], _ => ⟨[], rfl⟩
  | r :: rs, h => by
    obtain ⟨i, rfl⟩ := h r (by simp)
    obtain ⟨rows, rfl⟩ := Record.exists_map_ofItem fun s hs => h s (List.mem_cons_of_mem _ hs)
    exact ⟨i :: rows, rfl⟩

namespace Store

/-! ## The lists held -/

/-- Every table is sound. -/
def Sound (s : Store) : Prop := ∀ kind, (s.table kind).Sound kind

/-- The version of a list. -/
def version (s : Store) (kind : Kind) (owner : ExampleId) : Nat := (s.table kind).version owner

/-- The list of an example as a client reads it. -/
def chain (s : Store) (k : Kind) (owner : ExampleId) : Except EngineError (Chain k) :=
  match Record.toItems k (s.scan k owner).records with
  | .error e => .error (.store (.record e))
  | .ok rows =>
    match Chain.ofRows owner (s.scan k owner).version rows with
    | .error fault => .error (.corruptList k owner fault)
    | .ok c => .ok c

/-- The rows stored for an example are these, linked in this order. -/
structure Holds (s : Store) (owner : ExampleId) (items : List (Item k)) : Prop where
  linked : Linked items
  owned : ∀ i ∈ items, i.owner = owner
  stored : ∀ r : Record, s.get? k r.id = some r ∧ r.owner = owner ↔ ∃ i ∈ items, Record.ofItem i = r

/-- Every example has a list of every kind. -/
structure Ordered (s : Store) : Prop where
  sound : s.Sound
  lists : ∀ (k : Kind) (owner : ExampleId), ∃ items : List (Item k), s.Holds owner items

theorem table_empty (kind : Kind) : Store.table {} kind = {} := PerKind.get_replicate _ _

theorem Sound.empty : Sound {} := fun kind => by rw [table_empty]; exact Table.Sound.empty kind

theorem Holds.empty (k : Kind) (owner : ExampleId) : Holds {} owner ([] : List (Item k)) :=
  ⟨Linked.nil, by simp, by simp [get?, table_empty]⟩

theorem Ordered.empty : Ordered {} where
  sound := Sound.empty
  lists k owner := ⟨[], .empty k owner⟩

variable {s s' : Store} {owner : ExampleId} {items items' : List (Item k)}

/-- Only the tables matter. -/
theorem Ordered.of_tables_eq (hs : s.Ordered) (h : s'.tables = s.tables) : s'.Ordered := by
  have ht : s'.table = s.table := funext fun kind => congrArg (·.get kind) h
  refine ⟨fun kind => by rw [ht]; exact hs.sound kind, fun k owner => ?_⟩
  obtain ⟨items, hl⟩ := hs.lists k owner
  refine ⟨items, hl.linked, hl.owned, fun r => ?_⟩
  rw [get?, ht]
  exact hl.stored r

theorem Holds.get?_of_mem (h : s.Holds owner items) {i : Item k} (hi : i ∈ items) :
    s.get? k i.id = some (Record.ofItem i) := ((h.stored (Record.ofItem i)).2 ⟨i, hi, rfl⟩).1

/-- A row of the example is in its list. -/
theorem Holds.mem_of_get? (h : s.Holds owner items) {i : Item k} (hi : s.get? k i.id = some (Record.ofItem i))
    (ho : i.owner = owner) : i ∈ items := by
  obtain ⟨j, hj, hji⟩ := (h.stored (Record.ofItem i)).1 ⟨hi, ho⟩
  exact Record.ofItem_injective hji ▸ hj

/-- What is stored in an ordered store are items. -/
theorem Ordered.exists_item (h : s.Ordered) {id : ItemId} {r : Record} (hr : s.get? k id = some r) :
    ∃ i : Item k, Record.ofItem i = r ∧ i.id = id := by
  obtain ⟨hid, -, -⟩ := (h.sound k).keyed hr
  obtain ⟨items, hl⟩ := h.lists k r.owner
  obtain ⟨i, -, hi⟩ := (hl.stored r).1 ⟨by rw [hid]; exact hr, rfl⟩
  exact ⟨i, hi, by rw [← hid, ← hi]; rfl⟩

theorem Holds.scan_perm (hs : s.Sound) (h : s.Holds owner items) :
    ∃ rows : List (Item k), (s.scan k owner).records = rows.map Record.ofItem ∧ items.Perm rows := by
  have hmem : ∀ r, r ∈ (s.scan k owner).records ↔ ∃ i ∈ items, Record.ofItem i = r := fun r =>
    (hs k).mem_ofOwner.trans (h.stored r)
  obtain ⟨rows, hrows⟩ : ∃ rows : List (Item k), (s.scan k owner).records = rows.map Record.ofItem :=
    Record.exists_map_ofItem fun r hr => by
      obtain ⟨i, -, hi⟩ := (hmem r).1 hr
      exact ⟨i, hi⟩
  refine ⟨rows, hrows, ?_⟩
  have hnd : (rows.map Record.ofItem).Nodup := hrows ▸ List.Nodup.of_map _ ((hs k).nodup_ofOwner owner)
  refine (List.perm_ext_iff_of_nodup (List.Nodup.of_map _ h.linked.nodup) (List.Nodup.of_map _ hnd)).2
    fun i => ?_
  have hi := hmem (Record.ofItem i)
  rw [hrows] at hi
  constructor
  · intro him
    obtain ⟨j, hj, hji⟩ := List.mem_map.1 (hi.2 ⟨i, him, rfl⟩)
    exact Record.ofItem_injective hji ▸ hj
  · intro him
    obtain ⟨j, hj, hji⟩ := hi.1 (List.mem_map_of_mem him)
    exact Record.ofItem_injective hji ▸ hj

/-- **Reading a list** gives the rows held. -/
theorem Holds.chain_eq (hs : s.Sound) (h : s.Holds owner items) :
    s.chain k owner = .ok ⟨owner, s.version k owner, items⟩ := by
  obtain ⟨rows, hrows, hperm⟩ := h.scan_perm hs
  have hof : Chain.ofRows owner (s.scan k owner).version rows = .ok ⟨owner, s.version k owner, items⟩ :=
    ofRows_eq_ok_iff.2 ⟨rfl, rfl, hperm, h.linked, fun i hi => h.owned i (hperm.symm.subset hi)⟩
  rw [chain, hrows, Record.toItems_map_ofItem]
  simp only [hof]

/-- The rows stored for every example make one chain, which a client reads. -/
def Intact (s : Store) : Prop := ∀ (k : Kind) (owner : ExampleId), ∃ c : Chain k, s.chain k owner = .ok c ∧
  (idsOf c.items).Nodup ∧
    ∀ (id : ItemId) (r : Record), s.get? k id = some r ∧ r.owner = owner ↔
      ∃ i ∈ c.items, i.id = id ∧ Record.ofItem i = r

theorem Ordered.intact (hs : s.Ordered) : s.Intact := by
  intro k owner
  obtain ⟨items, h⟩ := hs.lists k owner
  refine ⟨_, h.chain_eq hs.sound, h.linked.nodup, fun id r => ⟨?_, ?_⟩⟩
  · rintro ⟨hr, ho⟩
    obtain ⟨i, rfl, rfl⟩ := hs.exists_item hr
    exact ⟨i, h.mem_of_get? hr ho, rfl, rfl⟩
  · rintro ⟨i, hi, rfl, rfl⟩
    exact ⟨h.get?_of_mem hi, h.owned i hi⟩

/-- A list is held by what its scan gives, whatever else is stored. -/
theorem Holds.of_scan_eq (hs : s.Sound) (hs' : s'.Sound) (hscan : s'.scan k owner = s.scan k owner)
    (h : s.Holds owner items) : s'.Holds owner items where
  linked := h.linked
  owned := h.owned
  stored r := by
    rw [← h.stored r, get?, get?, ← (hs k).mem_ofOwner, ← (hs' k).mem_ofOwner]
    show r ∈ (s'.scan k owner).records ↔ r ∈ (s.scan k owner).records
    rw [hscan]

/-! ## Turning a list -/

/-- The list of one example was turned by one batch, and no other list was touched. -/
structure Turned (s s' : Store) (owner : ExampleId) (items items' : List (Item k)) : Prop where
  sound : s'.Sound
  holds : s'.Holds owner items'
  version : s'.version k owner = s.version k owner + 1
  versions : ∀ {owner'}, owner' ≠ owner → s'.version k owner' = s.version k owner'
  kinds : ∀ {k'}, k' ≠ k → s'.table k' = s.table k'
  rows : ∀ {id}, id ∉ idsOf items → id ∉ idsOf items' → s'.get? k id = s.get? k id
  gone : ∀ {id}, id ∈ idsOf items → id ∉ idsOf items' → s'.get? k id = none
  fresh : ∀ {id}, id ∈ idsOf items' → id ∉ idsOf items → s.get? k id = none
  failing : s'.failing = s.failing
  commits : s'.commits = s.commits + 1

/-- A row of another example is in no list of this one. -/
theorem Holds.not_mem_of_get? (h : s.Holds owner items) {id : ItemId} {r : Record} (hr : s.get? k id = some r)
    (ho : r.owner ≠ owner) : id ∉ idsOf items := by
  intro hid
  obtain ⟨i, hi, rfl⟩ := List.mem_map.1 hid
  rw [h.get?_of_mem hi, Option.some.injEq] at hr
  exact ho (hr ▸ h.owned i hi)

/-- Lists of other examples and of other kinds are left alone. -/
theorem Turned.scan_eq (hs : s.Sound) (h : s.Holds owner items) (ht : s.Turned s' owner items items')
    {k' : Kind} {owner' : ExampleId} (hne : k' ≠ k ∨ owner' ≠ owner) :
    s'.scan k' owner' = s.scan k' owner' := by
  by_cases hk : k' = k
  · subst hk
    have ho : owner' ≠ owner := hne.resolve_left (not_not.2 rfl)
    have hrows : (s'.table k').ofOwner owner' = (s.table k').ofOwner owner' := by
      refine (ht.sound k').ofOwner_congr (hs k') fun id r hr => ⟨fun hget => ?_, fun hget => ?_⟩
      · have hid' := ht.holds.not_mem_of_get? hget (hr ▸ ho)
        by_cases hid : id ∈ idsOf items
        · exact absurd ((ht.gone hid hid').symm.trans hget) (by simp)
        · exact (ht.rows hid hid').symm.trans hget
      · have hid := h.not_mem_of_get? hget (hr ▸ ho)
        by_cases hid' : id ∈ idsOf items'
        · exact absurd ((ht.fresh hid' hid).symm.trans hget) (by simp)
        · exact (ht.rows hid hid').trans hget
    rw [scan, scan, hrows]
    exact congrArg _ (ht.versions ho)
  · rw [scan, scan, ht.kinds hk]

theorem Turned.version_eq (ht : s.Turned s' owner items items') (k' : Kind) (owner' : ExampleId) :
    s'.version k' owner' = s.version k' owner' + if k' = k ∧ owner' = owner then 1 else 0 := by
  by_cases hk : k' = k
  · subst hk
    by_cases ho : owner' = owner
    · rw [if_pos ⟨rfl, ho⟩, ho, ht.version]
    · rw [if_neg fun h => ho h.2, ht.versions ho, Nat.add_zero]
  · rw [if_neg fun h => hk h.1, Nat.add_zero, Store.version, Store.version, ht.kinds hk]

/-- A list whose version stands still was left alone. -/
theorem Turned.scan_eq_of_version_eq (hs : s.Sound) (h : s.Holds owner items)
    (ht : s.Turned s' owner items items') {k' : Kind} {owner' : ExampleId}
    (hv : s'.version k' owner' = s.version k' owner') : s'.scan k' owner' = s.scan k' owner' := by
  refine ht.scan_eq hs h (not_and_or.1 fun he => ?_)
  have := ht.version_eq k' owner'
  rw [if_pos he] at this
  omega

theorem Turned.ordered (hs : s.Ordered) (h : s.Holds owner items) (ht : s.Turned s' owner items items') :
    s'.Ordered where
  sound := ht.sound
  lists k' owner' := by
    by_cases hk : k' = k
    · subst hk
      by_cases ho : owner' = owner
      · subst ho; exact ⟨items', ht.holds⟩
      · obtain ⟨l, hl⟩ := hs.lists k' owner'
        exact ⟨l, hl.of_scan_eq hs.sound ht.sound (ht.scan_eq hs.sound h (Or.inr ho))⟩
    · obtain ⟨l, hl⟩ := hs.lists k' owner'
      exact ⟨l, hl.of_scan_eq hs.sound ht.sound (ht.scan_eq hs.sound h (Or.inl hk))⟩

/-! ## Committing a splice -/

theorem written_map_put : ∀ {puts : List (Item k)} (id : ItemId) (old : Option Record), (idsOf puts).Nodup →
    written (puts.map (.put ∘ Record.ofItem)) id old =
      ((puts.find? (·.id == id)).map Record.ofItem).or old
  | [], _, _, _ => rfl
  | i :: puts, id, old, hnd => by
    rw [idsOf, List.map_cons, List.nodup_cons] at hnd
    rw [List.map_cons, written_cons, written_map_put id _ hnd.2, List.find?_cons]
    by_cases hid : i.id = id
    · subst hid
      have hnone : puts.find? (·.id == i.id) = none := find?_id_eq_none.2 hnd.1
      have hw : (Write.put (Record.ofItem i)).id = i.id := rfl
      simp [hnone, hw, Write.stored]
    · have hw : (Write.put (Record.ofItem i)).id ≠ id := hid
      have hb : (i.id == id) = false := by simp [hid]
      simp [hb, hw]

theorem written_map_delete : ∀ (deletes : List ItemId) (id : ItemId) (old : Option Record),
    written (deletes.map .delete) id old = if id ∈ deletes then none else old
  | [], _, _ => rfl
  | d :: deletes, id, old => by
    rw [List.map_cons, written_cons, written_map_delete deletes]
    by_cases hd : d = id
    · subst hd
      have hw : (Write.delete d).id = d := rfl
      simp [hw, Write.stored]
    · have hw : (Write.delete d).id ≠ id := hd
      simp [hw, Ne.symm hd]

/-- The draft that a splice makes of a list, with guards on the version and on rows of the list. -/
def draftOf (sp : Splice k) (owner : ExampleId) (version : Nat) (present : List ItemId) : Draft k :=
  { versions := [(owner, version)], present, puts := sp.puts, deletes := sp.deletes }

@[simp] theorem kind_draftOf (sp : Splice k) (owner : ExampleId) (version : Nat) (present : List ItemId) :
    (draftOf sp owner version present).toBatch.kind = k := rfl

theorem toDraft_eq_draftOf (sp : Splice k) (owner : ExampleId) (version : Nat) :
    sp.toDraft owner version = draftOf sp owner version sp.deletes := rfl

/-- Why a batch is refused before it is judged: one of its rows is made to fail. -/
def injected? (s : Store) (ws : List Write) : Option StoreError :=
  (ws.find? fun w => s.failing.contains w.id).map fun w => .backend s!"injected write failure for row {w.id}"

theorem fault?_eq (s : Store) (b : Batch) :
    s.fault? b = (s.injected? b.writes).or ((s.table b.kind).fault? b) := by
  unfold fault? injected?
  cases b.writes.find? fun w => s.failing.contains w.id <;> rfl

/-- A draft planned under another version than the list is at is refused. -/
theorem fault?_of_stale {sp : Splice k} {version : Nat} {present : List ItemId}
    (hv : s.version k owner ≠ version) : s.fault? (draftOf sp owner version present).toBatch =
      (s.injected? (draftOf sp owner version present).toBatch.writes).or
        (some (.conflict k owner version (s.version k owner))) := by
  have hg : (s.table k).guardFault? k (.version owner version) =
      some (.conflict k owner version (s.version k owner)) := if_neg hv
  have ht : (s.table k).fault? (draftOf sp owner version present).toBatch =
      some (.conflict k owner version (s.version k owner)) := by
    have hguards : (draftOf sp owner version present).toBatch.guards =
        .version owner version :: (present.map .present ++ []) := rfl
    rw [Table.fault?, hguards, kind_draftOf, List.findSome?_cons, hg]
    rfl
  rw [fault?_eq]
  exact congrArg _ ht

/-- What a splice may store for an example: rows of the example, not their own parents, each in the list
already or not stored at all. -/
structure Storable (s : Store) (owner : ExampleId) (items : List (Item k)) (sp : Splice k) : Prop where
  nonempty : sp.isEmpty = false
  owned : ∀ i ∈ sp.puts, i.owner = owner
  selfless : ∀ i ∈ sp.puts, i.parent ≠ some i.id
  fresh : ∀ i ∈ sp.puts, i.id ∈ idsOf items ∨ s.get? k i.id = none

section

variable {sp : Splice k} {present : List ItemId}

/-- A splice planned on the list held passes every guard. -/
theorem Holds.fault?_eq (h : s.Holds owner items) (ht : sp.Turns items items') (hst : s.Storable owner items sp)
    (hp : ∀ id ∈ present, id ∈ idsOf items) :
    s.fault? (draftOf sp owner (s.version k owner) present).toBatch =
      s.injected? (draftOf sp owner (s.version k owner) present).toBatch.writes := by
  have hin : ∀ id ∈ idsOf items, ∃ i ∈ items, i.id = id ∧ s.get? k id = some (Record.ofItem i) := by
    intro id hid
    obtain ⟨i, hi, rfl⟩ := List.mem_map.1 hid
    exact ⟨i, hi, rfl, h.get?_of_mem hi⟩
  have htable : (s.table k).fault? (draftOf sp owner (s.version k owner) present).toBatch = none := by
    refine Table.fault?_eq_none_iff.2 ⟨fun g hg => ?_, fun w hw => ?_⟩
    · simp only [Draft.toBatch, draftOf, List.map_cons, List.map_nil, List.append_nil, List.mem_append,
        List.mem_singleton, List.mem_map] at hg
      rcases hg with rfl | ⟨id, hid, rfl⟩
      · exact if_pos rfl
      · obtain ⟨i, -, -, hget⟩ := hin id (hp id hid)
        have hsome : ((s.table k).get? id).isSome := by
          rw [show (s.table k).get? id = s.get? k id from rfl, hget]; rfl
        exact if_pos hsome
    · simp only [Draft.toBatch, draftOf, List.mem_append, List.mem_map, Function.comp_apply] at hw
      rcases hw with ⟨i, hi, rfl⟩ | ⟨id, -, rfl⟩
      · have hi' : i ∈ items' := (ht.mem i).2 (Or.inl hi)
        obtain ⟨hprev, hnext⟩ := ht.linked.prev_ne hi'
        refine Table.writeFault?_put_eq_none_iff.2 ⟨rfl, ?_, fun old hold => ?_⟩
        · simp [Table.namesItself, Record.ofItem, hprev, hnext, hst.selfless i hi]
        · have hold' : s.get? k i.id = some old := hold
          rcases hst.fresh i hi with hid | hnone
          · obtain ⟨j, hj, -, hget⟩ := hin i.id hid
            rw [hold', Option.some.injEq] at hget
            rw [hget]
            exact (h.owned j hj).trans (hst.owned i hi).symm
          · rw [hnone] at hold'; simp at hold'
      · rfl
  rw [Store.fault?_eq]
  have hnone : (s.table (draftOf sp owner (s.version k owner) present).toBatch.kind).fault?
      (draftOf sp owner (s.version k owner) present).toBatch = none := htable
  rw [hnone, Option.or_none]

/-- The store that a batch leaves when it is let through. -/
def accept (s : Store) (b : Batch) : Store :=
  { s with tables := s.tables.set b.kind ((s.table b.kind).apply b), commits := s.commits + 1 }

theorem commit_eq (s : Store) (b : Batch) :
    s.commit b = match s.fault? b with | some e => .error e | none => .ok (s.accept b) := rfl

theorem table_accept (s : Store) (b : Batch) (kind : Kind) :
    (s.accept b).table kind = if kind = b.kind then (s.table b.kind).apply b else s.table kind :=
  PerKind.get_set _ _ _ _

theorem Sound.accept (hs : s.Sound) {b : Batch} (hf : (s.table b.kind).fault? b = none) :
    (s.accept b).Sound := by
  intro kind
  rw [table_accept]
  split
  next hk => rw [hk]; exact (hs b.kind).apply hf
  · exact hs kind

theorem get?_accept_draftOf (ht : sp.Turns items items') (owner : ExampleId) (version : Nat)
    (present : List ItemId) (id : ItemId) :
    (s.accept (draftOf sp owner version present).toBatch).get? k id =
      if id ∈ sp.deletes then none else ((sp.puts.find? (·.id == id)).map Record.ofItem).or (s.get? k id) := by
  rw [get?, table_accept, kind_draftOf, if_pos rfl, Table.get?_apply]
  show written (sp.puts.map (.put ∘ Record.ofItem) ++ sp.deletes.map .delete) id _ = _
  rw [written_append, written_map_delete, written_map_put _ _ ht.nodup]
  rfl

/-- Writes of rows of one example leave under each id a row of that example, if one was there. -/
theorem owner_written {P : Record → Prop} : ∀ {ws : List Write} {id : ItemId} {old : Option Record},
    (∀ r, old = some r → P r) → (∀ r, Write.put r ∈ ws → P r) → ∀ r, written ws id old = some r → P r
  | [], _, _, hold, _, r, hr => hold r hr
  | w :: ws, id, old, hold, hput, r, hr => by
    rw [written_cons] at hr
    refine owner_written (fun s hs => ?_) (fun s hs => hput s (List.mem_cons_of_mem _ hs)) r hr
    split at hs
    · cases w with
      | put u => cases hs; exact hput _ (by simp)
      | delete _ => simp [Write.stored] at hs
    · exact hold s hs

theorem put_mem_writes {owner : ExampleId} {version : Nat} {r : Record} :
    Write.put r ∈ (draftOf sp owner version present).toBatch.writes ↔ ∃ i ∈ sp.puts, Record.ofItem i = r := by
  simp [Draft.toBatch, draftOf]

theorem delete_mem_writes {owner : ExampleId} {version : Nat} {id : ItemId} :
    Write.delete id ∈ (draftOf sp owner version present).toBatch.writes ↔ id ∈ sp.deletes := by
  simp [Draft.toBatch, draftOf]

/-- A splice planned on the list held is written to rows of its example only. -/
theorem Holds.owner_of_touched? (h : s.Holds owner items) (ht : sp.Turns items items')
    (hst : s.Storable owner items sp) {version : Nat} {owner' : ExampleId} {a b : List Write} {w : Write}
    (he : (draftOf sp owner version present).toBatch.writes = a ++ w :: b)
    (hw : ((s.table k).writeAll [] a).1.touched? w = some owner') : owner' = owner := by
  have hput : ∀ r, Write.put r ∈ a ++ w :: b → r.owner = owner := by
    intro r hr
    obtain ⟨i, hi, rfl⟩ := put_mem_writes.1 (he ▸ hr)
    exact hst.owned i hi
  cases w with
  | put r =>
    cases hw
    exact hput r (List.mem_append_right _ (List.mem_cons_self ..))
  | delete id =>
    have hid : id ∈ sp.deletes := by
      refine delete_mem_writes.1 (?_ : _ ∈ (draftOf sp owner version present).toBatch.writes)
      rw [he]
      exact List.mem_append_right _ (List.mem_cons_self ..)
    obtain ⟨i, hi, rfl⟩ := List.mem_map.1 (ht.deleted id hid)
    obtain ⟨r, hr, rfl⟩ := Option.map_eq_some_iff.1 hw
    rw [Table.get?_writeAll] at hr
    -- a row of the list, or one that an earlier write of the batch put in its place
    refine owner_written (P := fun r => r.owner = owner) (fun old hold => ?_)
      (fun r hr => hput r (List.mem_append_left _ hr)) r hr
    rw [show (s.table k).get? i.id = _ from h.get?_of_mem hi, Option.some.injEq] at hold
    exact hold ▸ h.owned i hi

/-- A splice touches the list it was planned on alone. -/
theorem Holds.mem_touched (h : s.Holds owner items) (ht : sp.Turns items items')
    (hst : s.Storable owner items sp) {version : Nat} {owner' : ExampleId} :
    owner' ∈ ((s.table k).writeAll [] (draftOf sp owner version present).toBatch.writes).2 ↔
      owner' = owner := by
  rw [Table.mem_touched]
  constructor
  · rintro (hm | ⟨a, w, b, he, hw⟩)
    · cases hm
    · exact h.owner_of_touched? ht hst he hw
  · rintro rfl
    refine Or.inr ?_
    cases hputs : sp.puts with
    | cons i rest =>
      refine ⟨[], .put (Record.ofItem i), rest.map (.put ∘ Record.ofItem) ++ sp.deletes.map .delete, ?_, ?_⟩
      · simp [Draft.toBatch, draftOf, hputs]
      · exact congrArg some (hst.owned i (by simp [hputs]))
    | nil =>
      cases hdels : sp.deletes with
      | nil => have := hst.nonempty; simp [Splice.isEmpty, hputs, hdels] at this
      | cons id rest =>
        obtain ⟨i, hi, rfl⟩ := List.mem_map.1 (ht.deleted id (by simp [hdels]))
        refine ⟨[], .delete i.id, rest.map .delete, ?_, ?_⟩
        · simp [Draft.toBatch, draftOf, hputs, hdels]
        · exact Option.map_eq_some_iff.2 ⟨_, h.get?_of_mem hi, h.owned i hi⟩

/-- A splice planned on the list held leaves the list it was planned to. -/
theorem Holds.holds_accept (h : s.Holds owner items) (ht : sp.Turns items items') (hst : s.Storable owner items sp)
    (version : Nat) (present : List ItemId) :
    (s.accept (draftOf sp owner version present).toBatch).Holds owner items' where
  linked := ht.linked
  owned i hi := by
    rcases (ht.mem i).1 hi with hi | ⟨hi, -, -⟩
    · exact hst.owned i hi
    · exact h.owned i hi
  stored r := by
    rw [get?_accept_draftOf ht]
    constructor
    · rintro ⟨hr, ho⟩
      split at hr
      · cases hr
      next hd =>
        cases hfound : sp.puts.find? (·.id == r.id) with
        | some i =>
          rw [hfound] at hr
          exact ⟨i, (ht.mem i).2 (Or.inl (List.mem_of_find?_eq_some hfound)), by simpa using hr⟩
        | none =>
          rw [hfound, Option.map_none, Option.none_or] at hr
          obtain ⟨i, hi, rfl⟩ := (h.stored r).1 ⟨hr, ho⟩
          exact ⟨i, (ht.mem i).2 (Or.inr ⟨hi, hd, find?_id_eq_none.1 hfound⟩), rfl⟩
    · rintro ⟨i, hi, rfl⟩
      have hid : (Record.ofItem i).id = i.id := rfl
      rw [hid]
      rcases (ht.mem i).1 hi with hi | ⟨hi, hd, hn⟩
      · rw [if_neg (ht.disjoint i hi), find?_id_of_mem ht.nodup hi]
        exact ⟨rfl, hst.owned i hi⟩
      · rw [if_neg hd, find?_id_eq_none.2 hn, Option.map_none, Option.none_or]
        exact ⟨h.get?_of_mem hi, h.owned i hi⟩

/-- **A splice planned on the list held turns that list.** -/
theorem Holds.turned (hs : s.Sound) (h : s.Holds owner items) (ht : sp.Turns items items')
    (hst : s.Storable owner items sp)
    (hf : s.fault? (draftOf sp owner (s.version k owner) present).toBatch = none) :
    s.Turned (s.accept (draftOf sp owner (s.version k owner) present).toBatch) owner items items' where
  sound := by
    rw [Store.fault?_eq, Option.or_eq_none_iff] at hf
    exact hs.accept hf.2
  holds := h.holds_accept ht hst _ _
  version := by
    rw [version, table_accept, kind_draftOf, if_pos rfl, Table.version_apply,
      if_pos ((h.mem_touched ht hst).2 rfl)]
    rfl
  versions ho := by
    rw [version, table_accept, kind_draftOf, if_pos rfl, Table.version_apply,
      if_neg (mt (h.mem_touched ht hst).1 ho)]
    rfl
  kinds hk := by rw [table_accept, kind_draftOf, if_neg hk]
  rows hid hid' := by
    rw [get?_accept_draftOf ht, if_neg fun hd => hid (ht.deleted _ hd), find?_id_eq_none.2 fun hn => ?_,
      Option.map_none, Option.none_or]
    obtain ⟨i, hi, rfl⟩ := List.mem_map.1 hn
    exact hid' (List.mem_map_of_mem ((ht.mem i).2 (Or.inl hi)))
  gone hid hid' := by
    obtain ⟨i, hi, rfl⟩ := List.mem_map.1 hid
    rw [get?_accept_draftOf ht, if_pos]
    by_contra hd
    refine hid' (List.mem_map_of_mem ((ht.mem i).2 (Or.inr ⟨hi, hd, fun hn => ?_⟩)))
    obtain ⟨j, hj, hji⟩ := List.mem_map.1 hn
    exact hid' (hji ▸ List.mem_map_of_mem ((ht.mem j).2 (Or.inl hj)))
  fresh hid hid' := by
    obtain ⟨i, hi, rfl⟩ := List.mem_map.1 hid
    rcases (ht.mem i).1 hi with hi | ⟨hi, -, -⟩
    · exact (hst.fresh i hi).resolve_left hid'
    · exact absurd (List.mem_map_of_mem hi) hid'
  failing := rfl
  commits := rfl

end

end Store

end ExampleOverlay
