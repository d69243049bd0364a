import ExampleOverlay.Cascade
import ExampleOverlay.Proofs.Runs.Session
import ExampleOverlay.Proofs.Store.Rows

/-!
# Edits of a list by one client

What reading and editing give when no other client is there, over an ordered store. An edit reads the
list held, so its commit is under the current version and is planned once: it is refused because a row
was made to fail, or it turns the list (`Session.Commits`).
-/

namespace ExampleOverlay

open Chain Program

variable {k : Kind}

namespace Store

/-- A row that a splice writes was made to fail. -/
def Blocked (s : Store) (sp : Splice k) : Prop :=
  ∃ id ∈ s.failing, id ∈ idsOf sp.puts ∨ id ∈ sp.deletes

theorem Blocked.of_failing_empty {s : Store} {sp : Splice k} (h : s.failing = ∅) : ¬ s.Blocked sp := by
  rintro ⟨id, hid, -⟩
  rw [h] at hid
  exact Std.ExtTreeSet.not_mem_empty hid

/-- The rows that the batch of a splice writes. -/
theorem mem_written_draftOf {sp : Splice k} {owner : ExampleId} {version : Nat} {present : List ItemId}
    {id : ItemId} :
    (∃ w ∈ (draftOf sp owner version present).toBatch.writes, w.id = id) ↔
      id ∈ idsOf sp.puts ∨ id ∈ sp.deletes := by
  have hw : (draftOf sp owner version present).toBatch.writes =
      sp.puts.map (.put ∘ Record.ofItem) ++ sp.deletes.map .delete := rfl
  simp only [hw, List.mem_append, List.mem_map, Function.comp_apply, or_and_right, exists_or, idsOf]
  refine or_congr ⟨?_, ?_⟩ ⟨?_, ?_⟩
  · rintro ⟨-, ⟨i, hi, rfl⟩, rfl⟩; exact ⟨i, hi, rfl⟩
  · rintro ⟨i, hi, rfl⟩; exact ⟨_, ⟨i, hi, rfl⟩, rfl⟩
  · rintro ⟨-, ⟨d, hd, rfl⟩, rfl⟩; exact hd
  · intro hd; exact ⟨_, ⟨id, hd, rfl⟩, rfl⟩

theorem injected?_of_blocked {s : Store} {sp : Splice k} (h : s.Blocked sp) (owner : ExampleId)
    (version : Nat) (present : List ItemId) :
    ∃ e, s.injected? (draftOf sp owner version present).toBatch.writes = some (.backend e) := by
  obtain ⟨id, hid, hw⟩ := h
  obtain ⟨w, hmem, rfl⟩ := mem_written_draftOf.2 hw
  cases hfind : (draftOf sp owner version present).toBatch.writes.find? (fun w => s.failing.contains w.id) with
  | some v => exact ⟨_, by rw [injected?, hfind]; rfl⟩
  | none => exact absurd hid (by simpa using List.find?_eq_none.1 hfind w hmem)

theorem injected?_of_not_blocked {s : Store} {sp : Splice k} {owner : ExampleId} {version : Nat}
    {present : List ItemId} (h : ¬ s.Blocked sp) :
    s.injected? (draftOf sp owner version present).toBatch.writes = none := by
  rw [injected?, Option.map_eq_none_iff, List.find?_eq_none]
  intro w hw hf
  exact h ⟨w.id, by simpa using hf, mem_written_draftOf.1 ⟨w, hw, rfl⟩⟩

end Store

namespace Service

/-! ## New rows -/

/-- Appends a row under an id that is minted for it; gives the id. -/
def appendNew (limit : Nat) (row : ItemId → Item k) : Program ItemId := do
  let item ← Editing.append limit (row (← mint))
  return item.id

theorem create_eq (limit : Nat) (owner : ExampleId) (fields : Fields k) : create limit owner fields = (do
    require (Fields.fault? fields)
    appendNew limit fun id => Item.fresh id owner fields) := rfl

theorem deltaCreate_none (limit : Nat) (delta : ExampleId) (origin : Option ExampleId) (fields : Fields k) :
    deltaCreate limit delta origin none fields = (do
      require (Fields.fault? fields)
      appendNew limit fun id => Item.fresh id delta fields) := rfl

theorem deltaCreate_some (limit : Nat) (delta : ExampleId) (origin : Option ExampleId) (parent : ItemId)
    (fields : Fields k) : deltaCreate limit delta origin (some parent) fields = (do
      require (Fields.fault? fields)
      requireParent k delta origin parent
      appendNew limit fun id =>
        { Item.fresh id delta fields with parent := some parent, overridden := true }) := rfl

end Service

namespace Session

variable {s : Session} {owner : ExampleId} {items items' : List (Item k)} {sp : Splice k} {α : Type}

/-! ## Reading -/

theorem run_find (hs : s.store.Ordered) (id : ItemId) : s.run (find k id) = (.ok (s.store.item? k id), s) := by
  rw [find, run_ask, serve_get, hs.get?_eq]
  cases s.store.item? k id with
  | none => rfl
  | some i =>
    simp only [Option.map_some, Record.toItem_ofItem]
    rfl

theorem run_get_of_some (hs : s.store.Ordered) {id : ItemId} {i : Item k} (h : s.store.item? k id = some i) :
    s.run (Program.get k id) = (.ok i, s) := by
  rw [Program.get, run_bind_ok (run_find hs id), h]
  rfl

theorem run_get_of_none (hs : s.store.Ordered) {id : ItemId} (h : s.store.item? k id = none) :
    s.run (Program.get k id) = (.error (.notFound k id), s) := by
  rw [Program.get, run_bind_ok (run_find hs id), h]
  rfl

/-- A list is read in one access. -/
theorem chain_eq_ask (k : Kind) (owner : ExampleId) : Program.chain k owner = .ask (.scan k owner) fun scan =>
    .done (match Record.toItems k scan.records with
      | .error e => .error (.store (.record e))
      | .ok rows => match Chain.ofRows owner scan.version rows with
        | .error fault => .error (.corruptList k owner fault)
        | .ok c => .ok c) := by
  rw [Program.chain, Program.scan, bind_ask]
  congr 1
  funext scan
  cases Record.toItems k scan.records with
  | error e => rfl
  | ok rows =>
    have hread : (fun x => (x, scan.version)) <$> ofRecords (.ok rows) =
        (.done (.ok (rows, scan.version)) : Program (List (Item k) × Nat)) := rfl
    rw [hread, bind_done_ok]
    dsimp only
    cases Chain.ofRows owner scan.version rows <;> rfl

theorem run_chain (s : Session) (k : Kind) (owner : ExampleId) :
    s.run (Program.chain k owner) = (s.store.chain k owner, s) := by
  rw [chain_eq_ask]
  rfl

theorem run_chain_of_holds (hs : s.store.Ordered) (h : s.store.Holds owner items) :
    s.run (Program.chain k owner) = (.ok ⟨owner, s.store.version k owner, items⟩, s) := by
  rw [run_chain, h.chain_eq hs.sound]

/-- The rows linked to a row, each once. -/
theorem run_children (hs : s.store.Ordered) (parent : ItemId) : ∃ rows : List (Item k),
    s.run (Program.children k parent) = (.ok rows, s) ∧ (idsOf rows).Nodup ∧
      ∀ i, i ∈ rows ↔ s.store.item? k i.id = some i ∧ i.parent = some parent := by
  obtain ⟨rows, hrows, hnd, hmem⟩ := hs.exists_children (k := k) parent
  refine ⟨rows, ?_, hnd, hmem⟩
  rw [Program.children, run_ask, serve_children, hrows, Record.toItems_map_ofItem]
  rfl

/-- Reading once for each element of a list. -/
theorem run_collect {β : Type} {f : α → Program β} {g : α → β} (h : ∀ a, s.run (f a) = (.ok (g a), s)) :
    ∀ as, s.run (collect f as) = (.ok (as.map g), s)
  | [] => rfl
  | a :: as => by rw [collect, run_bind_ok (h a), run_bind_ok (run_collect h as)]; rfl

theorem run_versions (s : Session) (rows : List (Item k)) : s.run (Cascade.versions rows) =
    (.ok ((rows.map (·.owner)).eraseDups.map fun o => (o, (s.world.registry.versionOf o).isSome)), s) :=
  run_collect (fun _ => rfl) _

/-! ## Minting -/

/-- Ids were minted, the latest first, and nothing else happened. -/
structure Minted (s t : Session) (ids : List ItemId) : Prop where
  store : t.store = s.store
  registry : t.world.registry = s.world.registry
  minted : t.minted = ids ++ s.minted

theorem Minted.refl (s : Session) : s.Minted s [] := ⟨rfl, rfl, rfl⟩

theorem Minted.trans {t u : Session} {ids ids' : List ItemId} (h : s.Minted t ids) (h' : t.Minted u ids') :
    s.Minted u (ids' ++ ids) :=
  ⟨h'.store.trans h.store, h'.registry.trans h.registry, by rw [h'.minted, h.minted, List.append_assoc]⟩

/-- An id that was minted is new. -/
theorem Minted.not_mem {t : Session} {id : ItemId} (h : s.Minted t [id]) (hnd : t.minted.Nodup) :
    id ∉ s.minted := by
  rw [h.minted, List.singleton_append, List.nodup_cons] at hnd
  exact hnd.1

/-- Rows of ids that were minted are under new ones. -/
theorem Minted.forall_not_mem {t : Session} {new : List (Item k)} (h : s.Minted t (idsOf new).reverse)
    (hnd : t.minted.Nodup) : ∀ i ∈ new, i.id ∉ s.minted := by
  intro i hi hm
  rw [h.minted, List.nodup_append] at hnd
  exact hnd.2.2 i.id (List.mem_reverse.2 (List.mem_map_of_mem hi)) i.id hm rfl

theorem run_mint (s : Session) :
    ∃ id t, s.run mint = (.ok id, t) ∧ s.Minted t [id] := ⟨_, _, rfl, rfl, rfl, rfl⟩

theorem exists_of_forall₂ {R : Item k → Item k → Prop} : ∀ {rows new : List (Item k)}, List.Forall₂ R rows new →
    ∀ {i}, i ∈ new → ∃ row ∈ rows, R row i
  | _, _, .cons h t, i, hi => by
    rcases List.mem_cons.1 hi with rfl | hi
    · exact ⟨_, List.mem_cons_self, h⟩
    · obtain ⟨row, hrow, hr⟩ := exists_of_forall₂ t hi
      exact ⟨row, List.mem_cons_of_mem _ hrow, hr⟩

/-- A counterpart is made for each row, in order. -/
theorem run_counterparts (delta : ExampleId) :
    ∀ (s : Session) (rows : List (Item k)), ∃ (new : List (Item k)) (t : Session),
    s.run (collect (fun row => return Item.counterpart (← mint) delta row) rows) = (.ok new, t) ∧
      s.Minted t (idsOf new).reverse ∧
      List.Forall₂ (fun row i => i = Item.counterpart i.id delta row) rows new
  | s, [] => ⟨[], s, rfl, .refl s, .nil⟩
  | s, row :: rest => by
    obtain ⟨id, t, hmint, ht⟩ := run_mint s
    obtain ⟨new, u, hrun, hu, hnew⟩ := run_counterparts delta t rest
    refine ⟨Item.counterpart id delta row :: new, u, ?_, ?_, .cons rfl hnew⟩
    · have hone : s.run (do return Item.counterpart (← mint) delta row : Program (Item k)) =
          (.ok (Item.counterpart id delta row), t) := by rw [run_bind_ok hmint]; rfl
      rw [collect, run_bind_ok hone, run_bind_ok hrun]
      rfl
    · have := ht.trans hu
      simpa [idsOf, Item.counterpart, Item.fresh] using this

/-! ## Committing -/

/-- The list of one example was turned, and nothing else happened. -/
structure Turned (s s' : Session) (owner : ExampleId) (items items' : List (Item k)) : Prop where
  eq : s' = s.withStore s'.store
  holds : s.store.Holds owner items
  turned : s.store.Turned s'.store owner items items'

theorem Turned.ordered {s' : Session} (hs : s.store.Ordered) (h : s.Turned s' owner items items') :
    s'.store.Ordered :=
  h.turned.ordered hs h.holds

/-! ## Sane sessions -/

/-- Every list is in order, and the ids of stored rows were minted. -/
structure Sane (s : Session) : Prop where
  ordered : s.store.Ordered
  minted : ∀ {k id r}, s.store.get? k id = some r → id ∈ s.minted

theorem Sane.mem_minted (hs : s.Sane) (h : s.store.Holds owner items) : ∀ id ∈ idsOf items, id ∈ s.minted := by
  intro id hid
  obtain ⟨i, hi, rfl⟩ := List.mem_map.1 hid
  exact hs.minted (h.get?_of_mem hi)

theorem Sane.of_minted {t : Session} {ids : List ItemId} (hs : s.Sane) (h : s.Minted t ids) : t.Sane where
  ordered := h.store ▸ hs.ordered
  minted hr := by
    rw [h.store] at hr
    rw [h.minted]
    exact List.mem_append_right _ (hs.minted hr)

theorem Sane.of_tables_eq {t : Session} (hs : s.Sane) (ht : t.store.tables = s.store.tables)
    (hm : t.minted = s.minted) :
    t.Sane where
  ordered := hs.ordered.of_tables_eq ht
  minted hr := by
    rw [Store.get?, Store.table, ht] at hr
    rw [hm]
    exact hs.minted hr

/-- No row is stored under an id that was minted anew. -/
theorem Sane.get?_eq_none (hs : s.Sane) {id : ItemId} (h : id ∉ s.minted) (k : Kind) :
    s.store.get? k id = none := by
  cases hr : s.store.get? k id with
  | none => rfl
  | some r => exact absurd (hs.minted hr) h

/-- A list was turned into rows of ids that were minted. -/
theorem Turned.sane {t : Session} (hs : s.Sane) (h : s.Turned t owner items items')
    (hids : ∀ id ∈ idsOf items', id ∈ idsOf items ∨ id ∈ s.minted) : t.Sane where
  ordered := h.ordered hs.ordered
  minted {k' id r} hr := by
    have hminted : t.minted = s.minted := by rw [h.eq]; rfl
    rw [hminted]
    by_cases hk : k' = k
    · subst hk
      by_cases hid : id ∈ idsOf items'
      · exact (hids id hid).elim (hs.mem_minted h.holds id) fun h => h
      · by_cases hid' : id ∈ idsOf items
        · exact hs.mem_minted h.holds id hid'
        · rw [h.turned.rows hid' hid] at hr
          exact hs.minted hr
    · rw [Store.get?, h.turned.kinds hk] at hr
      exact hs.minted hr

/-! ## Programs that commit -/

/-- The session after a splice was committed on the list of an example. -/
def committed (s : Session) (sp : Splice k) (owner : ExampleId) (present : List ItemId) : Session :=
  s.withStore (s.store.accept (Store.draftOf sp owner (s.store.version k owner) present).toBatch)

/-- The run of a program commits a splice on the list held: it is refused since a row was made to fail,
or it turns the list and gives `a`. -/
def Commits (s : Session) (p : Program α) (a : α) (owner : ExampleId) (items : List (Item k)) (sp : Splice k)
    (present : List ItemId) (items' : List (Item k)) : Prop :=
  (s.store.Blocked sp ∧ ∃ e, s.run p = (.error (.store (.backend e)), s)) ∨
    ¬ s.store.Blocked sp ∧ s.run p = (.ok a, s.committed sp owner present) ∧
      s.Turned (s.committed sp owner present) owner items items'

theorem run_commit (s : Session) (d : Draft k) : s.run (commit d) = match s.store.commit d.toBatch with
    | .ok st => (.ok (), s.withStore st)
    | .error e => (.error (.store e), s) := by
  rw [commit, run_ask, serve_commit]
  cases s.store.commit d.toBatch <;> rfl

/-- **A planned splice commits** under the version of the list held. -/
theorem commits_of_planned (hs : s.store.Ordered) (hp : s.store.Planned owner items sp items')
    (present : List ItemId) (hpresent : ∀ id ∈ present, id ∈ idsOf items) :
    s.Commits (commit (Store.draftOf sp owner (s.store.version k owner) present))
      () owner items sp present items' := by
  have hf := hp.holds.fault?_eq hp.turns hp.storable hpresent
  have hrun := run_commit s (Store.draftOf sp owner (s.store.version k owner) present)
  rw [Store.commit_eq] at hrun
  by_cases hb : s.store.Blocked sp
  · obtain ⟨e, he⟩ := Store.injected?_of_blocked hb owner (s.store.version k owner) present
    rw [hf, he] at hrun
    exact Or.inl ⟨hb, e, hrun⟩
  · rw [Store.injected?_of_not_blocked hb] at hf
    rw [hf] at hrun
    exact Or.inr ⟨hb, hrun, rfl, hp.holds, hp.holds.turned hs.sound hp.turns hp.storable hf⟩

variable {p q : Program α} {a : α} {present : List ItemId}

theorem Commits.of_run_eq (h : s.run p = s.run q) (hq : s.Commits q a owner items sp present items') :
    s.Commits p a owner items sp present items' := by rwa [Commits, h]

/-- What is read before a commit does not matter. -/
theorem Commits.of_read {β : Type} {f : α → Program β} {b : β} (hp : s.run p = (.ok a, s))
    (h : s.Commits (f a) b owner items sp present items') :
    s.Commits (p >>= f) b owner items sp present items' :=
  h.of_run_eq (run_bind_ok hp f)

/-- A commit can be followed by what asks nothing. -/
theorem Commits.returning {β : Type} {f : α → Program β} {b : β}
    (h : s.Commits p a owner items sp present items') (hf : f a = .done (.ok b)) :
    s.Commits (p >>= f) b owner items sp present items' := by
  rcases h with ⟨hb, e, hrun⟩ | ⟨hb, hrun, ht⟩
  · exact Or.inl ⟨hb, e, run_bind_error hrun f⟩
  · exact Or.inr ⟨hb, by rw [run_bind_ok hrun, hf, run_done], ht⟩

/-- An attempt that ends in no conflict is made once. -/
theorem run_retry {r : Except EngineError α × Session} (operation : Operation) (limit : Nat) (h : s.run p = r)
    (hr : ∀ e, r.1 = .error e → e.isConflict = false) : s.run (retry operation limit p) = r := by
  obtain ⟨n, hn⟩ : ∃ n, max limit 1 = n + 1 := ⟨max limit 1 - 1, by omega⟩
  rw [retry, hn, retry.again, run_bind, run_outcome, h]
  obtain ⟨e | a, t⟩ := r
  · dsimp only
    rw [hr e rfl]
    rfl
  · rfl

theorem Commits.retry (operation : Operation) (limit : Nat) (h : s.Commits p a owner items sp present items') :
    s.Commits (retry operation limit p) a owner items sp present items' := by
  rcases h with ⟨hb, e, hrun⟩ | ⟨hb, hrun, ht⟩
  · exact Or.inl ⟨hb, e, run_retry operation limit hrun (by rintro _ ⟨⟩; rfl)⟩
  · exact Or.inr ⟨hb, run_retry operation limit hrun (by rintro _ ⟨⟩), ht⟩

/-! ## The four edits -/

/-- The row that an append gives says what the row to append says. -/
theorem bare_appended {c : Chain k} {item : Item k} (hl : Linked c.items)
    (hnd : (idsOf (c.items ++ [item])).Nodup) :
    (((c.appendAll [item]).puts.find? (·.id == item.id)).getD item).bare = item.bare := by
  have ht := appendAll_turns hl hnd
  cases hfind : (c.appendAll [item]).puts.find? (·.id == item.id) with
  | none => rfl
  | some j =>
    -- the row found is a row of the new list, where only the new row has this id
    have hj : j ∈ link none (c.items ++ [item]) := (ht.mem j).2 (Or.inl (List.mem_of_find?_eq_some hfind))
    have hid : j.id = item.id := by simpa using List.find?_some hfind
    obtain ⟨i, hi, hij⟩ := List.mem_map.1 (bare_mem_link hj)
    obtain rfl := eq_of_id_eq hnd hi (by simp) ((Item.id_eq_of_bare_eq hij).trans hid)
    exact hij.symm

/-- **Appending** a row of an id that is not stored. -/
theorem commits_append (hs : s.store.Ordered) (limit : Nat) {item : Item k} (h : s.store.Holds item.owner items)
    (hself : item.parent ≠ some item.id) (hnew : s.store.get? k item.id = none) : ∃ stored : Item k,
    stored.bare = item.bare ∧ s.Commits (Editing.append limit item) stored item.owner items
      (Chain.appendAll ⟨item.owner, s.store.version k item.owner, items⟩ [item]) []
        (link none (items ++ [item])) := by
  have hp : s.store.Planned item.owner items
      (Chain.appendAll ⟨item.owner, s.store.version k item.owner, items⟩ [item])
        (link none (items ++ [item])) :=
    h.planned_append hs.sound _ (by simp) (by simp) (by simpa using ⟨hself, hnew⟩)
  have hnd : (idsOf (items ++ [item])).Nodup := by rw [← idsOf_link none]; exact hp.turns.linked.nodup
  refine ⟨_, bare_appended (c := ⟨item.owner, s.store.version k item.owner, items⟩) h.linked hnd, ?_⟩
  refine .retry .append limit (.of_read (run_chain_of_holds hs h) ?_)
  exact (commits_of_planned hs hp _ hp.turns.deleted).returning rfl

/-- **Removing** a stored row. -/
theorem commits_remove (hs : s.store.Ordered) (limit : Nat) {id : ItemId} {item : Item k}
    (hitem : s.store.item? k id = some item) (h : s.store.Holds item.owner items) : ∃ sp : Splice k,
    Chain.remove? ⟨item.owner, s.store.version k item.owner, items⟩ id = some sp ∧ sp.deletes = [id] ∧
      s.Commits (Editing.remove limit k id) item item.owner items sp [id]
        (link none (items.filter (·.id != id))) := by
  have hid := hs.id_of_item? hitem
  have hmem : id ∈ idsOf items := hid ▸ List.mem_map_of_mem (h.mem_of_item? hs hitem rfl)
  obtain ⟨sp, hsp, hdel, hp⟩ := h.planned_remove hs.sound (s.store.version k item.owner) hmem
  refine ⟨sp, hsp, hdel, .retry .remove limit (.of_read (run_get_of_some hs hitem) ?_)⟩
  refine .of_read (run_chain_of_holds hs h) ?_
  rw [hsp]
  have hc := (commits_of_planned hs hp _ hp.turns.deleted).returning (f := fun _ => return item) rfl
  rw [hdel] at hc
  have hbatch : sp.toDraft item.owner (s.store.version k item.owner) =
      Store.draftOf sp item.owner (s.store.version k item.owner) [id] := by
    rw [Store.toDraft_eq_draftOf, hdel]
  dsimp only
  unfold commitSplice
  rw [hbatch]
  exact hc

theorem run_remove_of_none (hs : s.store.Ordered) (limit : Nat) {id : ItemId} (h : s.store.item? k id = none) :
    s.run (Editing.remove limit k id) = (.error (.notFound k id), s) :=
  run_retry .remove limit (run_bind_error (run_get_of_none hs h) _) (by rintro _ ⟨⟩; rfl)

theorem contains_eq (owner : ExampleId) (version : Nat) (items : List (Item k)) (id : ItemId) :
    Chain.contains ⟨owner, version, items⟩ id = decide (id ∈ idsOf items) := by
  rw [Bool.eq_iff_iff, decide_eq_true_iff]
  simp [Chain.contains, idsOf]

/-- **Moving** a row of the list to another place in it. -/
theorem commits_move (hs : s.store.Ordered) (limit : Nat) (h : s.store.Holds owner items) {moving : Item k}
    {target : ItemId} {side : Side} {order : List (Item k)} (hne : moving.id ≠ target) (hm : moving ∈ items)
    (hmove : Chain.move ⟨owner, s.store.version k owner, items⟩ moving.id target side =
      .ok { puts := Chain.relinked order }) (hperm : order.Perm items)
    (hempty : Splice.isEmpty { puts := Chain.relinked order } = false) :
    s.Commits (Editing.move limit k owner moving.id target side) true owner items
      { puts := Chain.relinked order } []
      (link none order) := by
  have hin : decide (moving.id ∈ idsOf items) = true := decide_eq_true (List.mem_map_of_mem hm)
  have hp := h.planned_relink hs.sound hperm hempty
  unfold Editing.move
  rw [if_neg hne]
  refine .retry .move limit (.of_read (run_chain_of_holds hs h) ?_)
  simp only [contains_eq, hin, hmove, Program.ofExcept, bind_done_ok, hempty]
  exact (commits_of_planned hs hp _ hp.turns.deleted).returning rfl

/-- A move to where the row stands already writes nothing. -/
theorem run_move_of_same (hs : s.store.Ordered) (limit : Nat) (h : s.store.Holds owner items) {moving : Item k}
    {target : ItemId} {side : Side} {order : List (Item k)} (hne : moving.id ≠ target) (hm : moving ∈ items)
    (hmove : Chain.move ⟨owner, s.store.version k owner, items⟩ moving.id target side =
      .ok { puts := Chain.relinked order })
    (hempty : Splice.isEmpty { puts := Chain.relinked order } = true) :
    s.run (Editing.move limit k owner moving.id target side) = (.ok false, s) := by
  have hin : decide (moving.id ∈ idsOf items) = true := decide_eq_true (List.mem_map_of_mem hm)
  rw [Editing.move, if_neg hne]
  refine run_retry .move limit ((run_bind_ok (run_chain_of_holds hs h) _).trans ?_) (by rintro _ ⟨⟩)
  simp only [contains_eq, hin, hmove, Program.ofExcept, bind_done_ok, hempty]
  rfl

/-- A row that is not in the list cannot be moved in it: it is stored nowhere, or for another example. -/
theorem run_move_of_not_mem (hs : s.store.Ordered) (limit : Nat) (h : s.store.Holds owner items)
    {id target : ItemId} (side : Side) (hne : id ≠ target) (hid : id ∉ idsOf items) :
    s.run (Editing.move limit k owner id target side) = (match s.store.item? k id with
      | none => .error (.notFound k id)
      | some _ => .error (.exampleMismatch k id owner), s) := by
  have hout : decide (id ∈ idsOf items) = false := decide_eq_false hid
  rw [Editing.move, if_neg hne]
  cases hget : s.store.item? k id with
  | none =>
    refine run_retry .move limit ((run_bind_ok (run_chain_of_holds hs h) _).trans ?_) (by rintro _ ⟨⟩; rfl)
    simp only [contains_eq, hout]
    exact run_bind_error (run_get_of_none hs hget) _
  | some item =>
    refine run_retry .move limit ((run_bind_ok (run_chain_of_holds hs h) _).trans ?_) (by rintro _ ⟨⟩; rfl)
    simp only [contains_eq, hout]
    exact run_bind_ok (run_get_of_some hs hget) _

/-- A row cannot be moved next to one that is not in the list. -/
theorem run_move_of_target_not_mem (hs : s.store.Ordered) (limit : Nat) (h : s.store.Holds owner items)
    {id target : ItemId} {side : Side} (hne : id ≠ target) (hid : id ∈ idsOf items)
    (hmove : Chain.move ⟨owner, s.store.version k owner, items⟩ id target side =
      .error (.invalidTarget target owner)) :
    s.run (Editing.move limit k owner id target side) = (.error (.invalidTarget target owner), s) := by
  have hin : decide (id ∈ idsOf items) = true := decide_eq_true hid
  rw [Editing.move, if_neg hne]
  refine run_retry .move limit ((run_bind_ok (run_chain_of_holds hs h) _).trans ?_) (by rintro _ ⟨⟩; rfl)
  simp only [contains_eq, hin, hmove, Program.ofExcept]
  rfl

/-- How a run of a move ends: at once with an error that names what is wrong, with nothing to do, or with
a commit that puts the rows into a new order. -/
inductive Moves (s : Session) (p : Program Bool) (owner : ExampleId) (items : List (Item k)) : Prop
  | refused (e : EngineError) (h : s.run p = (.error e, s))
      (status : e.status = .invalidArgument ∨ ∃ id, e = .notFound k id)
  | inPlace (h : s.run p = (.ok false, s))
  | relinked (order : List (Item k)) (perm : order.Perm items)
    (h : s.Commits p true owner items { puts := Chain.relinked order } [] (link none order))

theorem moves_move (hs : s.store.Ordered) (limit : Nat) (h : s.store.Holds owner items) (id target : ItemId)
    (side : Side) : s.Moves (Editing.move limit k owner id target side) owner items := by
  by_cases hne : id = target
  · refine .refused (.selfReferentialMove id) ?_ (Or.inl rfl)
    rw [Editing.move, if_pos hne]
    rfl
  rcases Chain.move_eq (c := ⟨owner, s.store.version k owner, items⟩) side hne with
    ⟨moving, hm, rfl, ht, hto, hmove⟩ | ⟨hid, -⟩ | ⟨hid, -, hmove⟩
  · have hperm := moved_perm (c := ⟨owner, s.store.version k owner, items⟩) h.linked hm hto side
    generalize Chain.moved ⟨owner, s.store.version k owner, items⟩ moving target side = order at hmove hperm
    by_cases hempty : Splice.isEmpty { puts := Chain.relinked order } = true
    · exact .inPlace (run_move_of_same hs limit h hne hm hmove hempty)
    · exact .relinked order hperm (commits_move hs limit h hne hm hmove hperm (by simpa using hempty))
  · have hrun := run_move_of_not_mem hs limit h side hne hid
    cases hget : s.store.item? k id with
    | none =>
      rw [hget] at hrun
      exact .refused _ hrun (Or.inr ⟨id, rfl⟩)
    | some item =>
      rw [hget] at hrun
      exact .refused _ hrun (Or.inl rfl)
  · exact .refused _ (run_move_of_target_not_mem hs limit h hne hid hmove) (Or.inl rfl)

/-! ## Changing a row -/

/-- An edit of a row in its place: it keeps the id, the example and the place. -/
def InPlace (edit : Item k → Except EngineError (Item k × Bool)) : Prop :=
  ∀ x edited : Item k, edit x = .ok (edited, true) →
    edited.id = x.id ∧ edited.owner = x.owner ∧ edited.prev = x.prev ∧ edited.next = x.next

/-- An edit in place that never fails, and keeps the row linked as it was or clears its link. -/
structure Sure (edit : Item k → Except EngineError (Item k × Bool)) : Prop where
  inPlace : InPlace edit
  parent : ∀ x edited : Item k, edit x = .ok (edited, true) → edited.parent = x.parent ∨ edited.parent = none
  total : ∀ x, ∃ r, edit x = .ok r

/-- An edit that leaves a row as it is or stores what `f` makes of it. -/
def Alters (edit : Item k → Except EngineError (Item k × Bool)) (f : Item k → Item k) : Prop :=
  ∀ x, edit x = .ok (x, false) ∨ edit x = .ok (f x, true)

section Alters

variable {edit : Item k → Except EngineError (Item k × Bool)} {f : Item k → Item k}

theorem Alters.eq (h : Alters edit f) {x edited : Item k} (he : edit x = .ok (edited, true)) :
    edited = f x := by
  rcases h x with hx | hx
  · rw [hx] at he
    cases he
  · rw [hx] at he
    cases he
    rfl

theorem Alters.sure (h : Alters edit f)
    (hplace : ∀ x, (f x).id = x.id ∧ (f x).owner = x.owner ∧ (f x).prev = x.prev ∧ (f x).next = x.next)
    (hparent : ∀ x, (f x).parent = x.parent ∨ (f x).parent = none) : Sure edit where
  inPlace x edited he := by rw [h.eq he]; exact hplace x
  parent x edited he := by rw [h.eq he]; exact hparent x
  total x := (h x).elim (fun hx => ⟨_, hx⟩) fun hx => ⟨_, hx⟩

theorem alters_takeFields (parent : ItemId) (fields : Fields k) :
    Alters (Cascade.takeFields parent fields) fun x => { x with fields } := by
  intro x
  unfold Cascade.takeFields
  split
  · exact Or.inl rfl
  · exact Or.inr rfl

theorem alters_clearLink (parent : ItemId) :
    Alters (k := k) (Cascade.clearLink parent) fun x => { x with parent := none } := by
  intro x
  unfold Cascade.clearLink
  split
  · exact Or.inl rfl
  · exact Or.inr rfl

theorem alters_restore (fields : Fields k) :
    Alters (Cascade.restore fields) fun x => { x with fields, overridden := false } := by
  intro x
  unfold Cascade.restore
  split
  · exact Or.inl rfl
  · exact Or.inr rfl

theorem alters_applyPatch (patch : Patch k) (customize : Bool) :
    Alters (Service.applyPatch patch customize) fun x =>
      { x with
        fields := Fields.patch x.fields patch
        overridden := x.overridden || (customize && x.isLinked && !x.overridden) } := by
  intro x
  unfold Service.applyPatch
  dsimp only
  split
  · exact Or.inl rfl
  · exact Or.inr rfl

theorem sure_takeFields (parent : ItemId) (fields : Fields k) : Sure (Cascade.takeFields parent fields) :=
  (alters_takeFields parent fields).sure (fun _ => ⟨rfl, rfl, rfl, rfl⟩) fun _ => Or.inl rfl

theorem sure_clearLink (parent : ItemId) : Sure (k := k) (Cascade.clearLink parent) :=
  (alters_clearLink parent).sure (fun _ => ⟨rfl, rfl, rfl, rfl⟩) fun _ => Or.inr rfl

theorem sure_restore (fields : Fields k) : Sure (Cascade.restore fields) :=
  (alters_restore fields).sure (fun _ => ⟨rfl, rfl, rfl, rfl⟩) fun _ => Or.inl rfl

theorem sure_applyPatch (patch : Patch k) (customize : Bool) : Sure (Service.applyPatch patch customize) :=
  (alters_applyPatch patch customize).sure (fun _ => ⟨rfl, rfl, rfl, rfl⟩) fun _ => Or.inl rfl

end Alters

variable {edit : Item k → Except EngineError (Item k × Bool)} {id : ItemId} {x edited : Item k}

theorem run_modify_of_none (hs : s.store.Ordered) (limit : Nat) (h : s.store.item? k id = none) :
    s.run (Editing.modify limit id edit) = (.error (.notFound k id), s) :=
  run_retry .modify limit (run_bind_error (run_get_of_none hs h) _) (by rintro _ ⟨⟩; rfl)

/-- What is read before a row is changed is the row itself. -/
theorem get?_of_item? (hs : s.store.Ordered) (h : s.store.item? k id = some x)
    (hl : s.store.Holds x.owner items) (version : Nat) :
    Chain.get? ⟨x.owner, version, items⟩ id = some x := by
  have hid := hs.id_of_item? h
  subst hid
  exact find?_id_of_mem hl.linked.nodup (hl.mem_of_item? hs h rfl)

theorem run_modify_of_same (hs : s.store.Ordered) (limit : Nat) (h : s.store.item? k id = some x)
    (he : edit x = .ok (edited, false)) : s.run (Editing.modify limit id edit) = (.ok edited, s) := by
  obtain ⟨items, hl⟩ := hs.lists k x.owner
  refine run_retry .modify limit ((run_bind_ok (run_get_of_some hs h) _).trans
    ((run_bind_ok (run_chain_of_holds hs hl) _).trans ?_)) (by rintro _ ⟨⟩)
  simp only [get?_of_item? hs h hl, he, Program.ofExcept]
  rfl

/-- No stored row becomes its own parent. -/
theorem Sure.selfless (hedit : Sure edit) (hs : s.store.Ordered) (h : s.store.item? k id = some x)
    (he : edit x = .ok (edited, true)) : edited.parent ≠ some edited.id := by
  rcases hedit.parent x edited he with hp | hp
  · rw [hp, (hedit.inPlace x edited he).1]
    obtain rfl := hs.id_of_item? h
    exact hs.selfless h
  · rw [hp]; simp

/-- **Changing** a row in its place. -/
theorem commits_modify (hs : s.store.Ordered) (limit : Nat) (hedit : InPlace edit)
    (h : s.store.item? k id = some x) (he : edit x = .ok (edited, true))
    (hself : edited.parent ≠ some edited.id) (hl : s.store.Holds x.owner items) :
    s.Commits (Editing.modify limit id edit) edited x.owner items { puts := [edited] } [id]
      (replaced items edited) := by
  obtain ⟨hid, ho, hprev, hnext⟩ := hedit x edited he
  have hx := hl.mem_of_item? hs h rfl
  have hp := hl.planned_replace hx hid ho hprev hnext hself
  refine .retry .modify limit (.of_read (run_get_of_some hs h) (.of_read (run_chain_of_holds hs hl) ?_))
  simp only [get?_of_item? hs h hl, he, Program.ofExcept, bind_done_ok]
  refine (commits_of_planned hs hp [id] fun id' hid' => ?_).returning rfl
  rw [List.mem_singleton.1 hid', ← hs.id_of_item? h]
  exact List.mem_map_of_mem hx

/-! ## Filling a list with counterparts -/

/-- How a run of materialization ends: the list has a counterpart for every row of the origin, or they
are made and put to its end by one commit. -/
inductive Materializes (s : Session) (p : Program (Chain k)) (origin : Chain k) (delta : ExampleId)
    (items : List (Item k)) : Prop
  | covered (none : Overlay.uncovered origin ⟨delta, s.store.version k delta, items⟩ = [])
      (h : s.run p = (.ok ⟨delta, s.store.version k delta, items⟩, s))
  | refused (t : Session) (ids : List ItemId) (ht : s.Minted t ids) (e : String)
      (h : s.run p = (.error (.store (.backend e)), t)) (failing : t.store.failing ≠ ∅)
  | filled (new : List (Item k)) (t u : Session) (ht : s.Minted t (idsOf new).reverse)
      (counterparts : List.Forall₂ (fun row i => i = Item.counterpart i.id delta row)
        (Overlay.uncovered origin ⟨delta, s.store.version k delta, items⟩) new)
      (turned : t.Turned u delta items (link none (items ++ new)))
      (h : s.run p = (.ok ⟨delta, s.store.version k delta + 1, link none (items ++ new)⟩, u))

theorem run_minted_retry (s : Session) (operation : Operation) (limit : Nat) (p : Program α) :
    (s.run p).2.minted <:+ (s.run (Program.retry operation limit p)).2.minted := by
  obtain ⟨n, hn⟩ : ∃ n, max limit 1 = n + 1 := ⟨max limit 1 - 1, by omega⟩
  rw [Program.retry, hn, retry.again, run_bind, run_outcome]
  exact run_minted _ _

/-- Counterparts under new ids are rows that may be stored. -/
theorem fresh_counterparts (hs : s.Sane) {t : Session} {delta : ExampleId} {rows new : List (Item k)}
    (hrows : ∀ i ∈ rows, i.id ∈ s.minted) (ht : s.Minted t (idsOf new).reverse) (hnd : t.minted.Nodup)
    (hnew : List.Forall₂ (fun row i => i = Item.counterpart i.id delta row) rows new) :
    (idsOf new).Nodup ∧ ∀ i ∈ new, i.owner = delta ∧ i.parent ≠ some i.id ∧ t.store.get? k i.id = none := by
  have hids : (idsOf new).Nodup := by
    rw [ht.minted, List.nodup_append, List.nodup_reverse] at hnd
    exact hnd.1
  refine ⟨hids, fun i hi => ?_⟩
  obtain ⟨row, hrow, hc⟩ := exists_of_forall₂ hnew hi
  have hi' : i.id ∉ s.minted := ht.forall_not_mem hnd i hi
  refine ⟨by rw [hc]; rfl, fun hp => hi' ?_, by rw [ht.store]; exact hs.get?_eq_none hi' k⟩
  have hparent : i.parent = some row.id := by rw [hc]; rfl
  rw [← Option.some.inj (hparent.symm.trans hp)]
  exact hrows row hrow

/-- A row of the origin has a row linked to it in the list, or it is uncovered. -/
theorem exists_linked_of_forall₂ {origin : Chain k} {delta : ExampleId} {version : Nat} {new : List (Item k)}
    {x : Item k} (hx : x ∈ origin.items) (hnew : List.Forall₂ (fun row i => i = Item.counterpart i.id delta row)
      (Overlay.uncovered origin ⟨delta, version, items⟩) new) : ∃ i ∈ items ++ new, i.parent = some x.id := by
  by_cases hcovered : ∃ i ∈ items, i.parent = some x.id
  · obtain ⟨i, hi, hp⟩ := hcovered
    exact ⟨i, List.mem_append_left _ hi, hp⟩
  · have hmissing : x ∈ Overlay.uncovered origin ⟨delta, version, items⟩ := by
      refine List.mem_filter.2 ⟨hx, ?_⟩
      simpa using fun i hi hp => hcovered ⟨i, hi, hp⟩
    obtain ⟨i, hi, hc⟩ := exists_of_forall₂ hnew.flip hmissing
    exact ⟨i, List.mem_append_right _ hi, by rw [hc]; rfl⟩

/-- A list that covers the origin's is read and left as it is. -/
theorem run_materialize_of_covered (hs : s.store.Ordered) (limit : Nat) (origin : Chain k) {delta : ExampleId}
    (h : s.store.Holds delta items)
    (hnone : Overlay.uncovered origin ⟨delta, s.store.version k delta, items⟩ = []) :
    s.run (Service.materialize limit origin delta) = (.ok ⟨delta, s.store.version k delta, items⟩, s) := by
  refine run_retry .materialize limit ((run_bind_ok (run_chain_of_holds hs h) _).trans ?_) (by rintro _ ⟨⟩)
  simp only [hnone]
  rfl

theorem materializes (hs : s.Sane) (limit : Nat) (origin : Chain k) {delta : ExampleId}
    (h : s.store.Holds delta items) (horigin : ∀ i ∈ origin.items, i.id ∈ s.minted)
    (hnd : (s.run (Service.materialize limit origin delta)).2.minted.Nodup) :
    s.Materializes (Service.materialize limit origin delta) origin delta items := by
  have hchain := run_chain_of_holds hs.ordered h
  generalize hmissing : Overlay.uncovered origin ⟨delta, s.store.version k delta, items⟩ = missing
  by_cases hempty : missing = []
  · subst hempty
    exact .covered hmissing (run_materialize_of_covered hs.ordered limit origin h hmissing)
  obtain ⟨new, t, hrun, ht, hnew⟩ := run_counterparts delta s missing
  -- after the list was read and the ids were minted there is the commit, and the list is read again
  have hrest : s.run (do
      let current ← Program.chain k delta
      let missing := Overlay.uncovered origin current
      if missing.isEmpty then return current
      let rows ← collect (fun row => return Item.counterpart (← mint) delta row) missing
      commitSplice current (current.appendAll rows)
      Program.chain k delta) = t.run (do
        commitSplice ⟨delta, s.store.version k delta, items⟩
          (Chain.appendAll ⟨delta, s.store.version k delta, items⟩ new)
        Program.chain k delta) := by
    refine (run_bind_ok hchain _).trans ?_
    simp only [hmissing, List.isEmpty_iff, hempty, if_false]
    exact run_bind_ok hrun _
  have htnd : t.minted.Nodup := by
    refine hnd.sublist (List.IsSuffix.sublist ?_)
    refine List.IsSuffix.trans ?_ (run_minted_retry s .materialize limit _)
    rw [hrest]
    exact run_minted _ _
  have hs' := hs.of_minted ht
  have h' : t.store.Holds delta items := ht.store ▸ h
  obtain ⟨hidnd, hfresh⟩ := fresh_counterparts hs
    (fun row hrow => horigin row (List.mem_filter.1 (hmissing ▸ hrow)).1) ht htnd hnew
  have hne : new ≠ [] := by
    rintro rfl
    exact hempty (List.forall₂_nil_right_iff.1 hnew)
  have hp := h'.planned_append hs'.ordered.sound (s.store.version k delta) hne hidnd hfresh
  have hc := commits_of_planned hs'.ordered hp _ hp.turns.deleted
  rw [show t.store.version k delta = s.store.version k delta by rw [ht.store]] at hc
  rcases hc with ⟨hb, e, hcommit⟩ | ⟨-, hcommit, hu⟩
  · refine .refused t _ ht e
      (run_retry .materialize limit (hrest.trans (run_bind_error hcommit _)) (by rintro _ ⟨⟩; rfl)) ?_
    exact fun hf => Store.Blocked.of_failing_empty hf hb
  · refine .filled new t _ ht (hmissing ▸ hnew) hu
      (run_retry .materialize limit (hrest.trans ((run_bind_ok hcommit _).trans ?_)) (by rintro _ ⟨⟩))
    have hv := hu.turned.version
    rw [ht.store] at hv
    rw [← hv]
    exact run_chain_of_holds (hu.ordered hs'.ordered) hu.turned.holds

end Session

end ExampleOverlay
