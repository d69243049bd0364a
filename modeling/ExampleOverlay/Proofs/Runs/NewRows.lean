import ExampleOverlay.Proofs.Runs.Calm

/-!
# New rows

The calls that make rows, seen as rows, in a session in which no row is made to fail. Creating a row adds one
under an id that was minted for it (`Session.Adds`); a row that is linked is linked to a row stored for
another example. Reading an overlay adds a counterpart for every row of the origin that has none in the delta
(`Session.Fills`). What was stored before says what it said.
-/

namespace ExampleOverlay.Session

open Chain Program

variable {k : Kind} {s t u : Session} {α : Type}

/-! ## Checks -/

/-- Fields that break a rule stop a call before it does anything. -/
theorem run_require (s : Session) (fault : Option FieldError) (p : Program α) :
    (∃ e, s.run (do Service.require fault; p) = (.error (.invalidFields e), s)) ∨
      s.run (do Service.require fault; p) = s.run p := by
  cases fault with
  | some e => exact Or.inl ⟨e, rfl⟩
  | none => exact Or.inr rfl

/-- A parent passes if it is a row of the origin given, and that is not the delta. -/
theorem run_requireParent (hs : s.store.Ordered) (k : Kind) (delta : ExampleId) (origin : Option ExampleId)
    (parent : ItemId) : (∃ e, s.run (Service.requireParent k delta origin parent) = (.error e, s)) ∨
      s.run (Service.requireParent k delta origin parent) = (.ok (), s) ∧
        ∃ x : Item k, s.store.item? k parent = some x ∧ origin = some x.owner ∧ x.owner ≠ delta := by
  unfold Service.requireParent
  cases origin with
  | none => exact Or.inl ⟨_, rfl⟩
  | some origin =>
    dsimp only
    unfold Service.requireOther
    by_cases hsame : delta = origin
    · rw [if_pos hsame]
      exact Or.inl ⟨_, rfl⟩
    rw [if_neg hsame]
    cases hx : s.store.item? k parent with
    | none => exact Or.inl ⟨_, run_bind_error (run_get_of_none hs hx) _⟩
    | some x =>
      have hread := run_bind_ok (run_get_of_some hs hx) fun row =>
        if row.owner = origin then return () else fail (.parentMismatch parent origin)
      by_cases ho : x.owner = origin
      · rw [if_pos ho] at hread
        exact Or.inr ⟨hread, x, rfl, by rw [ho], ho ▸ Ne.symm hsame⟩
      · rw [if_neg ho] at hread
        exact Or.inl ⟨_, hread⟩

/-! ## Creating rows -/

/-- A row was added under an id that was minted for it. -/
structure Adds (s u : Session) (i : Item k) : Prop where
  fresh : s.store.bare? k i.id = none
  rewrites : ∃ t, s.Minted t [i.id] ∧ t.Rewrites u (Function.update (s.store.bare? k) i.id (some i.bare))

theorem adds_appendNew (hs : s.Sane) (hcalm : s.store.failing = ∅) (limit : Nat) {row : ItemId → Item k}
    (hid : ∀ id, (row id).id = id) (hparent : ∀ id, ∀ p ∈ (row id).parent, p ∈ s.minted)
    (hnd : (s.run (Service.appendNew limit row)).2.minted.Nodup) :
    ∃ id u, s.run (Service.appendNew limit row) = (.ok id, u) ∧ s.Adds u (row id) := by
  obtain ⟨id, t, hmint, ht⟩ := run_mint s
  unfold Service.appendNew at hnd ⊢
  rw [run_bind_ok hmint] at hnd ⊢
  have hnew := ht.not_mem (hnd.sublist (run_minted t _).sublist)
  have hnone := hs.get?_eq_none hnew k
  obtain ⟨stored, u, hrun, hbare, hu⟩ := rewrites_append (hs.of_minted ht) (by rw [ht.store]; exact hcalm) limit
    (row id) (fun hp => hnew (by rw [hid] at hp; exact hparent id id hp))
    (by rw [hid, ht.minted]; exact List.mem_cons_self) (by rw [hid, ht.store]; exact hnone)
  rw [ht.store] at hu
  have hstored : stored.id = id := (Item.id_eq_of_bare_eq hbare).trans (hid id)
  refine ⟨id, u, (run_bind_ok hrun _).trans (by rw [hstored]; rfl), ?_, t, by rwa [hid], hu⟩
  rw [hid]
  exact Store.bare?_eq_none_iff.2 (hs.ordered.get?_eq_none_iff.1 hnone)

/-- **Creating** a row. -/
theorem adds_create (hs : s.Sane) (hcalm : s.store.failing = ∅) (limit : Nat) (owner : ExampleId)
    (fields : Fields k) (hnd : (s.run (Service.create limit owner fields)).2.minted.Nodup) :
    (∃ e, s.run (Service.create limit owner fields) = (.error e, s)) ∨
      ∃ id u, s.run (Service.create limit owner fields) = (.ok id, u) ∧
        s.Adds u (Item.fresh id owner fields) := by
  rw [Service.create_eq] at hnd ⊢
  rcases run_require s (Fields.fault? fields)
    (Service.appendNew limit fun id => Item.fresh id owner fields) with ⟨e, hrun⟩ | hrun
  · exact Or.inl ⟨_, hrun⟩
  · rw [hrun] at hnd ⊢
    exact Or.inr (adds_appendNew hs hcalm limit (fun _ => rfl) (by simp [Item.fresh]) hnd)

/-- **Creating** a row of a delta. -/
theorem adds_deltaCreate (hs : s.Sane) (hcalm : s.store.failing = ∅) (limit : Nat) (delta : ExampleId)
    (origin : Option ExampleId) (parent : Option ItemId) (fields : Fields k)
    (hnd : (s.run (Service.deltaCreate limit delta origin parent fields)).2.minted.Nodup) :
    (∃ e, s.run (Service.deltaCreate limit delta origin parent fields) = (.error e, s)) ∨
      (∀ p ∈ parent, ∃ x : Item k, s.store.item? k p = some x ∧ origin = some x.owner ∧ x.owner ≠ delta) ∧
        ∃ id u, s.run (Service.deltaCreate limit delta origin parent fields) = (.ok id, u) ∧
          s.Adds u { Item.fresh id delta fields with parent, overridden := parent.isSome } := by
  cases parent with
  | none =>
    rw [Service.deltaCreate_none] at hnd ⊢
    rcases run_require s (Fields.fault? fields)
      (Service.appendNew limit fun id => Item.fresh id delta fields) with ⟨e, hrun⟩ | hrun
    · exact Or.inl ⟨_, hrun⟩
    · rw [hrun] at hnd ⊢
      exact Or.inr ⟨by simp, adds_appendNew hs hcalm limit (fun _ => rfl) (by simp [Item.fresh]) hnd⟩
  | some parent =>
    rw [Service.deltaCreate_some] at hnd ⊢
    rcases run_require s (Fields.fault? fields) (do
      Service.requireParent k delta origin parent
      Service.appendNew limit
        fun id => { Item.fresh id delta fields with parent := some parent, overridden := true })
      with ⟨e, hrun⟩ | hrun
    · exact Or.inl ⟨_, hrun⟩
    rw [hrun] at hnd ⊢
    rcases run_requireParent hs.ordered k delta origin parent with ⟨e, hcheck⟩ | ⟨hcheck, x, hx, ho, hne⟩
    · exact Or.inl ⟨e, run_bind_error hcheck _⟩
    rw [run_bind_ok hcheck] at hnd ⊢
    refine Or.inr ⟨fun p hp => ?_, adds_appendNew hs hcalm limit (fun _ => rfl) (fun id p hp => ?_) hnd⟩
    · obtain rfl := Option.mem_some_iff.1 hp
      exact ⟨x, hx, ho, hne⟩
    · obtain rfl := Option.mem_some_iff.1 hp
      exact hs.minted (hs.ordered.item?_eq_some_iff.1 hx)

/-! ## Reading an overlay -/

theorem run_deltaList (hs : s.store.Ordered) (limit : Nat) {delta origin : ExampleId} (hne : delta ≠ origin)
    {list : List (Item k)} (hlist : s.store.Holds origin list) :
    s.run (Service.deltaList limit k delta origin) = s.run (do
      let deltaList ← Service.materialize limit ⟨origin, s.store.version k origin, list⟩ delta
      let version ← isVersion delta
      return Overlay.compose ⟨origin, s.store.version k origin, list⟩ deltaList version) := by
  unfold Service.deltaList Service.requireOther
  rw [if_neg hne]
  exact run_bind_ok (run_chain_of_holds hs hlist) _

/-- How the rows stand after an overlay was read: as before, or with counterparts of rows of the origin. -/
inductive Fills (k : Kind) (s u : Session) (delta origin : ExampleId) : Prop
  | same (h : u = s)
  | filled (new : List (Item k)) (t : Session) (ht : s.Minted t (idsOf new).reverse)
      (fresh : ∀ i ∈ new, s.store.bare? k i.id = none)
      (counterparts : ∀ i ∈ new, ∃ row : Item k, s.store.item? k row.id = some row ∧ row.owner = origin ∧
        origin ≠ delta ∧ i = Item.counterpart i.id delta row)
      (rewrites : t.Rewrites u fun id =>
        ((new.find? (·.id == id)).map Item.bare).or (s.store.bare? k id))

/-- **Reading an overlay.** -/
theorem fills_deltaList (hs : s.Sane) (hcalm : s.store.failing = ∅) (limit : Nat) (delta origin : ExampleId)
    (hnd : (s.run (Service.deltaList limit k delta origin)).2.minted.Nodup) :
    Fills k s (s.run (Service.deltaList limit k delta origin)).2 delta origin := by
  have hord := hs.ordered
  by_cases hsame : delta = origin
  · unfold Service.deltaList Service.requireOther
    rw [if_pos hsame]
    exact .same rfl
  obtain ⟨list, hlist⟩ := hord.lists k origin
  obtain ⟨items, hitems⟩ := hord.lists k delta
  rw [run_deltaList hord limit hsame hlist] at hnd ⊢
  have hmat := hnd.sublist (run_minted_bind s _ _).sublist
  cases materializes hs limit ⟨origin, s.store.version k origin, list⟩ hitems
    (fun i hi => hs.minted (hlist.get?_of_mem hi)) hmat with
  | covered _ hrun =>
    rw [run_bind_ok hrun]
    exact .same rfl
  | refused t ids ht e _ failing => exact absurd hcalm (ht.store ▸ failing)
  | filled new t u ht counterparts hu hrun =>
    rw [run_bind_ok hrun]
    have hids : ∀ id ∈ idsOf (link none (items ++ new)), id ∈ idsOf items ∨ id ∈ t.minted := by
      intro id hid
      rw [idsOf_link, idsOf, List.map_append, List.mem_append] at hid
      refine hid.imp_right fun hn => ?_
      rw [ht.minted]
      exact List.mem_append_left _ (List.mem_reverse.2 hn)
    have hrows := hu.turned.bare?_append (ht.store ▸ hitems)
    rw [ht.store] at hrows
    rw [hrun, hu.eq] at hmat
    have htnd : t.minted.Nodup := hmat
    refine .filled new t ht (fun i hi => ?_) (fun i hi => ?_) (hu.rewrites (hs.of_minted ht) hids hrows)
    · refine Store.bare?_eq_none_iff.2 (hord.get?_eq_none_iff.1 (hs.get?_eq_none ?_ k))
      exact ht.forall_not_mem htnd i hi
    · obtain ⟨row, hrow, hc⟩ := exists_of_forall₂ counterparts hi
      have hmem : row ∈ list := (List.mem_filter.1 hrow).1
      exact ⟨row, hlist.item?_of_mem hmem, hlist.owned row hmem, Ne.symm hsame, hc⟩

/-- A row that was stored is none of the new ones. -/
theorem filled_of_stored {rows : ItemId → Option (Item k)} {new : List (Item k)} {id : ItemId} {x : Item k}
    (hnew : ∀ i ∈ new, rows i.id = none) (hx : rows id = some x) :
    ((new.find? (·.id == id)).map Item.bare).or (rows id) = some x := by
  have hid : id ∉ idsOf new := by
    intro hid
    obtain ⟨i, hi, rfl⟩ := List.mem_map.1 hid
    rw [hnew i hi] at hx
    cases hx
  rw [find?_id_eq_none.2 hid, Option.map_none, Option.none_or, hx]

/-- A row that was not stored is one of the new ones. -/
theorem exists_of_filled {rows : ItemId → Option (Item k)} {new : List (Item k)} {id : ItemId} {i : Item k}
    (hi : ((new.find? (·.id == id)).map Item.bare).or (rows id) = some i) (hnone : rows id = none) :
    ∃ j ∈ new, j.id = id ∧ j.bare = i := by
  rw [hnone, Option.or_none] at hi
  obtain ⟨j, hj, rfl⟩ := Option.map_eq_some_iff.1 hi
  exact ⟨j, List.mem_of_find?_eq_some hj, by simpa using List.find?_some hj, rfl⟩

end ExampleOverlay.Session
