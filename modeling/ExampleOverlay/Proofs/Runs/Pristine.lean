import ExampleOverlay.Proofs.Runs.Counterparts
import ExampleOverlay.Proofs.Runs.Integrity
import ExampleOverlay.Proofs.Runs.NewRows

/-!
# Pristine rows show their parents

Where calls respect which examples are origins and which are deltas, every call leaves every counterpart in
sync with its parent, and so does every run of calls: a linked row of a plain example that was never
customized shows what the row it is linked to says now.
-/

namespace ExampleOverlay

open Chain Program

variable {k : Kind}

/-! ## Calls that keep origins and deltas apart -/

/-- Origins are edited as origins, and deltas as deltas of origins. Rows that are not stored may be named. -/
def Call.Respects (O D : ExampleId → Prop) (s : Session) : Call k → Prop
  | .create owner _ | .move owner .. => O owner
  | .update id _ | .delete id => ∀ i : Item k, s.store.item? k id = some i → O i.owner
  | .deltaList delta origin => D delta ∧ O origin
  | .deltaCreate delta origin _ _ => D delta ∧ ∀ o ∈ origin, O o
  | .deltaUpdate id _ | .deltaDelete id | .deltaReset id =>
    ∀ i : Item k, s.store.item? k id = some i → D i.owner
  | .deltaMove delta .. => D delta

namespace Session

/-- Calls respect origins and deltas, and nothing is made to fail. -/
def Event.Respects (O D : ExampleId → Prop) (s : Session) : Event → Prop
  | .call c => c.Respects O D s
  | .aside (.failWrites _) => False
  | .aside _ => True

variable {s t : Session} {O D : ExampleId → Prop} {α : Type}

abbrev AllInSync (O D : ExampleId → Prop) (s : Session) : Prop := ∀ k : Kind, s.InSync O D k fun _ => False

/-! ## Rows of origins -/

theorem InSync.all (h : s.InSync O D k fun _ => False) : s.AllInSync O D := by
  intro k'
  refine ⟨h.sane, h.calm, ?_, fun {k''} _ => ?_⟩
  · by_cases hk : k' = k
    · subst hk; exact h.shows
    · exact h.others hk
  · by_cases hk : k'' = k
    · subst hk; exact h.shows
    · exact h.others hk

theorem InSync.of_minted {excused : ItemId → Prop} {ids : List ItemId} (h : s.InSync O D k excused)
    (ht : s.Minted t ids) :
    t.InSync O D k excused where
  sane := h.sane.of_minted ht
  calm := by rw [ht.store]; exact h.calm
  shows := by
    rw [ht.versions, ht.store]
    exact h.shows
  others hk := by
    rw [ht.versions, ht.store]
    exact h.others hk

/-- A row was added that is an unlinked row of an origin or a row of a delta that follows its parent. -/
theorem InSync.added (h : s.InSync O D k fun _ => False) {i : Item k} (hi : s.Adds t i)
    (hown : O i.owner ∧ i.parent = none ∨ D i.owner) (hfollows : Follows O s.versions (s.store.bare? k) i) :
    t.AllInSync O D := by
  obtain ⟨hfresh, u, hu, ht⟩ := hi
  have hsync := h.of_minted hu
  refine (hsync.rewrites ht ?_).all
  rw [← hu.store]
  refine hsync.shows.extend (fun {j x} hx => ?_) fun {j y} hy hj => ?_
  · rw [Function.update_of_ne, hx]
    rintro rfl
    rw [hu.store, hfresh] at hx
    cases hx
  · rw [Function.update_apply] at hy
    split at hy
    next he =>
      obtain rfl := Option.some.inj hy
      refine ⟨he.symm, hown, ?_⟩
      rw [hu.store, hu.versions]
      exact hfollows
    · rw [hj] at hy
      cases hy

/-! ## Updates and deletions -/

variable {limit : Nat} {id : ItemId} {patch : Patch k} {x : Item k}

/-- A row of an origin is written, and its counterparts are behind. -/
theorem InSync.written (hOD : ∀ owner, D owner → ¬ O owner) (h : s.InSync O D k fun _ => False)
    (hx : s.store.item? k id = some x) (hO : O x.owner) {new : Option (Item k)}
    (hnew : ∀ i ∈ new, i.id = x.id ∧ i.owner = x.owner ∧ i.parent = x.parent)
    (ht : s.Rewrites t (Function.update (s.store.bare? k) id new)) :
    t.InSync O D k (LinkedTo id (t.store.bare? k)) := by
  have hown : O x.owner ∧ x.parent = none :=
    (h.shows.owned (Store.bare?_of_item? hx)).resolve_right fun hD => hOD _ hD hO
  rw [ht.rows]
  refine h.rewrites ht (h.shows.write_origin new fun i hi => ?_)
  obtain ⟨hid, ho, hp⟩ := hnew i hi
  exact ⟨hid.trans (h.sane.ordered.id_of_item? hx), ho ▸ hown.1, hp.trans hown.2⟩

/-- **An update of a row of an origin** is carried to all counterparts before it ends. -/
theorem inSync_update (hOD : ∀ owner, D owner → ¬ O owner) (h : s.InSync O D k fun _ => False) (limit : Nat)
    (id : ItemId) (patch : Patch k) (hO : ∀ i : Item k, s.store.item? k id = some i → O i.owner) :
    (s.run (Service.update limit id patch)).2.AllInSync O D := by
  cases updates_update h.sane limit id patch with
  | refused e hrun _ | same x _ _ hrun =>
    rw [hrun]
    exact h.all
  | carried x hx _ u hu t report ht hrun =>
    rw [hrun]
    have hsync := h.written hOD hx (hO x hx) (by rintro i ⟨⟩; exact ⟨rfl, rfl, rfl⟩) hu
    have hself := congrFun hu.rows id
    rw [Function.update_self] at hself
    rw [← hu.versions] at ht
    exact (hsync.followed hOD hself (hO x hx) ht).all

/-- **A deletion of a row of an origin** is carried to all counterparts before it ends. -/
theorem inSync_delete (hOD : ∀ owner, D owner → ¬ O owner) (h : s.InSync O D k fun _ => False) (limit : Nat)
    (id : ItemId) (hO : ∀ i : Item k, s.store.item? k id = some i → O i.owner) :
    (s.run (Service.delete limit k id)).2.AllInSync O D := by
  cases deletes_delete h.sane limit k id with
  | refused e hrun _ =>
    rw [hrun]
    exact h.all
  | carried x hx u hu t report ht hrun =>
    rw [hrun]
    have hsync := h.written hOD hx (hO x hx) (by simp) hu
    rw [← hu.versions] at ht
    exact (hsync.outlived hOD ht).all

/-! ## Rows of deltas -/

theorem InSync.not_origin (hOD : ∀ owner, D owner → ¬ O owner) {x : Item k} (hx : s.store.item? k id = some x)
    (hD : D x.owner) : ∀ y, s.store.bare? k id = some y → ¬ O y.owner := by
  intro y hy
  rw [Store.bare?, hx, Option.map_some, Option.some.injEq] at hy
  rw [← hy]
  exact hOD _ hD

/-- A row of a delta is changed to one that shows its parent or is overridden. -/
theorem inSync_modify_delta (hOD : ∀ owner, D owner → ¬ O owner) (h : s.InSync O D k fun _ => False)
    (limit : Nat) {edit : Item k → Except EngineError (Item k × Bool)} (hedit : Sure edit)
    {edited : Item k} {store : Bool} (hx : s.store.item? k id = some x) (hD : D x.owner)
    (he : edit x = .ok (edited, store)) (hid : edited.id = x.id) (ho : edited.owner = x.owner)
    (hlink : store = true → Follows O s.versions (s.store.bare? k) edited) :
    (s.run (Editing.modify limit id edit)).2.AllInSync O D := by
  obtain ⟨t, hrun, ht⟩ := rewrites_modify h.sane h.calm limit hedit hx he
  rw [hrun]
  cases store with
  | false => exact (h.rewrites ht h.shows).all
  | true =>
    rw [if_pos rfl] at ht
    have hshows := h.shows.write_delta (some edited.bare) (InSync.not_origin hOD hx hD) fun i hi => by
      obtain rfl := Option.mem_some_iff.1 hi
      exact ⟨hid.trans (h.sane.ordered.id_of_item? hx), by rw [Item.bare_owner, ho]; exact hD, hlink rfl⟩
    exact (h.rewrites ht (hshows.mono (fun _ hv => hv) fun _ _ _ hj => hj.1)).all

theorem inSync_deltaUpdate (hOD : ∀ owner, D owner → ¬ O owner) (h : s.InSync O D k fun _ => False)
    (limit : Nat) (id : ItemId) (patch : Patch k)
    (hD : ∀ i : Item k, s.store.item? k id = some i → D i.owner) :
    (s.run (Service.deltaUpdate limit id patch)).2.AllInSync O D := by
  unfold Service.deltaUpdate
  cases hfault : Patch.fault? patch with
  | some e =>
    rw [run_patchRow_of_fault hfault]
    exact h.all
  | none =>
    rw [patchRow_of_valid hfault]
    cases hx : s.store.item? k id with
    | none =>
      rw [run_modify_of_none h.sane.ordered limit hx]
      exact h.all
    | some x =>
      have hbare : s.store.bare? k id = some x.bare := Store.bare?_of_item? hx
      by_cases hc : Fields.patch x.fields patch = x.fields ∧ (true && x.isLinked && !x.overridden) = false
      · exact inSync_modify_delta hOD h limit (sure_applyPatch patch true) hx (hD x hx)
          (if_pos hc) rfl rfl (by simp)
      · refine inSync_modify_delta hOD h limit (sure_applyPatch patch true) hx (hD x hx) (if_neg hc) rfl rfl
          fun _ p hp => ?_
        -- a linked row is overridden by now
        obtain ⟨o, ho, hO, -⟩ := h.shows.follows hbare (fun hfalse => hfalse) p hp
        refine ⟨o, ho, hO, Or.inl ?_⟩
        have hlinked : x.isLinked = true := by
          unfold Item.isLinked
          rw [show x.parent = some p from hp]
          rfl
        cases hov : x.overridden <;> simp [hlinked]

theorem inSync_deltaDelete (hOD : ∀ owner, D owner → ¬ O owner) (h : s.InSync O D k fun _ => False)
    (limit : Nat) (id : ItemId) (hD : ∀ i : Item k, s.store.item? k id = some i → D i.owner) :
    (s.run (Service.deltaDelete limit k id)).2.AllInSync O D := by
  unfold Service.deltaDelete
  cases hx : s.store.item? k id with
  | none =>
    rw [run_bind_error (run_remove_of_none h.sane.ordered limit hx)]
    exact h.all
  | some x =>
    obtain ⟨t, hrun, ht⟩ := rewrites_remove h.sane h.calm limit hx
    rw [run_bind_ok hrun]
    have hshows := h.shows.write_delta none (InSync.not_origin hOD hx (hD x hx)) (by simp)
    exact (h.rewrites ht (hshows.mono (fun _ hv => hv) fun _ _ _ hj => hj.1)).all

theorem inSync_deltaReset (hOD : ∀ owner, D owner → ¬ O owner) (h : s.InSync O D k fun _ => False) (limit : Nat)
    (id : ItemId) (hD : ∀ i : Item k, s.store.item? k id = some i → D i.owner) :
    (s.run (Service.deltaReset limit k id)).2.AllInSync O D := by
  have hord := h.sane.ordered
  unfold Service.deltaReset Cascade.reset
  cases hx : s.store.item? k id with
  | none =>
    rw [run_bind_error (run_get_of_none hord hx)]
    exact h.all
  | some x =>
    have hbare : s.store.bare? k id = some x.bare := Store.bare?_of_item? hx
    rw [run_bind_ok (run_get_of_some hord hx)]
    -- the row ends with the fields given, which are those of its parent if it has one
    have hmodify : ∀ fields : Fields k,
        Follows O s.versions (s.store.bare? k) { x with fields, overridden := false } →
        (s.run (Editing.modify limit id (Cascade.restore fields))).2.AllInSync O D := by
      intro fields hfields
      by_cases hc : x.fields = fields ∧ x.overridden = false
      · exact inSync_modify_delta hOD h limit (sure_restore fields) hx (hD x hx) (if_pos hc) rfl rfl (by simp)
      · exact inSync_modify_delta hOD h limit (sure_restore fields) hx (hD x hx) (if_neg hc) rfl rfl
          fun _ => hfields
    cases hp : x.parent with
    | none => exact hmodify (Fields.cleared k) (.of_unlinked hp)
    | some p =>
      obtain ⟨o, ho, hO, -⟩ := h.shows.follows hbare (fun hfalse => hfalse) p hp
      obtain ⟨parent, hparent, rfl⟩ := Store.bare?_eq_some_iff.1 ho
      have hread : s.run ((·.fields) <$> Program.get k p) = (.ok parent.fields, s) :=
        run_bind_ok (run_get_of_some hord hparent) _
      dsimp only
      rw [run_bind_ok hread]
      exact hmodify parent.fields (.of_parent hp ho hO (Or.inr (Or.inr rfl)))

/-- **An overlay is read**: counterparts are made with the fields of their parents. -/
theorem inSync_deltaList (h : s.InSync O D k fun _ => False) (limit : Nat) {delta origin : ExampleId}
    (hD : D delta) (hO : O origin)
    (hnd : (s.run (Service.deltaList limit k delta origin)).2.minted.Nodup) :
    (s.run (Service.deltaList limit k delta origin)).2.AllInSync O D := by
  cases fills_deltaList h.sane h.calm limit delta origin hnd with
  | same hrun =>
    rw [hrun]
    exact h.all
  | filled new t ht fresh counterparts hu =>
    have hsync := h.of_minted ht
    rw [← ht.store] at hu fresh
    refine (hsync.rewrites hu (hsync.shows.extend (fun {id x} hx => filled_of_stored fresh hx)
      fun {id i} hi hnone => ?_)).all
    obtain ⟨j, hj, rfl, rfl⟩ := exists_of_filled hi hnone
    obtain ⟨row, hrow, howner, -, hc⟩ := counterparts j hj
    have hrowbare : t.store.bare? k row.id = some row.bare := by
      rw [ht.store]
      exact Store.bare?_of_item? hrow
    refine ⟨rfl, Or.inr (by rw [hc]; exact hD), ?_⟩
    rw [hc]
    exact .of_parent rfl hrowbare (by rw [Item.bare_owner, howner]; exact hO) (Or.inr (Or.inr rfl))

/-! ## New rows -/

theorem inSync_create (h : s.InSync O D k fun _ => False) (limit : Nat) {owner : ExampleId} (hO : O owner)
    (fields : Fields k) (hnd : (s.run (Service.create limit owner fields)).2.minted.Nodup) :
    (s.run (Service.create limit owner fields)).2.AllInSync O D := by
  rcases adds_create h.sane h.calm limit owner fields hnd with ⟨e, hrun⟩ | ⟨id, u, hrun, hu⟩
  · rw [hrun]
    exact h.all
  · rw [hrun]
    exact h.added hu (Or.inl ⟨hO, rfl⟩) (.of_unlinked rfl)

theorem inSync_deltaCreate (h : s.InSync O D k fun _ => False) (limit : Nat) {delta : ExampleId}
    {origin : Option ExampleId} (hD : D delta) (hO : ∀ o ∈ origin, O o) (parent : Option ItemId)
    (fields : Fields k)
    (hnd : (s.run (Service.deltaCreate limit delta origin parent fields)).2.minted.Nodup) :
    (s.run (Service.deltaCreate limit delta origin parent fields)).2.AllInSync O D := by
  rcases adds_deltaCreate h.sane h.calm limit delta origin parent fields hnd with
    ⟨e, hrun⟩ | ⟨hparent, id, u, hrun, hu⟩
  · rw [hrun]
    exact h.all
  · rw [hrun]
    refine h.added hu (Or.inr hD) fun p hp => ?_
    obtain ⟨x, hx, ho, -⟩ := hparent p hp
    refine ⟨x.bare, Store.bare?_of_item? hx, hO x.owner ho, Or.inl ?_⟩
    rw [show parent = some p from hp]
    rfl

/-! ## Calls -/

/-- **Every call that respects origins and deltas leaves counterparts in sync.** -/
theorem inSync_call (hOD : ∀ owner, D owner → ¬ O owner) (h : s.AllInSync O D) (limit : Nat) (c : Call k)
    (hc : c.Respects O D s) (hnd : (s.run (c.program limit)).2.minted.Nodup) :
    (s.run (c.program limit)).2.AllInSync O D := by
  have hmove : ∀ owner id target side, (s.run (Editing.move limit k owner id target side)).2.AllInSync O D := by
    intro owner id target side
    obtain ⟨r, t, hrun, ht⟩ := rewrites_move (h k).sane (h k).calm limit k owner id target side
    rw [hrun]
    exact ((h k).rewrites ht (h k).shows).all
  cases c with
  | create owner fields => exact inSync_create (h k) limit hc fields hnd
  | update id patch => exact inSync_update hOD (h k) limit id patch hc
  | delete id => exact inSync_delete hOD (h k) limit id hc
  | move owner id target side | deltaMove owner id target side => exact hmove owner id target side
  | deltaList delta origin => exact inSync_deltaList (h k) limit hc.1 hc.2 hnd
  | deltaCreate delta origin parent fields => exact inSync_deltaCreate (h k) limit hc.1 hc.2 parent fields hnd
  | deltaUpdate id patch => exact inSync_deltaUpdate hOD (h k) limit id patch hc
  | deltaDelete id => exact inSync_deltaDelete hOD (h k) limit id hc
  | deltaReset id => exact inSync_deltaReset hOD (h k) limit id hc

/-! ## Runs -/

/-- An example that is a version stays one. -/
theorem versions_aside (s : Session) (a : Aside) (owner : ExampleId) (h : s.versions owner = true) :
    ((s.world.aside a).registry.versionOf owner).isSome = true := by
  have hregister : ∀ (r : Registry) (o : ExampleId), (r.versionOf owner).isSome = true →
      ((r.register o).versionOf owner).isSome = true := by
    intro r o hr
    unfold Registry.register
    split
    · exact hr
    next hnew =>
      unfold Registry.versionOf at hr ⊢
      rw [Std.ExtTreeMap.getElem?_insert]
      split
      next he =>
        rw [← Std.LawfulEqCmp.compare_eq_iff_eq.1 he, Std.ExtTreeMap.getElem?_eq_none hnew] at hr
        cases hr
      · exact hr
  have hversion : ∀ (r : Registry) (o base : ExampleId), (r.versionOf owner).isSome = true →
      ((r.registerVersion o base).versionOf owner).isSome = true := by
    intro r o base hr
    unfold Registry.registerVersion Registry.versionOf at *
    rw [Std.ExtTreeMap.getElem?_insert]
    split
    · rfl
    · exact hr
  cases a with
  | failWrites | clearFailures => exact h
  | register o => exact hregister _ o h
  | registerVersion o base => exact hversion _ o base h
  | createExample => exact hregister _ _ h
  | createVersion base => exact hversion _ _ base h

theorem AllInSync.aside (h : s.AllInSync O D) {a : Aside} (ha : (Event.aside a).Respects O D s) (limit : Nat) :
    (s.after limit (.aside a)).AllInSync O D := by
  intro k
  have htables : (s.after limit (.aside a)).store.tables = s.store.tables := tables_aside s.world a
  refine ⟨(h k).sane.of_tables_eq htables rfl, ?_, ?_, fun {k'} hk => ?_⟩
  · cases a with
    | failWrites id => exact ha.elim
    | clearFailures => rfl
    | _ => exact (h k).calm
  · rw [bare?_aside]
    exact (h k).shows.mono (versions_aside s a) fun _ _ _ hid => hid
  · rw [bare?_aside]
    exact ((h k).others hk).mono (versions_aside s a) fun _ _ _ hid => hid

theorem AllInSync.start (registry : Registry) (supply : Nat → BitVec 128) :
    (Session.start registry supply).AllInSync O D := by
  have hrows : ∀ k : Kind, (Session.start registry supply).store.bare? k = fun _ => none := by
    intro k
    funext id
    rw [Store.bare?_eq_none_iff, ← (Sane.start registry supply).ordered.get?_eq_none_iff]
    exact (Sane.start registry supply).get?_eq_none List.not_mem_nil k
  intro k
  refine ⟨.start registry supply, rfl, ?_, fun {k'} _ => ?_⟩
  · rw [hrows]; exact Shows.empty
  · rw [hrows]; exact Shows.empty

theorem Reaches.allInSync (hOD : ∀ owner, D owner → ¬ O owner) {limit : Nat} (hs : s.AllInSync O D)
    (h : s.Reaches limit (fun t e => e.Respects O D t) t) (hnd : t.minted.Nodup) : t.AllInSync O D := by
  refine Reaches.keeps hs (fun u e hu he hnd => ?_) h hnd
  cases e with
  | call c => exact inSync_call hOD hu limit c he hnd
  | aside a => exact hu.aside he limit

/-- **Pristine rows show their parents.** Where origins and deltas are kept apart and nothing is made to
fail, in every session reached a linked row that is not overridden, of an example that is no version now, is
linked to a row stored for an origin and has its fields. -/
theorem reaches_pristine (hOD : ∀ owner, D owner → ¬ O owner) (registry : Registry) (supply : Nat → BitVec 128)
    (limit : Nat) (hs : (Session.start registry supply).Reaches limit (fun t e => e.Respects O D t) s)
    (hnd : s.minted.Nodup) {id p : ItemId} {r : Record} (hr : s.store.get? k id = some r)
    (hplain : s.world.registry.versionOf r.owner = none) (hp : r.parent = some p) (hov : r.overridden = false) :
    ∃ i o : Item k, Record.ofItem i = r ∧ s.store.get? k p = some (Record.ofItem o) ∧ O o.owner ∧
      i.fields = o.fields := by
  have h := hs.allInSync hOD (.start registry supply) hnd k
  have hord := h.sane.ordered
  obtain ⟨i, rfl, -⟩ := hord.exists_item hr
  have hbare : s.store.bare? k id = some i.bare := Store.bare?_eq_some_iff.2 ⟨i, Store.item?_of_get? hr, rfl⟩
  obtain ⟨o, ho, hO, hf⟩ := h.shows.follows hbare (fun hfalse => hfalse) p hp
  obtain ⟨parent, hparent, rfl⟩ := Store.bare?_eq_some_iff.1 ho
  refine ⟨i, parent, rfl, hord.item?_eq_some_iff.1 hparent, hO, ?_⟩
  rcases hf with hov' | hv | hf
  · exact absurd (hov'.symm.trans hov) (by simp)
  · rw [Item.bare_owner, versions, show s.world.registry.versionOf i.owner = none from hplain] at hv
    cases hv
  · exact hf

/-- A header of an origin is updated after its counterpart was made. -/
theorem reaches_pristine_updated : ∃ (s : Session) (i o : Item .header), s.minted = [⟨2⟩, ⟨1⟩] ∧
    s.store.get? .header ⟨2⟩ = some (Record.ofItem i) ∧ s.store.get? .header ⟨1⟩ = some (Record.ofItem o) ∧
      i.fields = o.fields := by
  have hs : (Session.start {} fun n => BitVec.ofNat 128 (n + 1)).Reaches 3
      (fun t e => e.Respects (· = ⟨100⟩) (· = ⟨101⟩) t) _ :=
    ((Reaches.refl.step (.call (.create (k := .header) ⟨100⟩ (KeyValue.ofPair "Accept" "text/html"))) rfl).step
      (.call (.deltaList (k := .header) ⟨101⟩ ⟨100⟩)) ⟨rfl, rfl⟩).step
      (.call (.update (k := .header) ⟨1⟩ { value := some "text/plain" }))
      fun i hi => congrArg Item.owner (Option.some.inj hi.symm)
  obtain ⟨i, o, hi, ho, -, hf⟩ := reaches_pristine (by rintro _ rfl; decide) {}
    (fun n => BitVec.ofNat 128 (n + 1)) 3 hs (by decide)
    (show Store.get? _ .header ⟨2⟩ = some _ from rfl) rfl (show _ = some ⟨1⟩ from rfl) rfl
  exact ⟨_, i, o, by decide, by rw [hi]; rfl, ho, hf⟩

end Session

end ExampleOverlay
