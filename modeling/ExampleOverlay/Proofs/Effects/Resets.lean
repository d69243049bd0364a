import ExampleOverlay.Proofs.Effects.Updates

/-!
# What a reset does

A reset gives a row the fields its parent has now, those of a cleared row if it is linked to none, and takes back that
it was customized (`Session.Restored`). Nothing is written if the row says that already, as it does after a reset. In
a plain example a row that is linked follows its parent again (`Session.Follows`).
-/

namespace ExampleOverlay

open Chain Program

variable {k : Kind}

/-- The fields that a reset gives back to a row, none if it names a parent that is not stored. -/
def Store.given? (s : Store) (i : Item k) : Option (Fields k) :=
  match i.parent with
  | none => some (Fields.cleared k)
  | some parent => (s.item? k parent).map (·.fields)

/-- No fields are given back exactly if the row is not stored, or names a parent that is not. -/
theorem Store.bind_given?_eq_none_iff {s : Store} {id : ItemId} : (s.item? k id).bind s.given? = none ↔
    s.item? k id = none ∨ ∃ x p, s.item? k id = some x ∧ x.parent = some p ∧ s.item? k p = none := by
  cases s.item? k id with
  | none => simp
  | some x => cases hp : x.parent <;> simp [given?, hp]

namespace Session

variable {s t : Session} {id : ItemId} {x y i : Item k} {fields : Fields k}

/-! ## The row -/

/-- The row is what it was to be, which took a commit if it was not; every other row is as it was, every list has its
rows in the order they had, and nothing else happened. -/
structure Restored (s t : Session) (y : Item k) : Prop where
  rows : ∀ j, t.store.item? k j = if j = y.id then some y else s.store.item? k j
  kinds : ∀ {k'}, k' ≠ k → t.store.table k' = s.store.table k'
  lists : ∀ owner, ∃ c c' : Chain k, s.store.chain k owner = .ok c ∧ t.store.chain k owner = .ok c' ∧ c'.ids = c.ids
  commits : t.store.commits = s.store.commits + if s.store.item? k y.id = some y then 0 else 1
  failing : t.store.failing = s.store.failing
  rest : t = s.withStore t.store

theorem Restored.refl (hs : s.Sane) (hx : s.store.item? k x.id = some x) : s.Restored s x where
  rows j := by
    split
    next hj => rw [hj, hx]
    next => rfl
  kinds _ := rfl
  lists := (Thins.refl hs).chain_of_kept hs fun hi => by rw [hi, Option.isSome_some]
  commits := by rw [if_pos hx, Nat.add_zero]
  failing := rfl
  rest := rfl

/-- A row that is written anew in its place. -/
theorem Turned.restored {items : List (Item k)} (hs : s.Sane) (ht : s.Turned t x.owner items (replaced items y))
    (hx : s.store.item? k x.id = some x) (hid : y.id = x.id) (hne : y ≠ x) : s.Restored t y ∧ t.Sane := by
  have hmem : y.id ∈ idsOf items := hid ▸ List.mem_map_of_mem (ht.holds.mem_of_item? hs.ordered hx rfl)
  have hthins := ht.thins hs (by rw [idsOf_replaced])
  have hrows := ht.turned.item?_replace ht.holds hmem
  refine ⟨⟨hrows, ht.turned.kinds, hthins.chain_of_kept hs fun {j i} hi => ?_, ?_, ht.turned.failing, ht.eq⟩, hthins.sane⟩
  · rw [hrows]
    split
    next => rfl
    next => rw [hi, Option.isSome_some]
  · rw [ht.turned.commits, hid, hx, if_neg fun h => hne (Option.some.inj h).symm]

/-- A reset of a row that gets fields back writes them. -/
theorem run_deltaReset (hs : s.store.Ordered) (limit : Nat) (hx : s.store.item? k id = some x)
    (hgiven : s.store.given? x = some fields) :
    s.run (Service.deltaReset limit k id) = s.run (Editing.modify limit id (Cascade.restore fields)) := by
  unfold Service.deltaReset Cascade.reset
  rw [run_bind_ok (run_get_of_some hs hx)]
  rw [Store.given?] at hgiven
  cases hp : x.parent with
  | none =>
    rw [hp, Option.some.injEq] at hgiven
    rw [← hgiven]
    rfl
  | some p =>
    rw [hp] at hgiven
    obtain ⟨parent, hparent, rfl⟩ := Option.map_eq_some_iff.1 hgiven
    simp only [map_eq_pure_bind, bind_assoc, pure_bind]
    rw [run_bind_ok (run_get_of_some hs hparent)]

/-- A reset of a row that is not stored, or whose parent is not, is refused. -/
theorem run_deltaReset_of_none (hs : s.store.Ordered) (limit : Nat)
    (h : (s.store.item? k id).bind s.store.given? = none) :
    ∃ j, s.run (Service.deltaReset limit k id) = (.error (.notFound k j), s) := by
  unfold Service.deltaReset Cascade.reset
  cases hx : s.store.item? k id with
  | none => exact ⟨id, run_bind_error (run_get_of_none hs hx) _⟩
  | some x =>
    rw [hx, Option.bind_some, Store.given?] at h
    rw [run_bind_ok (run_get_of_some hs hx)]
    cases hp : x.parent with
    | none =>
      rw [hp] at h
      cases h
    | some p =>
      rw [hp, Option.map_eq_none_iff] at h
      simp only [map_eq_pure_bind, bind_assoc, pure_bind]
      exact ⟨p, run_bind_error (run_get_of_none hs h) _⟩

/-- **A reset restores the row.** -/
theorem restored_deltaReset (hs : s.Sane) (hcalm : s.store.failing = ∅) (limit : Nat)
    (hx : s.store.item? k id = some x) (hgiven : s.store.given? x = some fields) :
    ∃ t, s.run (Service.deltaReset limit k id) = (.ok { x with fields, overridden := false }, t) ∧
      s.Restored t { x with fields, overridden := false } ∧ t.Sane := by
  obtain rfl : x.id = id := hs.ordered.id_of_item? hx
  rw [run_deltaReset hs.ordered limit hx hgiven]
  by_cases hsame : x.fields = fields ∧ x.overridden = false
  · have heq : ({ x with fields, overridden := false } : Item k) = x := by rw [← hsame.1, ← hsame.2]
    rw [heq]
    exact ⟨s, run_modify_of_same hs.ordered limit hx (if_pos hsame), .refl hs hx, hs⟩
  · have hne : ({ x with fields, overridden := false } : Item k) ≠ x := fun h => hsame (by rw [← h]; exact ⟨rfl, rfl⟩)
    obtain ⟨items, h⟩ := hs.ordered.lists k x.owner
    obtain ⟨t, hrun, ht⟩ := turned_modify_of_calm hs hcalm limit (sure_restore fields) hx (if_neg hsame) h
    exact ⟨t, hrun, ht.restored hs hx rfl hne⟩

/-- **A row that was reset is reset already.** -/
theorem Restored.run_deltaReset (h : s.Restored t y) (ht : t.Sane) (limit : Nat)
    (hgiven : s.store.given? y = some y.fields) (hrestored : y.overridden = false) :
    t.run (Service.deltaReset limit k y.id) = (.ok y, t) := by
  have hy : t.store.item? k y.id = some y := by rw [h.rows, if_pos rfl]
  have hgiven' : t.store.given? y = some y.fields := by
    rw [← hgiven, Store.given?, Store.given?]
    cases hp : y.parent with
    | none => rfl
    | some p =>
      dsimp only
      rw [h.rows, if_neg (ht.ordered.parent_ne hy hp)]
  rw [Session.run_deltaReset ht.ordered limit hy hgiven']
  exact run_modify_of_same ht.ordered limit hy (if_pos ⟨rfl, hrestored⟩)

/-! ## The row and its parent -/

/-- The row shows what its parent shows, and the next update that changes the parent reaches it, in whatever order the
counterparts are taken. -/
structure Follows (s : Session) (limit : Nat) (i parent : Item k) : Prop where
  origin : Source.resolve i (some parent) (s.versions i.owner) = .origin
  reached : ∀ {patch : Patch k} {arrange : List (Item k) → List (Item k)}, Patch.fault? patch = none →
    Fields.patch parent.fields patch ≠ parent.fields → (∀ rows, (arrange rows).Perm rows) →
    ∃ report t, s.run (Service.updateIn arrange limit parent.id patch) = (.ok report, t) ∧ i.id ∈ report.updated ∧
      t.store.item? k i.id = some { i with fields := Fields.patch parent.fields patch }

/-- A counterpart in a plain example that was not customized follows its parent. -/
theorem follows_of_tracks (hs : s.Sane) (hcalm : s.store.failing = ∅) (limit : Nat) {parent : Item k}
    (hi : s.store.item? k i.id = some i) (hparent : s.store.item? k parent.id = some parent)
    (hp : i.parent = some parent.id) (hplain : s.versions i.owner = false) (htracks : i.overridden = false) :
    s.Follows limit i parent where
  origin := by rw [Source.resolve_of_linked hp, hplain, htracks]; rfl
  reached {patch arrange} hvalid hf harrange := by
    have hfree : ∀ j, j ∉ s.store.failing := fun j => hcalm ▸ Std.ExtTreeSet.not_mem_empty
    obtain ⟨report, t, hrun, h⟩ := refreshed_update hs harrange limit hparent hvalid hf (hfree _)
    -- no row is made to fail, so the update is answered with its report
    have hfailed : report.failed = [] := by
      refine List.map_eq_nil_iff.1 (h.settles.told_eq_nil none fun j => ?_)
      simp only [updateVerdict, hfree, false_and, if_false]
      split <;> rintro ⟨⟩
    have hverdict : s.updateVerdict (Fields.patch parent.fields patch) i = some .updated := by
      rw [updateVerdict_of_tracks ⟨htracks, hplain⟩, if_neg fun h => hfree _ h.1]
    have hupdated : i.id ∈ report.updated := (h.settles.mem_iff hi (some .updated)).2 ⟨hp, hverdict⟩
    have hne : i.id ≠ parent.id := (hs.ordered.parent_ne hi hp).symm
    refine ⟨report, t, by rw [hrun, if_pos hfailed], hupdated, ?_⟩
    rw [h.rows, if_neg hne, if_pos hupdated, hi]
    rfl

/-- A row that was restored follows its parent, if it is linked and its example is plain. -/
theorem Restored.follows (h : s.Restored t y) (ht : t.Sane) (hcalm : s.store.failing = ∅) (limit : Nat)
    (hgiven : s.store.given? y = some y.fields) (hrestored : y.overridden = false) {p : ItemId}
    (hp : y.parent = some p) (hplain : s.versions y.owner = false) :
    ∃ parent, s.store.item? k p = some parent ∧ t.store.item? k p = some parent ∧ y.fields = parent.fields ∧
      t.Follows limit y parent := by
  rw [Store.given?, hp] at hgiven
  obtain ⟨parent, hparent, hfields⟩ := Option.map_eq_some_iff.1 hgiven
  have hy : t.store.item? k y.id = some y := by rw [h.rows, if_pos rfl]
  have hkept : t.store.item? k p = some parent := by rw [h.rows, if_neg (ht.ordered.parent_ne hy hp), hparent]
  obtain rfl : parent.id = p := ht.ordered.id_of_item? hkept
  have hversions : t.versions y.owner = false := by
    rw [h.rest]
    exact hplain
  refine ⟨parent, hparent, hkept, hfields.symm, ?_⟩
  exact follows_of_tracks ht (h.failing.trans hcalm) limit hy hkept hp hversions hrestored

end Session

namespace Crowd

/-- **The effect of a reset.** Whatever any number of clients have done over an empty store, with calls still in
progress, a client resets a row, alone, while no row is made to fail. That is refused, and changes nothing, exactly if
the row is not stored or names a parent that is not. Otherwise the row is restored to what it gets back, with a
commit if it was not that, and resetting it again changes nothing; a linked row of a plain example has its parent's
fields and follows the parent. -/
theorem reaches_restored (registry : Registry) (supply : Nat → BitVec 128) (limit : Nat) {c : Crowd (Call.task limit)}
    (hc : Crowd.Reaches (fun _ _ => True) { session := Session.start registry supply } c)
    (hnd : c.session.minted.Nodup) (hcalm : c.session.store.failing = ∅) (k : Kind) (id : ItemId) :
    ((∃ j, c.session.run (Service.deltaReset limit k id) = (.error (.notFound k j), c.session)) ↔
      c.session.store.item? k id = none ∨
        ∃ x p, c.session.store.item? k id = some x ∧ x.parent = some p ∧ c.session.store.item? k p = none) ∧
    ∀ {x fields}, c.session.store.item? k id = some x → c.session.store.given? x = some fields →
      ∃ y t, y = { x with fields, overridden := false } ∧
        c.session.run (Service.deltaReset limit k id) = (.ok y, t) ∧ c.session.Restored t y ∧
        t.run (Service.deltaReset limit k id) = (.ok y, t) ∧
        ∀ {p}, x.parent = some p → c.session.versions x.owner = false →
          ∃ parent, c.session.store.item? k p = some parent ∧ t.store.item? k p = some parent ∧
            y.fields = parent.fields ∧ t.Follows limit y parent := by
  have hs := hc.sane hnd
  refine ⟨?_, fun {x fields} hx hgiven => ?_⟩
  · rw [← Store.bind_given?_eq_none_iff]
    cases hgiven : (c.session.store.item? k id).bind c.session.store.given? with
    | none =>
      obtain ⟨j, hrun⟩ := Session.run_deltaReset_of_none hs.ordered limit hgiven
      exact iff_of_true ⟨j, hrun⟩ rfl
    | some fields =>
      obtain ⟨x, hx, hgiven⟩ := Option.bind_eq_some_iff.1 hgiven
      obtain ⟨t, hrun, -⟩ := Session.restored_deltaReset hs hcalm limit hx hgiven
      exact iff_of_false (by rw [hrun]; rintro ⟨_, ⟨⟩⟩) nofun
  · obtain ⟨t, hrun, hrestored, ht⟩ := Session.restored_deltaReset hs hcalm limit hx hgiven
    obtain rfl : x.id = id := hs.ordered.id_of_item? hx
    refine ⟨_, t, rfl, hrun, hrestored, hrestored.run_deltaReset ht limit hgiven rfl, fun hp hplain => ?_⟩
    exact hrestored.follows ht hcalm limit hgiven rfl hp hplain

/-- The counterpart of a header was customized, and then the header got another value. -/
def outdated : Crowd (Call.task 2) := [
    .start ⟨.header, .create ⟨100⟩ (KeyValue.ofPair "Accept" "a")⟩, .access 0, .access 0, .access 0,
    .start ⟨.header, .deltaList ⟨101⟩ ⟨100⟩⟩, .access 1, .access 1, .access 1, .access 1, .access 1, .access 1,
    .start ⟨.header, .deltaUpdate ⟨2⟩ { value := some "b" }⟩, .access 2, .access 2, .access 2,
    .start ⟨.header, .update ⟨1⟩ { value := some "c" }⟩, .access 3, .access 3, .access 3, .access 3, .access 3,
    .access 3].foldl after
  { session := Session.start {} fun n => BitVec.ofNat 128 (n + 1) }

/-- The counterpart gets the value that the header has by now, and the next one as well. -/
theorem reaches_restored_outdated :
    (∃ j, outdated.session.run (Service.deltaReset 2 .header ⟨7⟩) = (.error (.notFound .header j), outdated.session)) ∧
    ∃ y t, outdated.session.run (Service.deltaReset 2 .header ⟨2⟩) = (.ok y, t) ∧ outdated.session.Restored t y ∧
      y.fields = KeyValue.ofPair "Accept" "c" ∧ t.store.commits = outdated.session.store.commits + 1 ∧
      ∃ report u, t.run (Service.updateIn (k := .header) List.reverse 2 ⟨1⟩ { value := some "d" }) = (.ok report, u) ∧
        ⟨2⟩ ∈ report.updated := by
  have hreach : Crowd.Reaches (fun _ _ => True)
      { session := Session.start {} fun n => BitVec.ofNat 128 (n + 1) } outdated :=
    .foldl _ .refl fun _ _ _ => True.intro
  have hnd : outdated.session.minted.Nodup := by decide +kernel
  have hcalm : outdated.session.store.failing = ∅ := Std.ExtTreeSet.isEmpty_iff.1 (by decide +kernel)
  have hreset := reaches_restored {} _ 2 hreach hnd hcalm .header
  refine ⟨(hreset ⟨7⟩).1.2 (Or.inl (by decide +kernel)), ?_⟩
  have hx : outdated.session.store.item? .header ⟨2⟩ =
      some ⟨⟨2⟩, ⟨101⟩, some ⟨1⟩, none, none, KeyValue.ofPair "Accept" "b", true⟩ := by decide +kernel
  obtain ⟨y, t, hy, hrun, hrestored, -, hlinked⟩ :=
    (hreset ⟨2⟩).2 hx (show _ = some (KeyValue.ofPair "Accept" "c") by decide +kernel)
  obtain ⟨parent, hparent, -, hfields, hfollows⟩ := hlinked rfl (by decide +kernel)
  have hparent' : outdated.session.store.item? .header ⟨1⟩ =
      some ⟨⟨1⟩, ⟨100⟩, none, none, none, KeyValue.ofPair "Accept" "c", false⟩ := by decide +kernel
  obtain rfl := Option.some.inj (hparent.symm.trans hparent')
  have hvalid : Patch.fault? (k := .header) { value := some "d" } = none := rfl
  obtain ⟨report, u, hupdate, hupdated, -⟩ := hfollows.reached hvalid (by decide) List.reverse_perm
  have hchanged : outdated.session.store.item? .header y.id ≠ some y := fun h => by
    rw [hy] at h
    exact absurd (hx.symm.trans h) (by decide)
  have hcommits : t.store.commits = outdated.session.store.commits + 1 :=
    hrestored.commits.trans (congrArg (outdated.session.store.commits + ·) (if_neg hchanged))
  exact ⟨y, t, hrun, hrestored, hfields, hcommits, report, u, hupdate, by rwa [hy] at hupdated⟩

end Crowd

end ExampleOverlay
