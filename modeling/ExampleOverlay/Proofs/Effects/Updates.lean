import ExampleOverlay.Proofs.Crowds.Footprint
import ExampleOverlay.Proofs.Effects.Carrying
import ExampleOverlay.Proofs.Overlays.Shown

/-!
# What an update of an origin's row does

An update gives the row its fields and carries them to the counterparts that track it. What becomes of a counterpart
is settled by what it says, by whether its example is a version, and by whether it was made to fail
(`Session.updateVerdict`): none of that is changed for one by what is done to another. So the outcome is the same in
whatever order they are taken (`Session.Refreshed`).
-/

namespace ExampleOverlay

open Chain Program

variable {k : Kind}

namespace Service

/-- Updates a row, its counterparts taken in the order that `arrange` puts them into. -/
def updateIn (arrange : List (Item k) → List (Item k)) (limit : Nat) (id : ItemId) (patch : Patch k) :
    Program Cascade.Report := do
  let before ← get k id
  let after ← patchRow limit id patch false
  if after.fields = before.fields then return {}
  let report ← Cascade.carryIn arrange before.id fun version row => Cascade.updateOne limit before after version row
  ofExcept report.toResult

theorem updateIn_id (limit : Nat) (id : ItemId) (patch : Patch k) :
    updateIn (fun rows => rows) limit id patch = update limit id patch := rfl

end Service

namespace Session

open Cascade

variable {s t u : Session} {id : ItemId} {x row : Item k} {fields : Fields k} {patch : Patch k} {report : Report}

/-! ## The counterparts -/

/-- What comes of a counterpart when its parent gets other fields, none if it cannot be written: it is skipped if it was
customized or is of a version, and it need not be written if it has the fields already. -/
def updateVerdict (s : Session) (fields : Fields k) (i : Item k) : Option Outcome :=
  if i.overridden ∨ s.versions i.owner then some .skipped
  else if i.id ∈ s.store.failing ∧ i.fields ≠ fields then none
  else some .updated

/-- A counterpart when its parent got other fields. -/
def refreshed (s : Session) (fields : Fields k) (i : Item k) : Item k :=
  if s.updateVerdict fields i = some .updated then { i with fields } else i

theorem updateVerdict_of_tracks (h : row.overridden = false ∧ s.versions row.owner = false) :
    s.updateVerdict fields row =
      if row.id ∈ s.store.failing ∧ row.fields ≠ fields then none else some .updated := if_neg (by simp [h])

theorem updateVerdict_of_not_tracks (h : ¬ (row.overridden = false ∧ s.versions row.owner = false)) :
    s.updateVerdict fields row = some .skipped := if_pos (by simpa [or_iff_not_and_not] using h)

theorem Thins.updateVerdict_eq (h : s.Thins k t) (fields : Fields k) : t.updateVerdict fields = s.updateVerdict fields := by
  funext i
  rw [updateVerdict, updateVerdict, h.versions, h.failing]

/-- **One counterpart of an update** comes to what was settled for it. -/
theorem comesTo_updateOne (hs : s.Sane) (limit : Nat) {before parent : Item k} (after : Item k)
    (hparent : s.store.item? k before.id = some parent) (hrow : s.store.item? k row.id = some row)
    (hp : row.parent = some before.id) :
    ∃ t, s.ComesTo (updateOne limit before after (s.versions row.owner) row) (s.updateVerdict parent.fields row) t ∧
      s.Thins k t ∧ ∀ j, t.store.item? k j =
        if j = row.id then some (s.refreshed parent.fields row) else s.store.item? k j := by
  have hsame : ∀ j, s.store.item? k j = if j = row.id then some row else s.store.item? k j := by
    intro j
    split
    next hj => rw [hj, hrow]
    next => rfl
  have hrun := run_updateOne hs.ordered limit after (s.versions row.owner) hparent hp
  by_cases htracks : row.overridden = false ∧ s.versions row.owner = false
  · rw [if_pos htracks] at hrun
    have hedit := takeFields_of_tracks hp htracks.1 parent.fields
    rw [refreshed, updateVerdict_of_tracks htracks]
    by_cases hf : row.fields = parent.fields
    · rw [decide_eq_false (not_not.2 hf), ← hf] at hedit
      refine ⟨s, ?_, .refl hs, ?_⟩
      · rw [if_neg fun h => h.2 hf]
        refine .told (hrun.trans ((run_bind_ok (run_modify_of_same hs.ordered limit hrow (hf ▸ hedit)) _).trans ?_))
        rw [if_pos ⟨hp, htracks.1⟩]
        rfl
      · rw [← hf, ite_self]
        exact hsame
    rw [decide_eq_true hf] at hedit
    rcases thins_modify hs limit (sure_takeFields before.id parent.fields) hrow hedit with
      ⟨hfail, e, hmodify⟩ | ⟨hfree, t, hmodify, ht, hrows⟩
    · rw [if_pos ⟨hfail, hf⟩]
      exact ⟨s, .refused (hrun.trans (run_bind_error hmodify _)), .refl hs, hsame⟩
    · rw [if_neg fun h => hfree h.1]
      refine ⟨t, .told (hrun.trans ((run_bind_ok hmodify _).trans ?_)), ht, hrows⟩
      rw [if_pos ⟨hp, htracks.1⟩]
      rfl
  · rw [if_neg htracks] at hrun
    rw [refreshed, updateVerdict_of_not_tracks htracks]
    exact ⟨s, .told hrun, .refl hs, hsame⟩

/-- **Carrying an update** to all counterparts of a row. -/
theorem run_carryIn_update (hs : s.Sane) {arrange : List (Item k) → List (Item k)}
    (harrange : ∀ rows, (arrange rows).Perm rows) (limit : Nat) (before after : Item k) {parent : Item k}
    (hparent : s.store.item? k before.id = some parent) :
    ∃ report t, s.run (carryIn arrange before.id fun version row => updateOne limit before after version row) =
        (.ok report, t) ∧
      report.Settles (s.store.item? k) before.id (s.updateVerdict parent.fields) ∧ s.Thins k t ∧
      t.store.item? k = carried before.id (fun i => some (s.refreshed parent.fields i)) (s.store.item? k) := by
  have hkeyed : ∀ {j} {i : Item k}, s.store.item? k j = some i → i.id = j := hs.ordered.id_of_item?
  obtain ⟨report, t, order, hrun, hsettles, ⟨ht, hrows⟩, hmem⟩ := run_carryIn hs harrange before.id
    (fun version row => updateOne limit before after version row) (s.updateVerdict parent.fields)
    (fun taken u => s.Thins k u ∧
      u.store.item? k = carriedTo taken (fun i => some (s.refreshed parent.fields i)) (s.store.item? k))
    ⟨.refl hs, carriedTo_nil.symm⟩ fun {taken row u} hnew hrow hp hI => by
      obtain ⟨hu, hrows⟩ := hI
      -- the fields are read anew for each counterpart, and are still those of the update
      obtain ⟨parent', hparent', hfields⟩ : ∃ parent', u.store.item? k before.id = some parent' ∧
          parent'.fields = parent.fields := by
        rw [hrows, carriedTo, hparent, Option.bind_some]
        unfold refreshed
        split
        next => split <;> exact ⟨_, rfl, rfl⟩
        next => exact ⟨_, rfl, rfl⟩
      have hrow' : u.store.item? k row.id = some row := by rw [hrows, carriedTo_of_not_mem hrow hnew]
      obtain ⟨t, hcomes, ht, htrows⟩ := comesTo_updateOne hu.sane limit after hparent' hrow' hp
      rw [hu.versions, hu.updateVerdict_eq, hfields] at hcomes
      refine ⟨t, hcomes, hu.trans ht, funext fun j => ?_⟩
      rw [htrows, carriedTo_concat hkeyed hrow, refreshed, refreshed, hu.updateVerdict_eq, hfields, hrows]
  exact ⟨report, t, hrun, hsettles, ht, hrows.trans (carriedTo_eq_carried hkeyed hmem)⟩

/-! ## The update -/

/-- A patch that changes fields is written if the row was not made to fail, and changes nothing else. -/
theorem thins_patchRow (hs : s.Sane) (limit : Nat) (hx : s.store.item? k id = some x)
    (hvalid : Patch.fault? patch = none) (hf : Fields.patch x.fields patch ≠ x.fields) (hfree : id ∉ s.store.failing) :
    ∃ t, s.run (Service.patchRow limit id patch false) = (.ok { x with fields := Fields.patch x.fields patch }, t) ∧
      s.Thins k t ∧ ∀ j, t.store.item? k j =
        if j = id then some { x with fields := Fields.patch x.fields patch } else s.store.item? k j := by
  have hedit : Service.applyPatch patch false x = .ok ({ x with fields := Fields.patch x.fields patch }, true) := by
    simp [Service.applyPatch, hf]
  rw [patchRow_of_valid hvalid]
  exact ((thins_modify hs limit (sure_applyPatch patch false) hx hedit).resolve_left fun h => hfree h.1).2

/-- A row got other fields, and its counterparts got them as `report` tells: the rows told of as updated have the
fields as well, nothing else changed in any row, and every list has its rows in the order they had. The rows told
of as skipped are those for which the overlay shows other values than the origin's. -/
structure Refreshed (s t : Session) (x : Item k) (fields : Fields k) (report : Report) : Prop where
  settles : report.Settles (s.store.item? k) x.id (s.updateVerdict fields)
  only : report.deleted = [] ∧ report.detached = []
  rows : ∀ id, t.store.item? k id =
    if id = x.id then some { x with fields }
    else if id ∈ report.updated then (s.store.item? k id).map fun i => { i with fields }
    else s.store.item? k id
  lists : ∀ owner, ∃ c c' : Chain k, s.store.chain k owner = .ok c ∧ t.store.chain k owner = .ok c' ∧ c'.ids = c.ids
  thins : s.Thins k t
  overlay : ∃ c : Chain k, s.store.chain k x.owner = .ok c ∧ ∀ {i}, s.store.item? k i.id = some i →
    i.parent = some x.id → (i.id ∈ report.skipped ↔
      Overlay.sourceOf c (s.versions i.owner) i = .mixed ∨ Overlay.sourceOf c (s.versions i.owner) i = .delta)

/-- The counterparts that an update skips are those that an overlay shows with values of their own. -/
theorem updateVerdict_eq_skipped_iff (hs : s.Sane) (hx : s.store.item? k id = some x) (fields : Fields k) :
    ∃ c : Chain k, s.store.chain k x.owner = .ok c ∧ ∀ {i : Item k}, i.parent = some x.id →
      (s.updateVerdict fields i = some .skipped ↔
        Overlay.sourceOf c (s.versions i.owner) i = .mixed ∨ Overlay.sourceOf c (s.versions i.owner) i = .delta) := by
  obtain ⟨items, hl⟩ := hs.ordered.lists k x.owner
  refine ⟨_, hl.chain_eq hs.ordered.sound, fun {i} hp => ?_⟩
  have hparent : Overlay.parentIn ⟨x.owner, s.store.version k x.owner, items⟩ i = some x :=
    (Overlay.parentIn_eq_some_iff hl.linked.nodup).2 ⟨hl.mem_of_item? hs.ordered hx rfl, hp⟩
  rw [Overlay.sourceOf, hparent, Source.resolve_of_linked hp, updateVerdict]
  cases s.versions i.owner <;> cases i.overridden <;> simp

/-- What the rows say when a row that was not made to fail was updated. -/
theorem thins_update (hs : s.Sane) {arrange : List (Item k) → List (Item k)}
    (harrange : ∀ rows, (arrange rows).Perm rows) (limit : Nat) (hx : s.store.item? k x.id = some x)
    (hvalid : Patch.fault? patch = none) (hf : Fields.patch x.fields patch ≠ x.fields)
    (hfree : x.id ∉ s.store.failing) :
    ∃ (report : Report) (t : Session), s.run (Service.updateIn arrange limit x.id patch) = (report.toResult, t) ∧
      report.Settles (s.store.item? k) x.id (s.updateVerdict (Fields.patch x.fields patch)) ∧ s.Thins k t ∧
      ∀ j, t.store.item? k j =
        if j = x.id then some { x with fields := Fields.patch x.fields patch }
        else carried x.id (fun i => some (s.refreshed (Fields.patch x.fields patch) i)) (s.store.item? k) j := by
  obtain ⟨u, hpatch, hu, hurows⟩ := thins_patchRow hs limit hx hvalid hf hfree
  have hparent := hurows x.id
  rw [if_pos rfl] at hparent
  obtain ⟨report, t, hcarry, hsettles, ht, htrows⟩ := run_carryIn_update hu.sane harrange limit x
    { x with fields := Fields.patch x.fields patch } hparent
  have hself : x.parent ≠ some x.id := hs.ordered.selfless hx
  rw [hu.updateVerdict_eq] at hsettles
  refine ⟨report, t, ?_, hsettles.of_rows fun {j i} hp => ?_, hu.trans ht, fun j => ?_⟩
  · rw [Service.updateIn, run_bind_ok (run_get_of_some hs.ordered hx), run_bind_ok hpatch, if_neg hf, run_bind_ok hcarry]
    rfl
  · -- the row itself is not one of its counterparts
    rw [hurows]
    split
    next hj =>
      rw [hj, hx, Option.some.injEq, Option.some.injEq]
      constructor <;> (rintro rfl; exact absurd hp hself)
    next => rfl
  · rw [htrows, carried, carried, hurows]
    split
    next => exact if_neg hself
    next => simp only [refreshed, hu.updateVerdict_eq]

/-- **Updating a row** that was not made to fail. -/
theorem refreshed_update (hs : s.Sane) {arrange : List (Item k) → List (Item k)}
    (harrange : ∀ rows, (arrange rows).Perm rows) (limit : Nat) (hx : s.store.item? k id = some x)
    (hvalid : Patch.fault? patch = none) (hf : Fields.patch x.fields patch ≠ x.fields) (hfree : id ∉ s.store.failing) :
    ∃ report t, s.run (Service.updateIn arrange limit id patch) =
        (if report.failed = [] then .ok report else .error (.cascadeIncomplete report), t) ∧
      s.Refreshed t x (Fields.patch x.fields patch) report := by
  obtain rfl : x.id = id := hs.ordered.id_of_item? hx
  obtain ⟨report, t, hrun, hsettles, ht, hcarried⟩ := thins_update hs harrange limit hx hvalid hf hfree
  obtain ⟨c, hc, hskipped⟩ := updateVerdict_eq_skipped_iff hs hx (Fields.patch x.fields patch)
  have hrows : ∀ j, t.store.item? k j =
      if j = x.id then some { x with fields := Fields.patch x.fields patch }
      else if j ∈ report.updated then (s.store.item? k j).map fun i => { i with fields := Fields.patch x.fields patch }
      else s.store.item? k j := by
    intro j
    rw [hcarried]
    refine if_congr Iff.rfl rfl ?_
    cases hi : s.store.item? k j with
    | none => simp [carried_of_none hi]
    | some i =>
      have hmem : j ∈ report.updated ↔ i.parent = some x.id ∧
          s.updateVerdict (Fields.patch x.fields patch) i = some .updated := hsettles.mem_iff hi (some .updated)
      rw [carried, hi, Option.bind_some, refreshed]
      by_cases hp : i.parent = some x.id <;>
        by_cases hv : s.updateVerdict (Fields.patch x.fields patch) i = some .updated <;> simp [hmem, hp, hv]
  refine ⟨report, t, by rw [hrun, Report.toResult_eq], hsettles,
    ⟨hsettles.told_eq_nil (some .deleted) fun i => ?_, hsettles.told_eq_nil (some .detached) fun i => ?_⟩, hrows,
    ht.chain_of_kept hs fun {j i} hi => ?_, ht, c, hc, fun {i} hi hp => ?_⟩
  · unfold updateVerdict
    split_ifs <;> simp
  · unfold updateVerdict
    split_ifs <;> simp
  · rw [hrows]
    split
    next => rfl
    next => split <;> simp [hi]
  · rw [← hskipped hp]
    exact (hsettles.mem_iff hi (some .skipped)).trans (and_iff_right hp)

/-- A patch that changes no field writes nothing and reports nothing. -/
theorem run_updateIn_of_same (hs : s.Sane) (arrange : List (Item k) → List (Item k)) (limit : Nat)
    (hx : s.store.item? k id = some x) (hvalid : Patch.fault? patch = none)
    (hf : Fields.patch x.fields patch = x.fields) :
    s.run (Service.updateIn arrange limit id patch) = (.ok {}, s) := by
  rw [Service.updateIn, run_bind_ok (run_get_of_some hs.ordered hx),
    run_bind_ok (run_patchRow_of_same hs limit hx hvalid hf), if_pos rfl]
  rfl

end Session

namespace Crowd

/-- **The effect of an update.** Whatever any number of clients have done over an empty store, with calls still in
progress and any rows made to fail, a client updates a row that was not made to fail, alone, and its counterparts are
taken in any order. The row gets the patched fields and the counterparts are refreshed as the report tells; a report
that tells of failures is an error. A patch that leaves the fields as they are writes nothing and reports nothing. -/
theorem reaches_refreshed (registry : Registry) (supply : Nat → BitVec 128) (limit : Nat) {c : Crowd (Call.task limit)}
    (hc : Crowd.Reaches (fun _ _ => True) { session := Session.start registry supply } c)
    (hnd : c.session.minted.Nodup) {k : Kind} {id : ItemId} {x : Item k} (hx : c.session.store.item? k id = some x)
    {patch : Patch k} (hvalid : Patch.fault? patch = none) {arrange : List (Item k) → List (Item k)}
    (harrange : ∀ rows, (arrange rows).Perm rows) :
    (Fields.patch x.fields patch = x.fields →
      c.session.run (Service.updateIn arrange limit id patch) = (.ok {}, c.session)) ∧
    (Fields.patch x.fields patch ≠ x.fields → id ∉ c.session.store.failing →
      ∃ report t, c.session.run (Service.updateIn arrange limit id patch) =
          (if report.failed = [] then .ok report else .error (.cascadeIncomplete report), t) ∧
        c.session.Refreshed t x (Fields.patch x.fields patch) report) := by
  have hs := hc.sane hnd
  exact ⟨fun hf => Session.run_updateIn_of_same hs arrange limit hx hvalid hf,
    fun hf hfree => Session.refreshed_update hs harrange limit hx hvalid hf hfree⟩

/-- A header has counterparts in two deltas and in a version, and a customized one. One of the two could not be written
when the header was updated, and by now neither can. -/
def overtaken : Crowd (Call.task 2) := [
    .start ⟨.header, .create ⟨100⟩ (KeyValue.ofPair "Accept" "a")⟩, .access 0, .access 0, .access 0,
    .start ⟨.header, .deltaList ⟨101⟩ ⟨100⟩⟩, .access 1, .access 1, .access 1, .access 1, .access 1, .access 1,
    .start ⟨.header, .deltaList ⟨102⟩ ⟨100⟩⟩, .access 2, .access 2, .access 2, .access 2, .access 2, .access 2,
    .aside (.registerVersion ⟨103⟩ ⟨100⟩),
    .start ⟨.header, .deltaList ⟨103⟩ ⟨100⟩⟩, .access 3, .access 3, .access 3, .access 3, .access 3, .access 3,
    .start ⟨.header, .deltaCreate ⟨101⟩ (some ⟨100⟩) (some ⟨1⟩) (KeyValue.ofPair "Accept" "b")⟩,
    .access 4, .access 4, .access 4, .access 4, .aside (.failWrites ⟨2⟩),
    .start ⟨.header, .update ⟨1⟩ { value := some "c" }⟩, .access 5, .access 5, .access 5, .access 5, .access 5,
    .access 5, .access 5, .access 5, .access 5, .access 5, .access 5, .access 5, .access 5, .access 5, .access 5,
    .access 5, .aside (.failWrites ⟨3⟩), .start ⟨.header, .delete ⟨4⟩⟩, .access 6].foldl after
  { session := Session.start {} fun n => BitVec.ofNat 128 (n + 1) }

/-- The header gets its first value back, which the counterpart that was not written has still. -/
theorem reaches_refreshed_overtaken :
    overtaken.session.run (Service.updateIn (k := .header) List.reverse 2 ⟨1⟩ { value := some "c" }) =
      (.ok {}, overtaken.session) ∧
    ∃ report t, overtaken.session.run (Service.updateIn (k := .header) List.reverse 2 ⟨1⟩ { value := some "a" }) =
        (.error (.cascadeIncomplete report), t) ∧
      report.updated = [⟨2⟩] ∧ report.skipped = [⟨5⟩, ⟨4⟩] ∧ report.failed.map (·.id) = [⟨3⟩] ∧
      overtaken.session.Refreshed t
        (⟨⟨1⟩, ⟨100⟩, none, none, none, KeyValue.ofPair "Accept" "c", false⟩ : Item .header)
        (KeyValue.ofPair "Accept" "a") report := by
  have hreach : Crowd.Reaches (fun _ _ => True)
      { session := Session.start {} fun n => BitVec.ofNat 128 (n + 1) } overtaken :=
    .foldl _ .refl fun _ _ _ => True.intro
  have hnd : overtaken.session.minted.Nodup := by decide +kernel
  have hx : overtaken.session.store.item? .header ⟨1⟩ =
      some ⟨⟨1⟩, ⟨100⟩, none, none, none, KeyValue.ofPair "Accept" "c", false⟩ := by decide +kernel
  have hperm : ∀ rows : List (Item .header), rows.reverse.Perm rows := List.reverse_perm
  have hvalid' : Patch.fault? (k := .header) { value := some "c" } = none := rfl
  refine ⟨(reaches_refreshed {} _ 2 hreach hnd hx hvalid' hperm).1 (by decide), ?_⟩
  have hvalid : Patch.fault? (k := .header) { value := some "a" } = none := rfl
  obtain ⟨report, t, hrun, h⟩ :=
    (reaches_refreshed {} _ 2 hreach hnd hx hvalid hperm).2 (by decide) (by decide +kernel)
  have htold : (overtaken.session.run (Service.updateIn (k := .header) List.reverse 2 ⟨1⟩ { value := some "a" })).1 =
      .error (.cascadeIncomplete ⟨[⟨2⟩], [], [], [⟨5⟩, ⟨4⟩], [⟨⟨3⟩, ⟨102⟩,
        "store error: backend error: injected write failure for row 00000000000000000000000003"⟩]⟩) := by
    decide +kernel
  rw [hrun] at htold ⊢
  split at htold
  next => cases htold
  next hfailed =>
    rw [if_neg hfailed]
    cases htold
    exact ⟨_, t, rfl, rfl, rfl, rfl, h⟩

end Crowd

end ExampleOverlay
