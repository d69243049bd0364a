import ExampleOverlay.Proofs.Runs.Calm
import Mathlib.Data.List.Basic

/-!
# What cascades do

A cascade rewrites the counterparts of a row one by one, and each of them is written or left as it is
because a row was made to fail. If the report names no failure, then all counterparts were rewritten, and
the rows are those of `carried`: after an update the counterparts that track their parent have its fields,
and after a deletion none is linked any more. From this follows how the two calls that cascade end
(`Session.Updates`, `Session.Deletes`), whatever the counterparts said before.
-/

namespace ExampleOverlay

open Chain Program

variable {k : Kind}

/-! ## Counterparts -/

/-- Linked to `parent`, never customized, and of an example that is no version. -/
def Item.PristineOf (version : ExampleId → Bool) (parent : ItemId) (i : Item k) : Prop :=
  i.parent = some parent ∧ i.overridden = false ∧ version i.owner = false

/-- What a counterpart becomes when its parent gets other fields. -/
def Item.follow (version : ExampleId → Bool) (fields : Fields k) (i : Item k) : Option (Item k) :=
  some (if i.overridden = false ∧ version i.owner = false then { i with fields } else i)

/-- What is left of a counterpart when its parent is deleted. -/
def Item.outlive (version : ExampleId → Bool) (i : Item k) : Option (Item k) :=
  if version i.owner then some { i with parent := none } else none

/-- The rows after a change was carried to all counterparts of `parent`, which makes `g` of each. -/
def carried (parent : ItemId) (g : Item k → Option (Item k)) (rows : ItemId → Option (Item k)) (j : ItemId) :
    Option (Item k) :=
  (rows j).bind fun i => if i.parent = some parent then g i else some i

/-- The rows after what `g` makes of some of them was written in their places. -/
def revise (g : Item k → Option (Item k)) (rows : ItemId → Option (Item k)) :
    List (Item k) → ItemId → Option (Item k)
  | [] => rows
  | i :: rest => revise g (Function.update rows i.id (g i.bare)) rest

section

variable {g : Item k → Option (Item k)} {rows : ItemId → Option (Item k)} {parent j : ItemId} {i : Item k}

theorem carried_of_linked (h : rows j = some i) (hp : i.parent = some parent) :
    carried parent g rows j = g i := by
  simp [carried, h, hp]

theorem carried_of_not_linked (h : rows j = some i) (hp : i.parent ≠ some parent) :
    carried parent g rows j = some i := by
  simp [carried, h, hp]

theorem carried_of_none (h : rows j = none) : carried parent g rows j = none := by simp [carried, h]

theorem revise_of_not_mem : ∀ {rows : ItemId → Option (Item k)} {items : List (Item k)}, j ∉ idsOf items →
    revise g rows items j = rows j
  | _, [], _ => rfl
  | rows, i :: rest, h => by
    rw [idsOf, List.map_cons, List.mem_cons, not_or] at h
    rw [revise, revise_of_not_mem h.2, Function.update_of_ne h.1]

theorem revise_of_mem : ∀ {rows : ItemId → Option (Item k)} {items : List (Item k)}, (idsOf items).Nodup →
    i ∈ items → revise g rows items i.id = g i.bare
  | _, x :: rest, hnd, hi => by
    rw [idsOf, List.map_cons, List.nodup_cons] at hnd
    rw [revise]
    rcases List.mem_cons.1 hi with rfl | hi
    · rw [revise_of_not_mem hnd.1, Function.update_self]
    · exact revise_of_mem hnd.2 hi

end

/-- The source of a counterpart seen beside its parent. -/
theorem Source.resolve_of_linked {row parent : Item k} (h : row.parent = some parent.id) (version : Bool) :
    Source.resolve row (some parent) version =
      if version then .delta else if row.overridden then .mixed else .origin := by
  cases version <;> cases ho : row.overridden <;>
    simp [Source.resolve, Source.classify, Item.isLinked, Item.tracks, h, ho]

theorem Cascade.known_map (f : ExampleId → Bool) {owner : ExampleId} : ∀ {owners : List ExampleId},
    owner ∈ owners → known (owners.map fun o => (o, f o)) owner = f owner
  | o :: owners, h => by
    unfold known
    rw [List.map_cons, List.lookup_cons]
    by_cases ho : owner = o
    · subst ho; simp
    · rw [show (owner == o) = false by simpa using ho]
      exact known_map f ((List.mem_cons.1 h).resolve_left ho)

namespace Session

variable {s t u : Session}

/-- Which examples are versions. -/
def versions (s : Session) (owner : ExampleId) : Bool := (s.world.registry.versionOf owner).isSome

section

variable {rows rows' : ItemId → Option (Item k)}

theorem Rewrites.versions (h : s.Rewrites t rows) : t.versions = s.versions := by
  unfold Session.versions
  rw [h.registry]

theorem Minted.versions {ids : List ItemId} (h : s.Minted t ids) : t.versions = s.versions := by
  unfold Session.versions
  rw [h.registry]

theorem Rewrites.trans (h : s.Rewrites t rows) (h' : t.Rewrites u rows') : s.Rewrites u rows' where
  sane := h'.sane
  registry := h'.registry.trans h.registry
  failing := h'.failing.trans h.failing
  minted := h'.minted.trans h.minted
  rows := h'.rows
  kinds hk := (h'.kinds hk).trans (h.kinds hk)

end

/-! ## One counterpart -/

/-- One row was rewritten, unless a row was made to fail. -/
def Revises (s : Session) (p : Program Cascade.Outcome) (id : ItemId) (new : Option (Item k)) : Prop :=
  (s.store.failing ≠ ∅ ∧ ∃ e, s.run p = (.error (.store (.backend e)), s)) ∨
    ∃ outcome t, s.run p = (.ok outcome, t) ∧ s.Rewrites t (Function.update (s.store.bare? k) id new)

/-- A row that is in the store as it should be need not be written. -/
theorem Revises.of_same (hs : s.Sane) {p : Program Cascade.Outcome} {id : ItemId} {new : Option (Item k)}
    (hnew : s.store.bare? k id = new) {outcome : Cascade.Outcome} (h : s.run p = (.ok outcome, s)) :
    s.Revises p id new := by
  refine Or.inr ⟨outcome, s, h, ?_⟩
  rw [← hnew, Function.update_eq_self]
  exact .refl hs

/-- An edit of a row may leave it unwritten if it says already what the edit makes it say. -/
theorem revises_modify (hs : s.Sane) (limit : Nat) {id : ItemId} {x edited : Item k} {store : Bool}
    {edit : Item k → Except EngineError (Item k × Bool)} (hedit : Sure edit)
    (hx : s.store.item? k id = some x) (he : edit x = .ok (edited, store))
    (hsame : store = false → edited.bare = x.bare) (f : Item k → Cascade.Outcome) :
    s.Revises (do return f (← Editing.modify limit id edit)) id (some edited.bare) := by
  rcases outcome_modify hs limit hedit hx he with ⟨-, hfail, e, hrun⟩ | ⟨-, t, hrun, ht⟩
  · exact Or.inl ⟨Std.ExtTreeSet.ne_empty_of_mem hfail, e, run_bind_error hrun _⟩
  · refine Or.inr ⟨_, t, run_bind_ok hrun _, ?_⟩
    cases store with
    | true => exact ht
    | false =>
      rw [hsame rfl, Function.update_eq_self_iff.2 (Store.bare?_of_item? hx).symm]
      exact ht

/-- A row that tracks its parent takes its fields. -/
theorem takeFields_of_tracks {p : ItemId} {x : Item k} (hp : x.parent = some p) (hov : x.overridden = false)
    (fields : Fields k) :
    Cascade.takeFields p fields x = .ok ({ x with fields }, decide (x.fields ≠ fields)) := by
  unfold Cascade.takeFields
  by_cases hf : x.fields = fields
  · subst hf
    simp
  · simp [hp, hov, hf]

/-- What is run for one counterpart of an update: it is edited if it tracks its parent, and skipped otherwise. -/
theorem run_updateOne (hs : s.store.Ordered) (limit : Nat) {before row parent : Item k} (after : Item k)
    (version : Bool) (hparent : s.store.item? k before.id = some parent) (hp : row.parent = some before.id) :
    s.run (Cascade.updateOne limit before after version row) =
      if row.overridden = false ∧ version = false then s.run (do
        let row ← Editing.modify limit row.id (Cascade.takeFields before.id parent.fields)
        return if row.parent = some before.id ∧ row.overridden = false then .updated else .skipped)
      else (.ok .skipped, s) := by
  unfold Cascade.updateOne
  rw [Source.resolve_of_linked hp]
  cases version with
  | true => simp; rfl
  | false =>
    cases row.overridden with
    | true => simp; rfl
    | false =>
      have hread : s.run (Program.get k before.id).outcome = (.ok (.ok parent), s) := by
        rw [run_outcome, run_get_of_some hs hparent]
      rw [if_neg (by simp), if_pos (by simp), run_bind_ok hread]
      rfl

/-- **One counterpart of an update** takes the fields that its parent has by now, if it tracks it. -/
theorem revises_updateOne (hs : s.Sane) (limit : Nat) {before row o : Item k} (after : Item k)
    (hparent : s.store.bare? k before.id = some o) (hrow : s.store.bare? k row.id = some row.bare)
    (hp : row.parent = some before.id) :
    s.Revises (Cascade.updateOne limit before after (s.versions row.owner) row) row.id
      (row.bare.follow s.versions o.fields) := by
  obtain ⟨parent, hget, rfl⟩ := Store.bare?_eq_some_iff.1 hparent
  obtain ⟨x, hx, hxrow⟩ := Store.bare?_eq_some_iff.1 hrow
  obtain ⟨-, -, hxp, -, hxo⟩ := Item.bare_eq_iff.1 hxrow
  have hrun := run_updateOne hs.ordered limit after (s.versions row.owner) hget hp
  by_cases htracks : row.overridden = false ∧ s.versions row.owner = false
  · have hnew : row.bare.follow s.versions parent.bare.fields =
        some ({ x with fields := parent.fields } : Item k).bare := by
      rw [show ({ x with fields := parent.fields } : Item k).bare = { x.bare with fields := parent.fields } from rfl,
        hxrow]
      exact congrArg some (if_pos htracks)
    have hedit := takeFields_of_tracks (hxp.trans hp) (hxo.trans htracks.1) parent.fields
    rw [if_pos htracks] at hrun
    rw [hnew, Revises, hrun]
    exact revises_modify hs limit (sure_takeFields before.id parent.fields) hx hedit
      (fun hsame => by rw [← not_not.1 (of_decide_eq_false hsame)]) _
  · have hnew : row.bare.follow s.versions parent.bare.fields = some row.bare := congrArg some (if_neg htracks)
    rw [if_neg htracks] at hrun
    rw [hnew]
    exact .of_same hs hrow hrun

/-- What is run for one counterpart of a deletion: it loses its link if it is of a version, and is removed otherwise. -/
theorem deleteOne_eq (limit : Nat) {origin row : Item k} (hp : row.parent = some origin.id) (version : Bool) :
    Cascade.deleteOne limit origin version row =
      if version then (do
        let _ : Item k ← Editing.modify limit row.id (Cascade.clearLink origin.id)
        return .detached)
      else (do
        let _ ← Editing.remove limit k row.id
        return .deleted) := by
  unfold Cascade.deleteOne
  rw [Source.resolve_of_linked hp]
  cases version with
  | true => rfl
  | false => cases row.overridden <;> rfl

theorem clearLink_of_linked {p : ItemId} {x : Item k} (hp : x.parent = some p) :
    Cascade.clearLink p x = .ok ({ x with parent := none }, true) := if_neg (not_not.2 hp)

/-- **One counterpart of a deletion** is removed, or kept without its link. -/
theorem revises_deleteOne (hs : s.Sane) (limit : Nat) {origin row : Item k}
    (hrow : s.store.bare? k row.id = some row.bare) (hp : row.parent = some origin.id) :
    s.Revises (Cascade.deleteOne limit origin (s.versions row.owner) row) row.id
      (row.bare.outlive s.versions) := by
  obtain ⟨x, hx, hxrow⟩ := Store.bare?_eq_some_iff.1 hrow
  obtain ⟨-, -, hxp, -, -⟩ := Item.bare_eq_iff.1 hxrow
  rw [deleteOne_eq limit hp]
  cases hv : s.versions row.owner with
  | true =>
    have hnew : row.bare.outlive s.versions = some ({ x with parent := none } : Item k).bare := by
      rw [show ({ x with parent := none } : Item k).bare = { x.bare with parent := none } from rfl, hxrow]
      exact if_pos hv
    rw [hnew, if_pos rfl]
    exact revises_modify hs limit (sure_clearLink origin.id) hx (clearLink_of_linked (hxp.trans hp)) (by simp)
      fun _ => .detached
  | false =>
    have hnew : row.bare.outlive s.versions = none := if_neg (by rw [Item.bare_owner, hv]; simp)
    rw [hnew, if_neg (by simp)]
    rcases outcome_remove hs limit hx with ⟨hfail, e, hrun⟩ | ⟨t, hrun, ht⟩
    · exact Or.inl ⟨hfail, e, run_bind_error hrun _⟩
    · exact Or.inr ⟨_, t, run_bind_ok hrun _, ht⟩

/-! ## All counterparts -/

/-- A change is carried to rows one after another. `each` may count on what the row itself and its parent
say, since no row is its own counterpart. -/
theorem run_carry (each : Item k → Program Cascade.Outcome) {g : Item k → Option (Item k)} {p : ItemId} :
    ∀ (rows : List (Item k)) {s : Session} (report : Cascade.Report), s.Sane →
      (∀ row ∈ rows, ∀ u : Session, u.Sane → u.versions = s.versions →
        u.store.bare? k p = s.store.bare? k p → u.store.bare? k row.id = some row.bare →
        u.Revises (each row) row.id (g row.bare)) →
      (idsOf rows).Nodup → p ∉ idsOf rows → (∀ row ∈ rows, s.store.bare? k row.id = some row.bare) →
      ∃ report' t done, s.run (Cascade.carry each report rows) = (.ok report', t) ∧ List.Sublist done rows ∧
        s.Rewrites t (revise g (s.store.bare? k) done) ∧
        (report'.isComplete = true → report.isComplete = true ∧ done = rows) ∧
        (s.store.failing = ∅ → report.isComplete = true → report'.isComplete = true)
  | [], s, report, hs, _, _, _, _ =>
    ⟨report, s, [], rfl, .refl _, .refl hs, fun h => ⟨h, rfl⟩, fun _ h => h⟩
  | row :: rest, s, report, hs, heach, hnd, hp, hrows => by
    rw [idsOf, List.map_cons, List.nodup_cons] at hnd
    rw [idsOf, List.map_cons, List.mem_cons, not_or] at hp
    have hne : ∀ r ∈ rest, r.id ≠ row.id := fun r hr he => hnd.1 (he ▸ List.mem_map_of_mem hr)
    rcases heach row (by simp) s hs rfl rfl (hrows row (by simp)) with
      ⟨hfail, e, hrun⟩ | ⟨outcome, u, hrun, hu⟩
    · have hout : s.run (each row).outcome = (.ok (.error (.store (.backend e))), s) := by
        rw [run_outcome, hrun]
      obtain ⟨report', t, done, hrest, hsub, ht, hall, -⟩ := run_carry each rest
        (report.addFailure ⟨row.id, row.owner, (EngineError.store (.backend e)).message⟩) hs
        (fun r hr => heach r (List.mem_cons_of_mem _ hr)) hnd.2 hp.2
        fun r hr => hrows r (List.mem_cons_of_mem _ hr)
      refine ⟨report', t, done, (run_bind_ok hout _).trans hrest, hsub.cons _, ht, fun h => ?_,
        fun hcalm => absurd hcalm hfail⟩
      have hfalse := (hall h).1
      simp [Cascade.Report.isComplete, Cascade.Report.addFailure] at hfalse
    · have hout : s.run (each row).outcome = (.ok (.ok outcome), u) := by rw [run_outcome, hrun]
      have hother : ∀ j ≠ row.id, u.store.bare? k j = s.store.bare? k j := fun j hj => by
        rw [hu.rows, Function.update_of_ne hj]
      have hkept : (report.add row.id outcome).isComplete = report.isComplete := by cases outcome <;> rfl
      obtain ⟨report', t, done, hrest, hsub, ht, hall, hcalm⟩ := run_carry each rest (report.add row.id outcome) hu.sane
        (fun r hr v hv hversions horigin => heach r (List.mem_cons_of_mem _ hr) v hv
          (hversions.trans hu.versions) (horigin.trans (hother p hp.1)))
        hnd.2 hp.2 fun r hr => (hother _ (hne r hr)).trans (hrows r (List.mem_cons_of_mem _ hr))
      rw [hkept] at hall hcalm
      rw [hu.failing] at hcalm
      refine ⟨report', t, row :: done, (run_bind_ok hout _).trans hrest, hsub.cons_cons _, ?_,
        fun h => ⟨(hall h).1, congrArg _ (hall h).2⟩, hcalm⟩
      rw [revise, ← hu.rows]
      exact hu.trans ht

/-- Rewriting all rows linked to a row is carrying the change to its counterparts. -/
theorem revise_children (hs : s.store.Ordered) {g : Item k → Option (Item k)} {p : ItemId} {rows : List (Item k)}
    (hnd : (idsOf rows).Nodup) (hmem : ∀ i, i ∈ rows ↔ s.store.item? k i.id = some i ∧ i.parent = some p) :
    revise g (s.store.bare? k) rows = carried p g (s.store.bare? k) := by
  funext j
  by_cases hj : j ∈ idsOf rows
  · obtain ⟨i, hi, rfl⟩ := List.mem_map.1 hj
    obtain ⟨hstored, hp⟩ := (hmem i).1 hi
    rw [revise_of_mem hnd hi, carried_of_linked (Store.bare?_of_item? hstored) hp]
  · rw [revise_of_not_mem hj]
    cases hrow : s.store.bare? k j with
    | none => rw [carried_of_none hrow]
    | some y =>
      obtain ⟨x, hx, rfl⟩ := Store.bare?_eq_some_iff.1 hrow
      obtain rfl : x.id = j := hs.id_of_item? hx
      exact (carried_of_not_linked hrow fun hp => hj (List.mem_map_of_mem ((hmem x).2 ⟨hx, hp⟩))).symm

/-- The report and the rows that a cascade over the counterparts of a row ends with. -/
structure Cascaded (s t : Session) (p : ItemId) (g : Item k → Option (Item k)) (report : Cascade.Report) :
    Prop where
  rewrites : s.Rewrites t (t.store.bare? k)
  complete : report.isComplete = true → t.store.bare? k = carried p g (s.store.bare? k)
  calm : s.store.failing = ∅ → report.isComplete = true

/-- **A cascade** reaches every counterpart that it is not kept from writing. -/
theorem run_cascade (hs : s.Sane) (each : Bool → Item k → Program Cascade.Outcome)
    {g : Item k → Option (Item k)} (p : ItemId)
    (heach : ∀ (row : Item k) (u : Session), u.Sane → u.versions = s.versions →
      u.store.bare? k p = s.store.bare? k p → u.store.bare? k row.id = some row.bare → row.parent = some p →
      u.Revises (each (u.versions row.owner) row) row.id (g row.bare)) :
    ∃ report t, s.run (do
        let rows ← Program.children k p
        let versions ← Cascade.versions rows
        Cascade.carry (fun row => each (Cascade.known versions row.owner) row) {} rows) = (.ok report, t) ∧
      s.Cascaded t p g report := by
  obtain ⟨rows, hchildren, hnd, hmem⟩ := run_children hs.ordered (k := k) p
  have hp : p ∉ idsOf rows := by
    intro hp
    obtain ⟨i, hi, rfl⟩ := List.mem_map.1 hp
    obtain ⟨hi, hip⟩ := (hmem i).1 hi
    exact hs.ordered.selfless hi hip
  have hstored : ∀ row ∈ rows, s.store.bare? k row.id = some row.bare := fun row hrow =>
    Store.bare?_of_item? ((hmem row).1 hrow).1
  obtain ⟨report, t, done, hrun, -, ht, hall, hcalm⟩ := run_carry (g := g)
    (fun row => each (Cascade.known _ row.owner) row) rows {} hs (fun row hrow u hu hversions horigin h => by
      have hknown : Cascade.known ((rows.map (·.owner)).eraseDups.map fun o => (o, s.versions o)) row.owner =
          s.versions row.owner := Cascade.known_map _ (List.mem_eraseDups.2 (List.mem_map_of_mem hrow))
      rw [hknown, ← hversions]
      exact heach row u hu hversions horigin h ((hmem row).1 hrow).2) hnd hp hstored
  refine ⟨report, t, (run_bind_ok hchildren _).trans ((run_bind_ok (run_versions s rows) _).trans hrun), ?_,
    fun h => ?_, fun h => hcalm h rfl⟩
  · rw [ht.rows]
    exact ht
  · obtain ⟨-, rfl⟩ := hall h
    rw [ht.rows]
    exact revise_children hs.ordered hnd hmem

theorem run_cascade_update (hs : s.Sane) (limit : Nat) {before o : Item k} (after : Item k)
    (ho : s.store.bare? k before.id = some o) :
    ∃ report t, s.run (Cascade.update limit before after) = (.ok report, t) ∧
      s.Cascaded t before.id (Item.follow s.versions o.fields) report :=
  run_cascade hs (fun version row => Cascade.updateOne limit before after version row) before.id
    fun row u hu hversions hparent hrow hp => by
      have hrevises := revises_updateOne hu limit after (hparent.trans ho) hrow hp
      rwa [hversions] at hrevises ⊢

theorem run_cascade_delete (hs : s.Sane) (limit : Nat) (origin : Item k) :
    ∃ report t, s.run (Cascade.delete limit origin) = (.ok report, t) ∧
      s.Cascaded t origin.id (Item.outlive (k := k) s.versions) report :=
  run_cascade hs (fun version row => Cascade.deleteOne limit origin version row) origin.id
    fun row u hu hversions _ hrow hp => by
      have hrevises := revises_deleteOne hu limit hrow hp
      rwa [hversions] at hrevises ⊢

/-! ## Calls that cascade -/

variable {id : ItemId} {patch : Patch k} {x : Item k}

theorem run_patchRow_of_fault {e : FieldError} (h : Patch.fault? patch = some e) (s : Session) (limit : Nat)
    (id : ItemId) (customize : Bool) :
    s.run (Service.patchRow limit id patch customize) = (.error (.invalidFields e), s) := by
  unfold Service.patchRow
  rw [h]
  rfl

theorem patchRow_of_valid (h : Patch.fault? patch = none) (limit : Nat) (id : ItemId) (customize : Bool) :
    Service.patchRow limit id patch customize = Editing.modify limit id (Service.applyPatch patch customize) := by
  unfold Service.patchRow
  rw [h]
  rfl

/-- A patch that changes no field is not written. -/
theorem run_patchRow_of_same (hs : s.Sane) (limit : Nat) (hx : s.store.item? k id = some x)
    (hvalid : Patch.fault? patch = none) (hf : Fields.patch x.fields patch = x.fields) :
    s.run (Service.patchRow limit id patch false) = (.ok x, s) := by
  rw [patchRow_of_valid hvalid]
  exact run_modify_of_same hs.ordered limit hx (if_pos ⟨hf, rfl⟩)

/-- A patch that changes fields is written, unless the row was made to fail. -/
theorem outcome_patchRow (hs : s.Sane) (limit : Nat) (hx : s.store.item? k id = some x)
    (hvalid : Patch.fault? patch = none) (hf : Fields.patch x.fields patch ≠ x.fields) :
    (s.store.failing ≠ ∅ ∧ ∃ e, s.run (Service.patchRow limit id patch false) = (.error e, s)) ∨
      ∃ after t, s.run (Service.patchRow limit id patch false) = (.ok after, t) ∧
        after.fields = Fields.patch x.fields patch ∧ s.Rewrites t
          (Function.update (s.store.bare? k) id (some { x.bare with fields := Fields.patch x.fields patch })) := by
  have hne : ¬ (Fields.patch x.fields patch = x.fields ∧
      (false && x.isLinked && !x.overridden) = false) := fun hc => hf hc.1
  rw [patchRow_of_valid hvalid]
  rcases outcome_modify hs limit (sure_applyPatch patch false) hx (if_neg hne) with
    ⟨-, hfail, e, hrun⟩ | ⟨-, t, hrun, ht⟩
  · exact Or.inl ⟨Std.ExtTreeSet.ne_empty_of_mem hfail, _, hrun⟩
  · refine Or.inr ⟨_, t, hrun, rfl, ?_⟩
    rw [if_pos rfl] at ht
    simpa [Item.bare] using ht

/-- How an update ends: it is refused, it has nothing to change, or the changed fields are stored and carried
to the counterparts. -/
inductive Updates (s : Session) (limit : Nat) (id : ItemId) (patch : Patch k) : Prop
  | refused (e : EngineError) (h : s.run (Service.update limit id patch) = (.error e, s))
      (reason : s.store.item? k id = none ∨ Patch.fault? patch ≠ none ∨ s.store.failing ≠ ∅)
  | same (x : Item k) (hx : s.store.item? k id = some x) (same : Fields.patch x.fields patch = x.fields)
      (h : s.run (Service.update limit id patch) = (.ok {}, s))
  | carried (x : Item k) (hx : s.store.item? k id = some x) (changed : Fields.patch x.fields patch ≠ x.fields)
      (u : Session) (written : s.Rewrites u (Function.update (s.store.bare? k) id
        (some { x.bare with fields := Fields.patch x.fields patch })))
      (t : Session) (report : Cascade.Report)
      (cascaded : u.Cascaded t id (Item.follow s.versions (Fields.patch x.fields patch)) report)
      (h : s.run (Service.update limit id patch) = (report.toResult, t))

/-- **Updating** a row. -/
theorem updates_update (hs : s.Sane) (limit : Nat) (id : ItemId) (patch : Patch k) :
    s.Updates limit id patch := by
  cases hx : s.store.item? k id with
  | none => exact .refused _ (run_bind_error (run_get_of_none hs.ordered hx) _) (Or.inl hx)
  | some x =>
    have hread := run_get_of_some hs.ordered hx
    cases hvalid : Patch.fault? patch with
    | some e =>
      have hpatch := run_patchRow_of_fault hvalid s limit id false
      exact .refused _ ((run_bind_ok hread _).trans (run_bind_error hpatch _)) (Or.inr (Or.inl (by simp [hvalid])))
    | none =>
      by_cases hf : Fields.patch x.fields patch = x.fields
      · have hpatch := run_patchRow_of_same hs limit hx hvalid hf
        refine .same x hx hf ((run_bind_ok hread _).trans ((run_bind_ok hpatch _).trans ?_))
        rw [if_pos rfl]
        rfl
      rcases outcome_patchRow hs limit hx hvalid hf with ⟨hfail, e, hpatch⟩ | ⟨after, u, hpatch, hafter, hu⟩
      · exact .refused _ ((run_bind_ok hread _).trans (run_bind_error hpatch _)) (Or.inr (Or.inr hfail))
      · obtain rfl : x.id = id := hs.ordered.id_of_item? hx
        have hself := congrFun hu.rows x.id
        rw [Function.update_self] at hself
        obtain ⟨report, t, hcascade, ht⟩ := run_cascade_update hu.sane limit after hself
        rw [hu.versions] at ht
        refine .carried x hx hf u hu t report ht ((run_bind_ok hread _).trans ((run_bind_ok hpatch _).trans ?_))
        rw [if_neg (by rwa [hafter]), run_bind_ok hcascade]
        rfl

/-- How a deletion ends: it is refused, or the row is removed and that is carried to the counterparts. -/
inductive Deletes (s : Session) (limit : Nat) (k : Kind) (id : ItemId) : Prop
  | refused (e : EngineError) (h : s.run (Service.delete limit k id) = (.error e, s))
      (reason : s.store.item? k id = none ∨ s.store.failing ≠ ∅)
  | carried (x : Item k) (hx : s.store.item? k id = some x)
      (u : Session) (written : s.Rewrites u (Function.update (s.store.bare? k) id none))
      (t : Session) (report : Cascade.Report) (cascaded : u.Cascaded t id (Item.outlive (k := k) s.versions) report)
      (h : s.run (Service.delete limit k id) = (report.toResult, t))

/-- **Deleting** a row. -/
theorem deletes_delete (hs : s.Sane) (limit : Nat) (k : Kind) (id : ItemId) : s.Deletes limit k id := by
  cases hx : s.store.item? k id with
  | none => exact .refused _ (run_bind_error (run_remove_of_none hs.ordered limit hx) _) (Or.inl hx)
  | some x =>
    rcases outcome_remove hs limit hx with ⟨hfail, e, hremove⟩ | ⟨u, hremove, hu⟩
    · exact .refused _ (run_bind_error hremove _) (Or.inr hfail)
    · obtain rfl : x.id = id := hs.ordered.id_of_item? hx
      obtain ⟨report, t, hcascade, ht⟩ := run_cascade_delete hu.sane limit x
      rw [hu.versions] at ht
      refine .carried x hx u hu t report ht ((run_bind_ok hremove _).trans ?_)
      rw [run_bind_ok hcascade]
      rfl

/-- A report that names no failure is a result. -/
theorem toResult_eq_ok_iff {report r : Cascade.Report} :
    report.toResult = .ok r ↔ report = r ∧ report.isComplete = true := by
  unfold Cascade.Report.toResult
  split
  next h => simp [h]
  next h => simp [h]

end Session

end ExampleOverlay
