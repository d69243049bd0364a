import ExampleOverlay.Proofs.Crowds.Calls
import ExampleOverlay.Proofs.Races.Cascades
import ExampleOverlay.Proofs.Runs.Pristine

/-!
# Updates that are overtaken

An update reads a row, patches it, and carries the change to the counterparts if the patched row says something
else than what was read. Another client updates the row in between. Until the row is written, the first update
goes on as if it had begun afterwards, except that it compares what it writes with what it has read before, which
makes a difference where some row follows (`Session.bare?_of_run_patch`). Once the row is written, the second update
finds all that the first has changed, and brings the counterparts up to date (`Session.throughout_update`).
-/

namespace ExampleOverlay

open Program

variable {k : Kind}

/-! ## What an update leaves -/

/-- The rows after an update of the row `id` was carried to its counterparts. -/
def updated (version : ExampleId → Bool) (id : ItemId) (patch : Patch k) (rows : ItemId → Option (Item k)) :
    ItemId → Option (Item k) :=
  match rows id with
  | none => rows
  | some x =>
    if Fields.patch x.fields patch = x.fields then rows
    else carried id (Item.follow version (Fields.patch x.fields patch))
      (Function.update rows id (some { x with fields := Fields.patch x.fields patch }))

/-- Some row follows the row `id`: it is linked to it, was never customized, and is of a plain example. -/
def Followed (version : ExampleId → Bool) (id : ItemId) (rows : ItemId → Option (Item k)) : Prop :=
  ∃ (j : ItemId) (i : Item k), rows j = some i ∧ i.PristineOf version id

section

variable {version : ExampleId → Bool} {id : ItemId} {patch : Patch k} {rows rows' : ItemId → Option (Item k)}
  {x : Item k}

theorem updated_of_same (hx : rows id = some x) (hf : Fields.patch x.fields patch = x.fields) :
    updated version id patch rows = rows := by
  unfold updated
  rw [hx]
  exact if_pos hf

theorem updated_of_changed (hx : rows id = some x) (hf : Fields.patch x.fields patch ≠ x.fields) :
    updated version id patch rows = carried id (Item.follow version (Fields.patch x.fields patch))
      (Function.update rows id (some { x with fields := Fields.patch x.fields patch })) := by
  unfold updated
  rw [hx]
  exact if_neg hf

/-- What follows the row before an update that changes it makes no difference afterwards. -/
theorem Alike.updated_eq (h : Alike version id rows rows') (hx : rows id = some x) (hx' : rows' id = some x)
    (hf : Fields.patch x.fields patch ≠ x.fields) :
    updated version id patch rows = updated version id patch rows' := by
  rw [updated_of_changed hx hf, updated_of_changed hx' hf]
  funext j
  by_cases hj : j = id
  · subst hj
    simp only [carried, Function.update_self]
  · have hrows := congrFun (h (Fields.patch x.fields patch)) j
    simp only [carried, Function.update_of_ne hj] at hrows ⊢
    exact hrows

/-- An update keeps every row where it is. -/
theorem exists_updated (version : ExampleId → Bool) (id : ItemId) (patch : Patch k) {j : ItemId} {i : Item k}
    (hi : rows j = some i) :
    ∃ i', updated version id patch rows j = some i' ∧ i'.owner = i.owner ∧ i'.parent = i.parent := by
  unfold updated
  cases hx : rows id with
  | none => exact ⟨i, hi, rfl, rfl⟩
  | some x =>
    dsimp only
    split
    · exact ⟨i, hi, rfl, rfl⟩
    · by_cases hj : j = id
      · subst hj
        rw [hx, Option.some.injEq] at hi
        subst hi
        obtain ⟨i', hi', ho, hp⟩ := exists_carried version j (Fields.patch x.fields patch)
          (Function.update_self j (some { x with fields := Fields.patch x.fields patch }) rows)
        exact ⟨i', hi', ho, hp⟩
      · exact exists_carried version id _ ((Function.update_of_ne hj _ _).trans hi)

/-- The row itself says what the patch makes of it. -/
theorem updated_self (hx : rows id = some x) (hself : x.parent ≠ some id) :
    updated version id patch rows id = some { x with fields := Fields.patch x.fields patch } := by
  by_cases hf : Fields.patch x.fields patch = x.fields
  · rw [updated_of_same hx hf, hx, hf]
  · rw [updated_of_changed hx hf]
    exact carried_of_not_linked (Function.update_self ..) hself

/-- Where no row follows, the row itself is all that an update changes. -/
theorem updated_of_not_followed (hx : rows id = some x) (hself : x.parent ≠ some id)
    (hnone : ¬ Followed version id rows) : updated version id patch rows =
      Function.update rows id (some { x with fields := Fields.patch x.fields patch }) := by
  funext j
  by_cases hj : j = id
  · subst hj
    rw [updated_self hx hself, Function.update_self]
  rw [Function.update_of_ne hj]
  by_cases hf : Fields.patch x.fields patch = x.fields
  · rw [updated_of_same hx hf]
  rw [updated_of_changed hx hf]
  have hrow := Function.update_of_ne hj (some { x with fields := Fields.patch x.fields patch }) rows
  cases hi : rows j with
  | none => exact carried_of_none (hrow.trans hi)
  | some i =>
    by_cases hp : i.parent = some id
    · rw [carried_of_linked (hrow.trans hi) hp]
      exact congrArg some (if_neg fun hkeep => hnone ⟨j, i, hi, hp, hkeep⟩)
    · exact carried_of_not_linked (hrow.trans hi) hp

/-- An update has no row follow that did not follow before. -/
theorem followed_of_updated (hx : rows id = some x) (hself : x.parent ≠ some id)
    (h : Followed version id (updated version id patch rows)) : Followed version id rows := by
  by_contra hnone
  rw [updated_of_not_followed hx hself hnone] at h
  obtain ⟨j, i, hi, hp⟩ := h
  rw [Function.update_apply] at hi
  split at hi
  · cases hi
    exact hself hp.1
  · exact hnone ⟨j, i, hi, hp⟩

end

namespace Session

variable {s t u v w : Session} {id : ItemId} {limit limit' : Nat} {patch : Patch k} {x : Item k}
  {report : Cascade.Report}

/-- An update that succeeds leaves what it should. -/
theorem rewrites_update (hs : s.Sane) (hrun : s.run (Service.update limit id patch) = (.ok report, t)) :
    s.Rewrites t (updated s.versions id patch (s.store.bare? k)) := by
  cases updates_update hs limit id patch with
  | refused e h _ =>
    rw [h] at hrun
    cases hrun
  | same x hx same h =>
    rw [h] at hrun
    cases hrun
    rw [updated_of_same (Store.bare?_of_item? hx) same]
    exact .refl hs
  | carried x hx changed u written v report' cascaded h =>
    rw [h, Prod.mk.injEq, toResult_eq_ok_iff] at hrun
    obtain ⟨⟨rfl, hcomplete⟩, rfl⟩ := hrun
    have hrows := cascaded.complete hcomplete
    rw [written.rows] at hrows
    rw [updated_of_changed (Store.bare?_of_item? hx) changed, show x.bare.fields = x.fields from rfl,
      ← hrows]
    exact written.trans cascaded.rewrites

theorem valid_of_run_update (hs : s.Sane) (hrun : s.run (Service.update limit id patch) = (.ok report, t)) :
    Patch.fault? patch = none := by
  cases hx : s.store.item? k id with
  | none =>
    have h : s.run (Service.update limit id patch) = (.error (.notFound k id), s) :=
      run_bind_error (run_get_of_none hs.ordered hx) _
    rw [h] at hrun
    cases hrun
  | some x =>
    cases hf : Patch.fault? patch with
    | none => rfl
    | some e =>
      have h : s.run (Service.update limit id patch) = (.error (.invalidFields e), s) :=
        (run_bind_ok (run_get_of_some hs.ordered hx) _).trans
          (run_bind_error (run_patchRow_of_fault hf s limit id false) _)
      rw [h] at hrun
      cases hrun

/-- The row says what the patch makes of it. -/
theorem bare?_of_run_update (hs : s.Sane) (hx : s.store.bare? k id = some x)
    (hrun : s.run (Service.update limit id patch) = (.ok report, t)) :
    t.store.bare? k id = some { x with fields := Fields.patch x.fields patch } := by
  rw [(rewrites_update hs hrun).rows]
  refine updated_self hx ?_
  obtain ⟨y, hy, rfl⟩ := Store.bare?_eq_some_iff.1 hx
  exact hs.ordered.selfless (i := y) hy

/-- An update that changes no field leaves everything as it is. -/
theorem eq_of_run_update (hs : s.Sane) (hx : s.store.bare? k id = some x)
    (hf : Fields.patch x.fields patch = x.fields)
    (hrun : s.run (Service.update limit id patch) = (.ok report, t)) :
    t = s := by
  obtain ⟨y, hy, rfl⟩ := Store.bare?_eq_some_iff.1 hx
  have hvalid := valid_of_run_update hs hrun
  rw [Service.update, run_bind_ok (run_get_of_some hs.ordered hy),
    run_bind_ok (run_patchRow_of_same hs limit hy hvalid hf), if_pos rfl] at hrun
  exact (congrArg Prod.snd hrun).symm

/-- Where nothing is made to fail, a valid update of a stored row succeeds. -/
theorem run_update_of_valid (hs : s.Sane) (hcalm : s.store.failing = ∅) (limit : Nat)
    (hx : s.store.item? k id = some x) (hvalid : Patch.fault? patch = none) :
    ∃ report t, s.run (Service.update limit id patch) = (.ok report, t) := by
  cases updates_update hs limit id patch with
  | refused e h reason =>
    rcases reason with hnone | hfault | hfail
    · rw [hx] at hnone
      cases hnone
    · exact absurd hvalid hfault
    · exact absurd hcalm hfail
  | same x hx same h => exact ⟨_, _, h⟩
  | carried x hx changed u written v report' cascaded h =>
    have hcomplete := cascaded.calm (written.failing.trans hcalm)
    exact ⟨report', v, by rw [h, toResult_eq_ok_iff.2 ⟨rfl, hcomplete⟩]⟩

/-- What an update leaves to a program that it has overtaken. -/
theorem passes_update (ht : t.Sane) (hcalm : t.store.failing = ∅) (hnd : t.minted.Nodup)
    (hrun : t.run (Service.update limit id patch) = (.ok report, v)) : t.Passes v := by
  have hrewrites := rewrites_update ht hrun
  have hv : (t.run (Service.update limit id patch)).2 = v := by rw [hrun]
  have hcall := View.ends_call (View.good_view ht) (fun h => h) limit (.update (k := k) id patch)
  obtain ⟨w, hw, hleads, -⟩ := hcall.run (View.good_view ht) (View.recorded_view t)
    (show (t.run (Service.update limit id patch)).2.minted.Nodup by rw [hv, hrewrites.minted]; exact hnd)
  obtain rfl : w.session = v := hw.trans hv
  exact ⟨hrewrites.sane, hrewrites.failing.trans hcalm, hleads.scans⟩

/-- Every row stays where it is. -/
theorem exists_of_run_update (hs : s.Sane) {j : ItemId} {y : Item k} (hy : s.store.item? k j = some y)
    (hrun : s.run (Service.update limit id patch) = (.ok report, t)) :
    ∃ z : Item k, t.store.item? k j = some z ∧ z.owner = y.owner ∧ z.parent = y.parent := by
  obtain ⟨z, hz, ho, hp⟩ := exists_updated s.versions id patch (Store.bare?_of_item? hy)
  rw [← (rewrites_update hs hrun).rows] at hz
  obtain ⟨z', hz', rfl⟩ := Store.bare?_eq_some_iff.1 hz
  exact ⟨z', hz', ho, hp⟩

/-- An update that changes a field brings all counterparts up to date. -/
theorem resumes_update (ht : t.Sane) (hx : t.store.item? k id = some x)
    (hchanged : Fields.patch x.fields patch ≠ x.fields)
    (hrun : t.run (Service.update limit id patch) = (.ok report, v)) : t.Resumes v k id where
  sane := (rewrites_update ht hrun).sane
  registry := (rewrites_update ht hrun).registry
  caughtUp := (ht.caughtUp_update_iff hrun).2 (Or.inr ⟨x, hx, hchanged⟩)
  stored :=
    let ⟨o, ho, _⟩ := exists_of_run_update ht hx hrun
    ⟨o, ho⟩
  owners hz hy := by
    obtain ⟨z', hz', rfl⟩ := Store.bare?_eq_some_iff.1 hz
    obtain ⟨y', hy', ho, -⟩ := exists_of_run_update ht hz' hrun
    rw [hy, Option.some.injEq] at hy'
    exact hy' ▸ ho

/-! ## Gaps of an update -/

/-- An update that has read what the row said before, and patches it now. Unless the patched row says that
again, its counterparts are looked for; if it does, they are not, and none may follow. -/
theorem bare?_of_run_patch (hv : v.Sane) (hcalm : v.store.failing = ∅) (hvalid : Patch.fault? patch = none)
    {before y : Item k} (hresumes : t.Resumes v k before.id) (hy : v.store.item? k before.id = some y)
    (hother : Followed v.versions before.id (v.store.bare? k) → Fields.patch y.fields patch ≠ before.fields)
    {p : Program (Item k)}
    (hp : ∀ after u, v.run p = (.ok after, u) →
      v.run (Editing.modify limit before.id (Service.applyPatch patch false)) = (.ok after, u))
    (hrun : v.run (do
      let after ← p
      if after.fields = before.fields then return {}
      let report ← Cascade.update limit before after
      ofExcept report.toResult) = (.ok report, w)) :
    w.store.bare? k = updated v.versions before.id patch (v.store.bare? k) := by
  have hybare : v.store.bare? k before.id = some y.bare := Store.bare?_of_item? hy
  obtain ⟨after, u, hmodify, hrest⟩ := run_bind_eq_ok_iff.1 hrun
  have hpatch := hp after u hmodify
  rw [← patchRow_of_valid hvalid] at hpatch
  by_cases hf : Fields.patch y.fields patch = y.fields
  · -- the row says already what it should, and so do its counterparts
    rw [run_patchRow_of_same hv limit hy hvalid hf] at hpatch
    cases hpatch
    obtain rfl : v = w := by
      obtain ⟨report', hidle⟩ := hresumes.run_update limit y rfl
      split at hrest
      · exact congrArg Prod.snd hrest
      · rw [run_bind_ok hidle] at hrest
        exact congrArg Prod.snd hrest
    rw [updated_of_same hybare hf]
  · rcases outcome_patchRow hv limit hy hvalid hf with ⟨hfail, -⟩ | ⟨after', u', hpatch', hafter, hu⟩
    · exact absurd hcalm hfail
    rw [hpatch', Prod.mk.injEq, Except.ok.injEq] at hpatch
    obtain ⟨rfl, rfl⟩ := hpatch
    by_cases hback : Fields.patch y.fields patch = before.fields
    · -- the update takes what it has written for no change, and is done
      rw [if_pos (hafter.trans hback)] at hrest
      obtain rfl : u' = w := congrArg Prod.snd hrest
      rw [hu.rows, updated_of_not_followed hybare (hv.ordered.selfless (i := y) hy) fun h => hother h hback]
      rfl
    have hself := congrFun hu.rows before.id
    rw [Function.update_self] at hself
    obtain ⟨report', w', hcascade, hw⟩ := run_cascade_update hu.sane limit after' hself
    rw [if_neg (hafter ▸ hback), run_bind_ok hcascade] at hrest
    obtain rfl : w' = w := congrArg Prod.snd hrest
    rw [hw.complete (hw.calm (hu.failing.trans hcalm)), hu.versions, hu.rows, updated_of_changed hybare hf]
    rfl

/-- The row has not been written yet, or the change is being carried to its counterparts. -/
inductive Updating (s : Session) (limit : Nat) (x : Item k) (patch : Patch k) (p : Program Cascade.Report)
    (t : Session) : Prop
  | reading (same : t = s)
      (resume : ∀ v w y report, s.Passes v → s.Resumes v k x.id → v.store.item? k x.id = some y →
        (Followed v.versions x.id (v.store.bare? k) → Fields.patch y.fields patch ≠ x.fields) →
          v.run p = (.ok report, w) →
            ∃ report' w', v.run (Service.update limit x.id patch) = (.ok report', w') ∧
              w.store.bare? k = w'.store.bare? k)
  | carrying (valid : Patch.fault? patch = none) (u : Session)
      (changed : Fields.patch x.fields patch ≠ x.fields)
      (written : s.Rewrites u (Function.update (s.store.bare? k) x.id
        (some { x.bare with fields := Fields.patch x.fields patch })))
      (carried : u.Carrying t k x.id)
      (resume : ∀ q next, p = .ask q next → q.Heeds k x.id x.owner → ∀ v w report, t.Resumes v k x.id →
        v.run p = (.ok report, w) → w = v)

/-- The row is written, and the change is carried to its counterparts. -/
theorem throughout_carried (hcalm : s.store.failing = ∅) (limit : Nat) (hx : s.store.bare? k x.id = some x.bare)
    (hvalid : Patch.fault? patch = none) (hf : Fields.patch x.fields patch ≠ x.fields)
    (hapart : s.Apart k x.id x.owner) (hu : s.Rewrites u (Function.update (s.store.bare? k) x.id
      (some { x.bare with fields := Fields.patch x.fields patch }))) (after : Item k) :
    Throughout (Updating s limit x patch) (do
      let report ← Cascade.update limit x after
      ofExcept report.toResult) u := by
  have hself := congrFun hu.rows x.id
  rw [Function.update_self] at hself
  have hapart' : u.Apart k x.id x.owner := by
    intro j i hi hp
    rw [hu.rows, Function.update_apply] at hi
    split at hi
    · cases hi
      exact absurd rfl (hapart (i := x.bare) hx hp)
    · exact hapart hi hp
  refine Throughout.bind ((throughout_cascade hu.sane (hu.failing.trans hcalm) limit hself hapart').mono ?_)
    fun _ _ _ => True.intro
  rintro p t ⟨hcarried, hidle⟩
  refine .carrying hvalid u hf hu hcarried fun q next hq hheeds v w report hv hrun => ?_
  cases p with
  | done r => cases r <;> cases hq
  | ask q' next' =>
    injection hq with hq
    subst hq
    obtain ⟨report', hsame⟩ := hidle q' next' rfl hheeds v hv
    obtain ⟨report'', v', hcascade, hreport⟩ := run_bind_eq_ok_iff.1 hrun
    rw [hsame, Prod.mk.injEq] at hcascade
    exact (congrArg Prod.snd hreport).symm.trans hcascade.2.symm

/-- **An update that is overtaken.** -/
theorem throughout_update (hs : s.Sane) (hcalm : s.store.failing = ∅) (limit : Nat)
    (hx : s.store.item? k id = some x) (patch : Patch k) (hapart : s.Apart k id x.owner) :
    Throughout (Updating s limit x patch) (Service.update limit id patch) s := by
  obtain rfl : x.id = id := hs.ordered.id_of_item? hx
  have hxbare : s.store.bare? k x.id = some x.bare := Store.bare?_of_item? hx
  refine Throughout.bind (throughout_get (.reading rfl fun v w y report hv _ hy _ hrun => ?_))
    fun before t hget => ?_
  · exact ⟨report, w, hrun, rfl⟩
  rw [run_get_of_some hs.ordered hx] at hget
  obtain ⟨rfl, rfl⟩ := hget
  cases hvalid : Patch.fault? patch with
  | some e =>
    rw [Service.patchRow, hvalid]
    exact True.intro
  | none =>
    rw [patchRow_of_valid hvalid]
    refine Throughout.bind ((throughout_modify hs hcalm limit (sure_applyPatch patch false) hx).mono ?_) ?_
    · rintro p t ⟨rfl, -, hmodify⟩
      refine .reading rfl fun v w y report hv hresumes hy hother hrun => ?_
      have ho : y.owner = x.owner := hresumes.owners (z := x.bare) hxbare hy
      obtain ⟨report', w', hrun'⟩ := run_update_of_valid hv.sane hv.calm limit hy hvalid
      refine ⟨report', w', hrun', ?_⟩
      rw [(rewrites_update hv.sane hrun').rows]
      exact bare?_of_run_patch hv.sane hv.calm hvalid hresumes hy hother (hmodify v hv ⟨y, hy, ho⟩) hrun
    · intro after u hafter
      rw [← patchRow_of_valid hvalid] at hafter
      by_cases hf : Fields.patch x.fields patch = x.fields
      · rw [run_patchRow_of_same hs limit hx hvalid hf] at hafter
        cases hafter
        rw [if_pos rfl]
        exact True.intro
      rcases outcome_patchRow hs limit hx hvalid hf with ⟨hfail, -⟩ | ⟨after', u', hrun, hfields, hu⟩
      · exact absurd hcalm hfail
      rw [hrun, Prod.mk.injEq, Except.ok.injEq] at hafter
      obtain ⟨rfl, rfl⟩ := hafter
      rw [if_neg (hfields ▸ hf)]
      exact throughout_carried hcalm limit hxbare hvalid hf hapart hu after'

end Session

end ExampleOverlay
