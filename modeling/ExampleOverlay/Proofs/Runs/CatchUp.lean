import ExampleOverlay.Proofs.Runs.Cascades
import ExampleOverlay.Proofs.Runs.Integrity

/-!
# Counterparts that fell behind

A cascade that is kept from writing a counterpart leaves it behind: it still tracks its parent, but shows
what the parent said before. The next update that changes a field of the parent brings all such rows up to
date, however they fell behind. An update that changes no field is done before it looks at them, so sending
the update again that the cascade failed for succeeds and leaves them as they are.
-/

namespace ExampleOverlay.Session

open Program

variable {s t : Session} {k : Kind} {id : ItemId} {patch : Patch k}

/-- Every row that is linked to the row, was never customized and is of a plain example has the fields that
are stored for the row. -/
def CaughtUp (s : Session) (k : Kind) (id : ItemId) : Prop :=
  ∀ ⦃j : ItemId⦄ ⦃i o : Item k⦄, s.store.item? k j = some i → i.PristineOf s.versions id →
    s.store.item? k id = some o → i.fields = o.fields

theorem caughtUp_iff_bare : s.CaughtUp k id ↔ ∀ ⦃j : ItemId⦄ ⦃i o : Item k⦄, s.store.bare? k j = some i →
    i.PristineOf s.versions id → s.store.bare? k id = some o → i.fields = o.fields := by
  constructor
  · intro h j i o hi hp ho
    obtain ⟨x, hx, rfl⟩ := Store.bare?_eq_some_iff.1 hi
    obtain ⟨y, hy, rfl⟩ := Store.bare?_eq_some_iff.1 ho
    exact h (i := x) (o := y) hx hp hy
  · intro h j i o hi hp ho
    exact h (i := i.bare) (o := o.bare) (Store.bare?_of_item? hi) hp
      (Store.bare?_of_item? ho)

/-- A cascade that reached all counterparts has brought them up to date. -/
theorem Cascaded.caughtUp {o : Item k} {report : Cascade.Report}
    (h : s.Cascaded t id (Item.follow s.versions o.fields) report) (hcomplete : report.isComplete = true)
    (ho : s.store.bare? k id = some o) (hself : o.parent ≠ some id) : t.CaughtUp k id := by
  have hrows := h.complete hcomplete
  rw [caughtUp_iff_bare, h.rewrites.versions, hrows]
  intro j i o' hi hp ho'
  rw [carried_of_not_linked ho hself, Option.some.injEq] at ho'
  subst ho'
  cases hj : s.store.bare? k j with
  | none =>
    rw [carried_of_none hj] at hi
    cases hi
  | some x =>
    by_cases hx : x.parent = some id
    · rw [carried_of_linked hj hx, Item.follow, Option.some.injEq] at hi
      subst hi
      split
      · rfl
      next hkeep =>
        rw [if_neg hkeep] at hp
        exact absurd hp.2 hkeep
    · rw [carried_of_not_linked hj hx, Option.some.injEq] at hi
      subst hi
      exact absurd hp.1 hx

/-- **An update that changes a field brings all counterparts up to date**, and one that changes none leaves
them as they were. -/
theorem Sane.caughtUp_update_iff (hs : s.Sane) {limit : Nat} {report : Cascade.Report}
    (hrun : s.run (Service.update limit id patch) = (.ok report, t)) :
    t.CaughtUp k id ↔
      s.CaughtUp k id ∨ ∃ x : Item k, s.store.item? k id = some x ∧ Fields.patch x.fields patch ≠ x.fields := by
  cases updates_update hs limit id patch with
  | refused e h _ =>
    rw [h] at hrun
    cases hrun
  | same x hx same h =>
    rw [h] at hrun
    cases hrun
    refine ⟨Or.inl, fun hcases => hcases.resolve_right ?_⟩
    rintro ⟨y, hy, hchanged⟩
    rw [hx, Option.some.injEq] at hy
    exact hchanged (hy ▸ same)
  | carried x hx changed u written v report' cascaded h =>
    rw [h, Prod.mk.injEq, toResult_eq_ok_iff] at hrun
    obtain ⟨⟨rfl, hcomplete⟩, rfl⟩ := hrun
    have hself := congrFun written.rows id
    rw [Function.update_self] at hself
    have hparent : x.parent ≠ some id := hs.ordered.selfless hx
    rw [← written.versions] at cascaded
    exact ⟨fun _ => Or.inr ⟨x, hx, changed⟩, fun _ => cascaded.caughtUp hcomplete hself hparent⟩

/-- **When an update that succeeds leaves no counterpart behind.** In every session reached, with writes made
to fail and cleared at any time, an update that succeeds leaves every pristine counterpart with the fields
stored for the row if and only if they all had them before, or the update changes a field. -/
theorem reaches_caughtUp_update (registry : Registry) (supply : Nat → BitVec 128) (limit : Nat)
    (hs : (Session.start registry supply).Reaches limit (fun _ _ => True) s) (hnd : s.minted.Nodup)
    {report : Cascade.Report} (hrun : s.run (Service.update limit id patch) = (.ok report, t)) :
    t.CaughtUp k id ↔
      s.CaughtUp k id ∨ ∃ x : Item k, s.store.item? k id = some x ∧ Fields.patch x.fields patch ≠ x.fields :=
  (hs.sane (.start registry supply) hnd).caughtUp_update_iff hrun

/-- A header whose counterpart was kept from following an update, with nothing made to fail any more. -/
def lagging : Session :=
  (((((start {} fun n => BitVec.ofNat 128 (n + 1)).after 3
    (.call (.create (k := .header) ⟨100⟩ (KeyValue.ofPair "Accept" "text/html")))).after 3
    (.call (.deltaList (k := .header) ⟨101⟩ ⟨100⟩))).after 3
    (.aside (.failWrites ⟨2⟩))).after 3
    (.call (.update (k := .header) ⟨1⟩ { value := some "text/plain" }))).after 3
    (.aside .clearFailures)

theorem reaches_lagging :
    (start {} fun n => BitVec.ofNat 128 (n + 1)).Reaches 3 (fun _ _ => True) lagging :=
  ((((Reaches.refl.step _ True.intro).step _ True.intro).step _ True.intro).step _ True.intro).step _ True.intro

theorem not_caughtUp_lagging : ¬ lagging.CaughtUp .header ⟨1⟩ := fun h =>
  absurd (h (j := ⟨2⟩) rfl ⟨rfl, rfl, rfl⟩ rfl) (by decide)

/-- Another update brings the counterpart up to date. -/
theorem reaches_caughtUp_update_changing : ∃ t : Session, ¬ lagging.CaughtUp .header ⟨1⟩ ∧
    lagging.run (Service.update (k := .header) 3 ⟨1⟩ { value := some "text/css" }) =
      (.ok { updated := [⟨2⟩] }, t) ∧ t.CaughtUp .header ⟨1⟩ := by
  obtain ⟨t, hrun⟩ : ∃ t, lagging.run (Service.update (k := .header) 3 ⟨1⟩ { value := some "text/css" }) =
    (.ok { updated := [⟨2⟩] }, t) := ⟨_, rfl⟩
  have h := reaches_caughtUp_update {} _ 3 reaches_lagging (by decide) hrun
  exact ⟨t, not_caughtUp_lagging, hrun,
    h.2 (Or.inr ⟨Item.fresh ⟨1⟩ ⟨100⟩ (KeyValue.ofPair "Accept" "text/plain"), rfl, by decide⟩)⟩

/-- The same update again succeeds with an empty report, and leaves the counterpart behind. -/
theorem not_caughtUp_update_again : (start {} fun n => BitVec.ofNat 128 (n + 1)).Reaches 3 (fun _ _ => True)
    lagging ∧ lagging.minted = [⟨2⟩, ⟨1⟩] ∧
      lagging.run (Service.update (k := .header) 3 ⟨1⟩ { value := some "text/plain" }) = (.ok {}, lagging) ∧
        ¬ lagging.CaughtUp .header ⟨1⟩ :=
  ⟨reaches_lagging, by decide, rfl, not_caughtUp_lagging⟩

end ExampleOverlay.Session
