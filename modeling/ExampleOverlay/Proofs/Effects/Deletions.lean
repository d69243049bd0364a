import ExampleOverlay.Proofs.Crowds.Apart
import ExampleOverlay.Proofs.Effects.Carrying

/-!
# What a deletion of an origin's row does

A deletion takes the row out of its list and is carried to the counterparts: those in versions lose their link, the
others are taken out of their lists, unless they are pinned. Taking one out relinks the rows next to it, which may be
counterparts yet to be taken out. But a row that can be taken out stands between rows that can be written, so the rows
it stood between are next to a failing row afterwards if and only if they were before (`Session.Stays`): who is pinned
is settled when the cascade starts, and the outcome is the same in whatever order the counterparts are taken
(`Session.Withdrawn`).
-/

namespace ExampleOverlay

open Chain Program

variable {k : Kind}

namespace Service

/-- Deletes a row, its counterparts taken in the order that `arrange` puts them into. -/
def deleteIn (arrange : List (Item k) → List (Item k)) (limit : Nat) (id : ItemId) : Program Cascade.Report := do
  let removed ← Editing.remove limit k id
  let report ← Cascade.carryIn arrange removed.id fun version row => Cascade.deleteOne limit removed version row
  ofExcept report.toResult

theorem deleteIn_id (limit : Nat) (id : ItemId) :
    deleteIn (fun rows : List (Item k) => rows) limit id = delete limit k id := rfl

end Service

namespace Session

open Cascade

variable {s t u : Session} {id : ItemId} {x row i i' i'' : Item k} {taken : List (Item k)} {report : Report}

/-! ## The counterparts -/

/-- What comes of a counterpart when its parent is deleted, none if it cannot be written: in a version it is detached,
and elsewhere it is deleted. -/
def deleteVerdict (s : Session) (i : Item k) : Option Outcome :=
  if s.versions i.owner then if i.id ∈ s.store.failing then none else some .detached
  else if s.store.Pinned i then none else some .deleted

/-- What is left of a counterpart, its place aside, when its parent was deleted. -/
def survivor (s : Session) (i : Item k) : Option (Item k) :=
  match s.deleteVerdict i with
  | some .deleted => none
  | some .detached => some { i with parent := none }
  | _ => some i

theorem deleteVerdict_of_version (h : s.versions i.owner = true) :
    s.deleteVerdict i = if i.id ∈ s.store.failing then none else some .detached := if_pos h

theorem deleteVerdict_of_plain (h : s.versions i.owner = false) :
    s.deleteVerdict i = if s.store.Pinned i then none else some .deleted := if_neg (by simp [h])

theorem survivor_of_failed (hdel : s.deleteVerdict i ≠ some .deleted) (hdet : s.deleteVerdict i ≠ some .detached) :
    s.survivor i = some i := by
  unfold survivor
  split
  next h => exact absurd h hdel
  next h => exact absurd h hdet
  next => rfl

theorem Thins.pinned_iff (h : s.Thins k t) (i : Item k) : t.store.Pinned i ↔ s.store.Pinned i := by
  rw [Store.Pinned, Store.Pinned, h.failing]

theorem Thins.deleteVerdict_eq (h : s.Thins k t) : t.deleteVerdict (k := k) = s.deleteVerdict := by
  funext i
  simp only [deleteVerdict, h.versions, h.failing, h.pinned_iff]

theorem Thins.survivor_eq (h : s.Thins k t) : t.survivor (k := k) = s.survivor := by
  funext i
  rw [survivor, survivor, h.deleteVerdict_eq]

/-! ## Where the others stand -/

/-- A row is next to a failing row on the side where it was, and it stands where it stood if it is of a version. -/
structure Stays (s : Session) (i i' : Item k) : Prop where
  id : i'.id = i.id
  owner : i'.owner = i.owner
  prev : (∃ j ∈ i'.prev, j ∈ s.store.failing) ↔ ∃ j ∈ i.prev, j ∈ s.store.failing
  next : (∃ j ∈ i'.next, j ∈ s.store.failing) ↔ ∃ j ∈ i.next, j ∈ s.store.failing
  place : s.versions i.owner = true → i'.prev = i.prev ∧ i'.next = i.next

theorem Stays.of_place (hid : i'.id = i.id) (ho : i'.owner = i.owner) (hprev : i'.prev = i.prev)
    (hnext : i'.next = i.next) : s.Stays i i' := ⟨hid, ho, by rw [hprev], by rw [hnext], fun _ => ⟨hprev, hnext⟩⟩

theorem Stays.refl (s : Session) (i : Item k) : s.Stays i i := .of_place rfl rfl rfl rfl

theorem Stays.trans (h : s.Stays i i') (h' : s.Stays i' i'') : s.Stays i i'' where
  id := h'.id.trans h.id
  owner := h'.owner.trans h.owner
  prev := h'.prev.trans h.prev
  next := h'.next.trans h.next
  place hv := by
    obtain ⟨hprev, hnext⟩ := h.place hv
    obtain ⟨hprev', hnext'⟩ := h'.place (h.owner ▸ hv)
    exact ⟨hprev'.trans hprev, hnext'.trans hnext⟩

theorem Stays.pinned_iff (h : s.Stays i i') : s.store.Pinned i' ↔ s.store.Pinned i := by
  rw [Store.Pinned, Store.Pinned, h.id, h.prev, h.next]

/-- Taking out a row that is not pinned puts no row next to a failing one, nor takes it away from one. -/
theorem stays_past (hfree : ¬ s.store.Pinned x) (hv : s.versions x.owner = false) (i : Item k) :
    s.Stays i (if i.owner = x.owner then x.past i else i) := by
  simp only [Store.Pinned, not_or] at hfree
  obtain ⟨hself, hprev, hnext⟩ := hfree
  split
  next ho =>
    refine ⟨rfl, rfl, ?_, ?_, fun h => absurd (ho ▸ h) (by simp [hv])⟩
    · show (∃ j ∈ (if i.prev = some x.id then x.prev else i.prev), j ∈ s.store.failing) ↔ _
      split
      next hx => exact iff_of_false hprev (by simp [hx, hself])
      next => rfl
    · show (∃ j ∈ (if i.next = some x.id then x.next else i.next), j ∈ s.store.failing) ↔ _
      split
      next hx => exact iff_of_false hnext (by simp [hx, hself])
      next => rfl
  next => exact .refl s i

/-! ## Carrying a deletion -/

/-- How the rows stand when a deletion was carried to those in `taken`. -/
structure Withdraws (s : Session) (taken : List (Item k)) (u : Session) : Prop where
  thins : s.Thins k u
  rows : ∀ j, u.store.bare? k j = (carriedTo taken s.survivor (s.store.item? k) j).map Item.bare
  stays : ∀ {j} {i i' : Item k}, s.store.item? k j = some i → u.store.item? k j = some i' → s.Stays i i'

theorem Withdraws.nil (hs : s.Sane) : s.Withdraws ([] : List (Item k)) s where
  thins := .refl hs
  rows j := by rw [carriedTo_nil]; rfl
  stays hi hi' := by
    obtain rfl := Option.some.inj (hi.symm.trans hi')
    exact .refl s _

/-- One more row was taken. -/
theorem Withdraws.concat (h : s.Withdraws taken u) (hs : s.Sane) (hrow : s.store.item? k row.id = some row)
    (ht : u.Thins k t)
    (hrows : ∀ j, t.store.bare? k j = if j = row.id then (s.survivor row).map Item.bare else u.store.bare? k j)
    (hstays : ∀ {j} {i i' : Item k}, u.store.item? k j = some i → t.store.item? k j = some i' → s.Stays i i') :
    s.Withdraws (taken ++ [row]) t where
  thins := h.thins.trans ht
  rows j := by
    rw [hrows, carriedTo_concat hs.ordered.id_of_item? hrow, h.rows]
    split <;> rfl
  stays hi hi' := by
    obtain ⟨y, hy, -⟩ := ht.owners hi'
    exact (h.stays hi hy).trans (hstays hy hi')

/-- A row that could not be written is as it was. -/
theorem Withdraws.refused (h : s.Withdraws taken u) (hs : s.Sane) (hrow : s.store.item? k row.id = some row)
    (hbare : u.store.bare? k row.id = some row.bare) (hv : s.deleteVerdict row = none) :
    s.Withdraws (taken ++ [row]) u := by
  refine h.concat hs hrow (.refl h.thins.sane) (fun j => ?_) fun hi hi' => ?_
  · split
    next hj => rw [hj, hbare, survivor, hv]; rfl
    next => rfl
  · obtain rfl := Option.some.inj (hi.symm.trans hi')
    exact .refl s _

/-- A row has lost its link. -/
theorem Withdraws.detach (h : s.Withdraws taken u) (hs : s.Sane) (hrow : s.store.item? k row.id = some row)
    {y : Item k} (hy : u.store.item? k row.id = some y) (hyrow : y.bare = row.bare)
    (hv : s.deleteVerdict row = some .detached) (ht : u.Thins k t)
    (hrows : ∀ j, t.store.item? k j = if j = row.id then some { y with parent := none } else u.store.item? k j) :
    s.Withdraws (taken ++ [row]) t := by
  refine h.concat hs hrow ht (fun j => ?_) fun {j i i'} hi hi' => ?_
  · rw [Store.bare?, hrows, survivor, hv]
    split
    next =>
      show some { y.bare with parent := none } = some { row.bare with parent := none }
      rw [hyrow]
    next => rfl
  · rw [hrows] at hi'
    split at hi'
    next hj =>
      obtain rfl := Option.some.inj (hy.symm.trans (hj ▸ hi))
      obtain rfl := Option.some.inj hi'
      exact .of_place rfl rfl rfl rfl
    next =>
      obtain rfl := Option.some.inj (hi.symm.trans hi')
      exact .refl s _

/-- A row that was not pinned has been taken out. -/
theorem Withdraws.remove (h : s.Withdraws taken u) (hs : s.Sane) (hrow : s.store.item? k row.id = some row)
    {y : Item k} (hplain : s.versions y.owner = false) (hfree : ¬ s.store.Pinned y)
    (hv : s.deleteVerdict row = some .deleted) (ht : u.Thins k t)
    (hrows : ∀ j, t.store.item? k j = if j = row.id then none
      else (u.store.item? k j).map fun i => if i.owner = y.owner then y.past i else i) :
    s.Withdraws (taken ++ [row]) t := by
  refine h.concat hs hrow ht (fun j => ?_) fun {j i i'} hi hi' => ?_
  · rw [Store.bare?, hrows, survivor, hv]
    split
    next => rfl
    next =>
      rw [Store.bare?, Option.map_map]
      refine congrArg (fun f => Option.map f (u.store.item? k j)) (funext fun i => ?_)
      simp only [Function.comp_apply]
      split <;> rfl
  · rw [hrows] at hi'
    split at hi'
    next => cases hi'
    next =>
      rw [hi, Option.map_some, Option.some.injEq] at hi'
      rw [← hi']
      exact stays_past hfree hplain i

/-- **One counterpart of a deletion** comes to what was settled for it. -/
theorem comesTo_deleteOne (hs : s.Sane) (h : s.Withdraws taken u) (hnew : row ∉ taken)
    (hrow : s.store.item? k row.id = some row) (limit : Nat) {origin : Item k} (hp : row.parent = some origin.id) :
    ∃ t, u.ComesTo (deleteOne limit origin (s.versions row.owner) row) (s.deleteVerdict row) t ∧
      s.Withdraws (taken ++ [row]) t := by
  have hbare : u.store.bare? k row.id = some row.bare := by
    rw [h.rows, carriedTo_of_not_mem hrow hnew]
    rfl
  obtain ⟨y, hy, hyrow⟩ := Store.bare?_eq_some_iff.1 hbare
  obtain ⟨-, ho, hparent, -, -⟩ := Item.bare_eq_iff.1 hyrow
  rw [deleteOne_eq limit hp]
  cases hv : s.versions row.owner with
  | true =>
    have hverdict := deleteVerdict_of_version hv
    rw [if_pos rfl]
    rcases thins_modify h.thins.sane limit (sure_clearLink origin.id) hy (clearLink_of_linked (hparent.trans hp)) with
      ⟨hfail, e, hmodify⟩ | ⟨hfree, t, hmodify, ht, hrows⟩
    · rw [if_pos (h.thins.failing ▸ hfail)] at hverdict
      rw [hverdict]
      exact ⟨u, .refused (run_bind_error hmodify _), h.refused hs hrow hbare hverdict⟩
    · rw [if_neg (h.thins.failing ▸ hfree)] at hverdict
      rw [hverdict]
      exact ⟨t, .told (run_bind_ok hmodify _), h.detach hs hrow hy hyrow hverdict ht hrows⟩
  | false =>
    have hverdict := deleteVerdict_of_plain hv
    -- rows next to it may have been taken out by now, but it is pinned only if it was at the start
    have hpinned : u.store.Pinned y ↔ s.store.Pinned row :=
      (h.thins.pinned_iff y).trans (h.stays hrow hy).pinned_iff
    rw [if_neg (by simp)]
    rcases thins_remove h.thins.sane limit hy with ⟨hfail, e, hremove⟩ | ⟨hfree, t, hremove, ht, hrows⟩
    · rw [if_pos (hpinned.1 hfail)] at hverdict
      rw [hverdict]
      exact ⟨u, .refused (run_bind_error hremove _), h.refused hs hrow hbare hverdict⟩
    · rw [if_neg (mt hpinned.2 hfree)] at hverdict
      rw [hverdict]
      exact ⟨t, .told (run_bind_ok hremove _),
        h.remove hs hrow (ho ▸ hv) (mt (h.thins.pinned_iff y).2 hfree) hverdict ht hrows⟩

/-- **Carrying a deletion** to all counterparts of a row. -/
theorem run_carryIn_delete (hs : s.Sane) {arrange : List (Item k) → List (Item k)}
    (harrange : ∀ rows, (arrange rows).Perm rows) (limit : Nat) (origin : Item k) :
    ∃ report t order, s.run (carryIn arrange origin.id fun version row => deleteOne limit origin version row) =
        (.ok report, t) ∧
      report.Settles (s.store.item? k) origin.id s.deleteVerdict ∧ s.Withdraws order t ∧
      carriedTo order s.survivor (s.store.item? k) = carried origin.id s.survivor (s.store.item? k) := by
  obtain ⟨report, t, order, hrun, hsettles, ht, hmem⟩ := run_carryIn hs harrange origin.id
    (fun version row => deleteOne limit origin version row) s.deleteVerdict (fun taken u => s.Withdraws taken u)
    (.nil hs) fun hnew hrow hp h => comesTo_deleteOne hs h hnew hrow limit hp
  exact ⟨report, t, order, hrun, hsettles, ht, carriedTo_eq_carried hs.ordered.id_of_item? hmem⟩

/-! ## The deletion -/

/-- A row was deleted, and its counterparts as `report` tells: the rows told of as deleted are gone, those told of as
detached have lost their link, and all others say what they said. Every list has the rows that are left in the order
they had. -/
structure Withdrawn (s t : Session) (x : Item k) (report : Report) : Prop where
  settles : report.Settles (s.store.item? k) x.id s.deleteVerdict
  only : report.updated = [] ∧ report.skipped = []
  gone : ∀ id, id = x.id ∨ id ∈ report.deleted → t.store.item? k id = none
  detached : ∀ id ∈ report.detached, t.store.item? k id = (s.store.item? k id).map fun i => { i with parent := none }
  kept : ∀ id, id ≠ x.id → id ∉ report.deleted → id ∉ report.detached → t.store.bare? k id = s.store.bare? k id
  lists : ∀ owner, ∃ c c' : Chain k, s.store.chain k owner = .ok c ∧ t.store.chain k owner = .ok c' ∧
    c'.ids = c.ids.filter fun id => id ≠ x.id ∧ id ∉ report.deleted
  thins : s.Thins k t

/-- The counterparts of a row are not moved when it is taken out: they are of other examples. -/
theorem item?_eq_some_iff_of_removed (hs : s.Sane) (hapart : s.store.Apart k) (hx : s.store.item? k x.id = some x)
    (hrows : ∀ j, u.store.item? k j = if j = x.id then none
      else (s.store.item? k j).map fun i => if i.owner = x.owner then x.past i else i)
    {j : ItemId} {i : Item k} (hp : i.parent = some x.id) : u.store.item? k j = some i ↔ s.store.item? k j = some i := by
  rw [hrows]
  split
  next hj =>
    subst hj
    refine iff_of_false (by simp) fun hi => ?_
    obtain rfl := Option.some.inj (hx.symm.trans hi)
    exact hs.ordered.selfless hx hp
  next =>
    constructor
    · intro hi
      obtain ⟨y, hy, hyi⟩ := Option.map_eq_some_iff.1 hi
      split at hyi
      next ho =>
        have hparent : y.parent = some x.id := by rw [← hp, ← hyi]; rfl
        exact absurd ho.symm (hapart hy hparent hx)
      next => rw [hy, hyi]
    · intro hi
      rw [hi, Option.map_some, if_neg fun ho => hapart hi hp hx ho.symm]

/-- What the rows say when a row that is not pinned was deleted, and that the rows of versions linked to it stand where
they stood. -/
theorem thins_delete (hs : s.Sane) (hapart : s.store.Apart k) {arrange : List (Item k) → List (Item k)}
    (harrange : ∀ rows, (arrange rows).Perm rows) (limit : Nat) (hx : s.store.item? k x.id = some x)
    (hfree : ¬ s.store.Pinned x) :
    ∃ (report : Report) (t : Session), s.run (Service.deleteIn arrange limit x.id) = (report.toResult, t) ∧
      report.Settles (s.store.item? k) x.id s.deleteVerdict ∧ s.Thins k t ∧
      (∀ j, t.store.bare? k j =
        if j = x.id then none else (carried x.id s.survivor (s.store.item? k) j).map Item.bare) ∧
      ∀ {j} {i i' : Item k}, s.store.item? k j = some i → i.parent = some x.id → t.store.item? k j = some i' →
        s.versions i.owner = true → i'.prev = i.prev ∧ i'.next = i.next := by
  obtain ⟨-, u, hremove, hu, hurows⟩ := (thins_remove hs limit hx).resolve_left fun h => hfree h.1
  obtain ⟨report, t, order, hcarry, hsettles, ht, horder⟩ := run_carryIn_delete hu.sane harrange limit x
  have hlinked : ∀ {j i}, i.parent = some x.id → (u.store.item? k j = some i ↔ s.store.item? k j = some i) :=
    item?_eq_some_iff_of_removed hs hapart hx hurows
  rw [hu.deleteVerdict_eq] at hsettles
  refine ⟨report, t, ?_, hsettles.of_rows hlinked, hu.trans ht.thins, fun j => ?_, fun {j i i'} hi hp hi' hv => ?_⟩
  · rw [Service.deleteIn, run_bind_ok hremove, run_bind_ok hcarry]
    rfl
  · rw [ht.rows, horder, hu.survivor_eq, carried, carried]
    by_cases hj : j = x.id
    · rw [if_pos hj, hurows, if_pos hj]
      rfl
    rw [if_neg hj]
    cases hi : s.store.item? k j with
    | none =>
      rw [hurows, if_neg hj, hi]
      rfl
    | some i =>
      by_cases hp : i.parent = some x.id
      · rw [(hlinked hp).2 hi]
      · rw [hurows, if_neg hj, hi, Option.map_some, Option.bind_some, Option.bind_some, if_neg hp]
        split
        next =>
          rw [if_neg (show (x.past i).parent ≠ some x.id from hp)]
          rfl
        next => rfl
  · rw [← hu.versions] at hv
    exact (ht.stays ((hlinked hp).2 hi) hi').place hv

/-- **Deleting a row** that is not pinned. -/
theorem withdrawn_delete (hs : s.Sane) (hapart : s.store.Apart k) {arrange : List (Item k) → List (Item k)}
    (harrange : ∀ rows, (arrange rows).Perm rows) (limit : Nat) (hx : s.store.item? k id = some x)
    (hfree : ¬ s.store.Pinned x) :
    ∃ report t, s.run (Service.deleteIn arrange limit id) =
        (if report.failed = [] then .ok report else .error (.cascadeIncomplete report), t) ∧
      s.Withdrawn t x report := by
  obtain rfl : x.id = id := hs.ordered.id_of_item? hx
  obtain ⟨report, t, hrun, hsettles, ht, hrows, hplace⟩ := thins_delete hs hapart harrange limit hx hfree
  have hself : ∀ {i}, s.store.item? k x.id = some i → i.parent ≠ some x.id := hs.ordered.selfless
  have hgone : ∀ j, j = x.id ∨ j ∈ report.deleted → t.store.item? k j = none := by
    rintro j hj
    rw [← Store.bare?_eq_none_iff, hrows]
    by_cases he : j = x.id
    · rw [if_pos he]
    obtain ⟨i, hi, hp, hv⟩ := (hsettles.mem j (some .deleted)).1 (hj.resolve_left he)
    rw [if_neg he, carried_of_linked hi hp, survivor, hv]
    rfl
  have hdetached : ∀ j ∈ report.detached,
      t.store.item? k j = (s.store.item? k j).map fun i => { i with parent := none } := by
    intro j hj
    obtain ⟨i, hi, hp, hv⟩ := (hsettles.mem j (some .detached)).1 hj
    have hversion : s.versions i.owner = true := by
      by_contra h
      rw [deleteVerdict_of_plain (by simpa using h)] at hv
      split at hv <;> cases hv
    have hne : j ≠ x.id := by
      rintro rfl
      exact hself hi hp
    have hbare := hrows j
    rw [if_neg hne, carried_of_linked hi hp, survivor, hv] at hbare
    obtain ⟨i', hi', hsame⟩ := Store.bare?_eq_some_iff.1 hbare
    obtain ⟨hprev, hnext⟩ := hplace hi hp hi' hversion
    rw [hi', hi, Option.map_some, Option.some.injEq]
    exact Item.eq_of_bare_eq hsame hprev hnext
  have hkept : ∀ j, j ≠ x.id → j ∉ report.deleted → j ∉ report.detached → t.store.bare? k j = s.store.bare? k j := by
    intro j hne hdel hdet
    rw [hrows, if_neg hne]
    cases hi : s.store.item? k j with
    | none => rw [carried_of_none hi, Store.bare?, hi]
    | some i =>
      rw [Store.bare?_of_item? hi]
      by_cases hp : i.parent = some x.id
      · have hmem := hsettles.mem_iff hi
        rw [carried_of_linked hi hp, survivor_of_failed (fun hv => hdel ((hmem (some .deleted)).2 ⟨hp, hv⟩))
          fun hv => hdet ((hmem (some .detached)).2 ⟨hp, hv⟩)]
        rfl
      · rw [carried_of_not_linked hi hp]
        rfl
  refine ⟨report, t, by rw [hrun, Report.toResult_eq], hsettles,
    ⟨hsettles.told_eq_nil (some .updated) fun i => ?_, hsettles.told_eq_nil (some .skipped) fun i => ?_⟩, hgone, hdetached, hkept,
    ht.chain_filter hs fun {j i} hi => ?_, ht⟩
  · unfold deleteVerdict
    split_ifs <;> simp
  · unfold deleteVerdict
    split_ifs <;> simp
  · by_cases hj : j = x.id ∨ j ∈ report.deleted
    · rw [hgone j hj, decide_eq_false fun h => hj.elim h.1 h.2]
      rfl
    obtain ⟨hne, hdel⟩ := not_or.1 hj
    rw [decide_eq_true ⟨hne, hdel⟩]
    by_cases hdet : j ∈ report.detached
    · rw [hdetached j hdet, hi]
      rfl
    · have hbare := hkept j hne hdel hdet
      rw [Store.bare?_of_item? hi] at hbare
      obtain ⟨i', hi', -⟩ := Store.bare?_eq_some_iff.1 hbare
      rw [hi']
      rfl

/-- **The order of the counterparts does not matter**: whatever it was, the same rows are left in the same places. -/
theorem Withdrawn.item?_eq {t' : Session} {report' : Report} (h : s.Withdrawn t x report)
    (h' : s.Withdrawn t' x report') : t'.store.item? k = t.store.item? k := by
  have hdeleted : ∀ j, j ∈ report'.deleted ↔ j ∈ report.deleted := fun j =>
    (h'.settles.mem j (some .deleted)).trans (h.settles.mem j (some .deleted)).symm
  have hdetached : ∀ j, j ∈ report'.detached ↔ j ∈ report.detached := fun j =>
    (h'.settles.mem j (some .detached)).trans (h.settles.mem j (some .detached)).symm
  refine h.thins.sane.ordered.item?_eq_of_ids h'.thins.sane.ordered (funext fun j => ?_) fun {owner _ _} hl hl' => ?_
  · by_cases hgone : j = x.id ∨ j ∈ report.deleted
    · rw [Store.bare?, Store.bare?, h.gone j hgone, h'.gone j (hgone.imp_right (hdeleted j).2)]
    obtain ⟨hne, hdel⟩ := not_or.1 hgone
    by_cases hdet : j ∈ report.detached
    · rw [Store.bare?, Store.bare?, h.detached j hdet, h'.detached j ((hdetached j).2 hdet)]
    · rw [h.kept j hne hdel hdet, h'.kept j hne (mt (hdeleted j).1 hdel) (mt (hdetached j).1 hdet)]
  · obtain ⟨c, c₁, hc, hc₁, hids⟩ := h.lists owner
    obtain ⟨c', c₂, hc', hc₂, hids'⟩ := h'.lists owner
    obtain rfl := Except.ok.inj ((hl.chain_eq h.thins.sane.ordered.sound).symm.trans hc₁)
    obtain rfl := Except.ok.inj ((hl'.chain_eq h'.thins.sane.ordered.sound).symm.trans hc₂)
    obtain rfl := Except.ok.inj (hc.symm.trans hc')
    exact hids'.trans ((List.filter_congr fun j _ => by simp [hdeleted]).trans hids.symm)

end Session

namespace Crowd

/-- **The effect of a deletion.** Whatever any number of clients have done over an empty store, with calls still in
progress and any rows made to fail, a client deletes a row that is not pinned, alone, and its counterparts are taken
in any order. The row is gone and its counterparts are withdrawn as the report tells; a report that tells of failures
is an error. -/
theorem reaches_withdrawn (registry : Registry) (supply : Nat → BitVec 128) (limit : Nat) {c : Crowd (Call.task limit)}
    (hc : Crowd.Reaches (fun _ _ => True) { session := Session.start registry supply } c)
    (hnd : c.session.minted.Nodup) {k : Kind} {id : ItemId} {x : Item k} (hx : c.session.store.item? k id = some x)
    (hfree : ¬ c.session.store.Pinned x) {arrange : List (Item k) → List (Item k)}
    (harrange : ∀ rows, (arrange rows).Perm rows) :
    ∃ report t, c.session.run (Service.deleteIn arrange limit id) =
        (if report.failed = [] then .ok report else .error (.cascadeIncomplete report), t) ∧
      c.session.Withdrawn t x report :=
  Session.withdrawn_delete (hc.sane hnd) (hc.apart hnd k) harrange limit hx hfree

/-- A header has three counterparts in a row in a delta, before a header that was made to fail, and two in a version,
the second of which was made to fail. -/
def lastStand : Crowd (Call.task 2) := [
    .start ⟨.header, .create ⟨100⟩ (KeyValue.ofPair "Accept" "a")⟩, .access 0, .access 0, .access 0,
    .start ⟨.header, .deltaList ⟨101⟩ ⟨100⟩⟩, .access 1, .access 1, .access 1, .access 1, .access 1, .access 1,
    .start ⟨.header, .deltaCreate ⟨101⟩ (some ⟨100⟩) (some ⟨1⟩) (KeyValue.ofPair "Accept" "b")⟩,
    .access 2, .access 2, .access 2, .access 2,
    .start ⟨.header, .deltaCreate ⟨101⟩ (some ⟨100⟩) (some ⟨1⟩) (KeyValue.ofPair "Accept" "c")⟩,
    .access 3, .access 3, .access 3, .access 3,
    .start ⟨.header, .create ⟨101⟩ (KeyValue.ofPair "Via" "d")⟩, .access 4, .access 4, .access 4,
    .aside (.registerVersion ⟨103⟩ ⟨100⟩),
    .start ⟨.header, .deltaList ⟨103⟩ ⟨100⟩⟩, .access 5, .access 5, .access 5, .access 5, .access 5, .access 5,
    .start ⟨.header, .deltaCreate ⟨103⟩ (some ⟨100⟩) (some ⟨1⟩) (KeyValue.ofPair "Accept" "e")⟩,
    .access 6, .access 6, .access 6, .access 6,
    .start ⟨.header, .create ⟨100⟩ (KeyValue.ofPair "Host" "f")⟩, .access 7, .access 7, .access 7,
    .aside (.failWrites ⟨5⟩), .aside (.failWrites ⟨7⟩),
    .start ⟨.header, .update ⟨1⟩ { value := some "g" }⟩, .access 8].foldl after
  { session := Session.start {} fun n => BitVec.ofNat 128 (n + 1) }

/-- The last of the three is pinned before and after the others are taken out. -/
theorem reaches_withdrawn_lastStand :
    ∃ report t, lastStand.session.run (Service.deleteIn (k := .header) List.reverse 2 ⟨1⟩) =
        (.error (.cascadeIncomplete report), t) ∧
      report.deleted = [⟨3⟩, ⟨2⟩] ∧ report.detached = [⟨6⟩] ∧ report.failed.map (·.id) = [⟨7⟩, ⟨4⟩] ∧
      lastStand.session.Withdrawn t
        (⟨⟨1⟩, ⟨100⟩, none, none, some ⟨8⟩, KeyValue.ofPair "Accept" "a", false⟩ : Item .header) report := by
  have hreach : Crowd.Reaches (fun _ _ => True)
      { session := Session.start {} fun n => BitVec.ofNat 128 (n + 1) } lastStand :=
    .foldl _ .refl fun _ _ _ => True.intro
  have hnd : lastStand.session.minted.Nodup := by decide +kernel
  have hx : lastStand.session.store.item? .header ⟨1⟩ =
      some ⟨⟨1⟩, ⟨100⟩, none, none, some ⟨8⟩, KeyValue.ofPair "Accept" "a", false⟩ := by decide +kernel
  obtain ⟨report, t, hrun, h⟩ :=
    reaches_withdrawn {} _ 2 hreach hnd hx (by decide +kernel) fun rows => rows.reverse_perm
  have htold : (lastStand.session.run (Service.deleteIn (k := .header) List.reverse 2 ⟨1⟩)).1 =
      .error (.cascadeIncomplete ⟨[], [⟨3⟩, ⟨2⟩], [⟨6⟩], [], [
        ⟨⟨7⟩, ⟨103⟩, "store error: backend error: injected write failure for row 00000000000000000000000007"⟩,
        ⟨⟨4⟩, ⟨101⟩, "store error: backend error: injected write failure for row 00000000000000000000000005"⟩]⟩) := by
    decide +kernel
  rw [hrun] at htold ⊢
  split at htold
  next => cases htold
  next hfailed =>
    rw [if_neg hfailed]
    cases htold
    exact ⟨_, t, rfl, rfl, rfl, rfl, h⟩

end Crowd

end ExampleOverlay
