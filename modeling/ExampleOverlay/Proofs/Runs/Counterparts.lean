import ExampleOverlay.Proofs.Runs.Cascades

/-!
# Counterparts that show their parents

Where origin examples are only edited as origins and delta examples only as deltas of them, a linked row
that is not overridden shows the fields of a stored row of an origin, unless its example is a version.
Values are never compared with the parent's: what makes rows show them is that every change of a row of an
origin is carried to all of its counterparts before the call ends.

While a change is carried its counterparts may be behind. They are *excused* until the cascade is done.
-/

namespace ExampleOverlay

open Chain Program

variable {k : Kind}

/-! ## Rows -/

/-- If the row is linked, then to a row of an origin, and it shows the fields of that row unless it is
overridden or of a version. -/
def Follows (O : ExampleId → Prop) (version : ExampleId → Bool) (rows : ItemId → Option (Item k))
    (i : Item k) : Prop :=
  ∀ p, i.parent = some p → ∃ o, rows p = some o ∧ O o.owner ∧
    (i.overridden = true ∨ version i.owner = true ∨ i.fields = o.fields)

namespace Follows

variable {O : ExampleId → Prop} {version version' : ExampleId → Bool} {rows rows' : ItemId → Option (Item k)}
  {i : Item k}

theorem of_unlinked (h : i.parent = none) : Follows O version rows i := by
  intro p hp
  rw [h] at hp
  cases hp

theorem of_parent {p : ItemId} {o : Item k} (hp : i.parent = some p) (ho : rows p = some o) (hO : O o.owner)
    (hf : i.overridden = true ∨ version i.owner = true ∨ i.fields = o.fields) : Follows O version rows i := by
  intro q hq
  rw [hp, Option.some.injEq] at hq
  subst hq
  exact ⟨o, ho, hO, hf⟩

theorem mono (h : Follows O version rows i) (hv : version i.owner = true → version' i.owner = true)
    (hrows : ∀ {p o}, i.parent = some p → rows p = some o → O o.owner → rows' p = some o) :
    Follows O version' rows' i := by
  intro p hp
  obtain ⟨o, ho, hO, hf⟩ := h p hp
  exact ⟨o, hrows hp ho hO, hO, hf.imp_right (Or.imp_left hv)⟩

end Follows

/-- The row of an id is linked to `p`. -/
def LinkedTo (p : ItemId) (rows : ItemId → Option (Item k)) (j : ItemId) : Prop :=
  ∃ i, rows j = some i ∧ i.parent = some p

/-- Rows of origins are linked to nothing, and rows of deltas that are not excused follow their parents. -/
structure Shows (O D : ExampleId → Prop) (version : ExampleId → Bool) (excused : ItemId → Prop)
    (rows : ItemId → Option (Item k)) : Prop where
  keyed : ∀ {id i}, rows id = some i → i.id = id
  owned : ∀ {id i}, rows id = some i → O i.owner ∧ i.parent = none ∨ D i.owner
  follows : ∀ {id i}, rows id = some i → ¬ excused id → Follows O version rows i

namespace Shows

variable {O D : ExampleId → Prop} {version version' : ExampleId → Bool} {excused excused' : ItemId → Prop}
  {rows : ItemId → Option (Item k)} {id : ItemId}

theorem empty : Shows O D version excused (fun _ => none : ItemId → Option (Item k)) where
  keyed h := by cases h
  owned h := by cases h
  follows h := by cases h

theorem mono (h : Shows O D version excused rows) (hv : ∀ owner, version owner = true → version' owner = true)
    (he : ∀ id i, rows id = some i → excused id → excused' id) : Shows O D version' excused' rows where
  keyed := h.keyed
  owned := h.owned
  follows {id i} hi hid := (h.follows hi fun hx => hid (he id i hi hx)).mono (hv i.owner) fun _ ho _ => ho

/-- A row of an origin is stored or cleared: the rows linked to it are excused. -/
theorem write_origin (h : Shows O D version (fun _ => False) rows) (new : Option (Item k))
    (hnew : ∀ i ∈ new, i.id = id ∧ O i.owner ∧ i.parent = none) :
    Shows O D version (LinkedTo id (Function.update rows id new)) (Function.update rows id new) := by
  refine ⟨fun {j i} hi => ?_, fun {j i} hi => ?_, fun {j i} hi hj => ?_⟩
  · rw [Function.update_apply] at hi
    split at hi
    next he => rw [he]; exact (hnew i hi).1
    · exact h.keyed hi
  · rw [Function.update_apply] at hi
    split at hi
    · exact Or.inl (hnew i hi).2
    · exact h.owned hi
  · have hne : i.parent ≠ some id := fun hp => hj ⟨i, hi, hp⟩
    rw [Function.update_apply] at hi
    split at hi
    · exact .of_unlinked (hnew i hi).2.2
    · refine (h.follows hi fun hx => hx).mono (fun hv => hv) fun {p o} hp ho _ => ?_
      rw [Function.update_of_ne, ho]
      rintro rfl
      exact hne hp

/-- A row of a delta is stored or cleared, and needs no excuse any more. -/
theorem write_delta (h : Shows O D version excused rows) (new : Option (Item k))
    (hold : ∀ x, rows id = some x → ¬ O x.owner)
    (hnew : ∀ i ∈ new, i.id = id ∧ D i.owner ∧ Follows O version rows i) :
    Shows O D version (fun j => excused j ∧ j ≠ id) (Function.update rows id new) := by
  -- no row is linked to the row that is written, since it is of no origin
  have hkeep : ∀ {i : Item k}, Follows O version rows i →
      Follows O version (Function.update rows id new) i := by
    refine fun hi => hi.mono (fun hv => hv) fun {p o} _ ho hO => ?_
    rw [Function.update_of_ne, ho]
    rintro rfl
    exact hold o ho hO
  refine ⟨fun {j i} hi => ?_, fun {j i} hi => ?_, fun {j i} hi hj => ?_⟩ <;>
    rw [Function.update_apply] at hi <;> split at hi
  next hj => rw [hj]; exact (hnew i hi).1
  · exact h.keyed hi
  · exact Or.inr (hnew i hi).2.1
  · exact h.owned hi
  · exact hkeep (hnew i hi).2.2
  next hne => exact hkeep (h.follows hi fun hx => hj ⟨hx, hne⟩)

/-- Rows are added that are unlinked rows of origins or rows of deltas that follow their parents. -/
theorem extend {rows' : ItemId → Option (Item k)} (h : Shows O D version excused rows)
    (hold : ∀ {id x}, rows id = some x → rows' id = some x)
    (hnew : ∀ {id i}, rows' id = some i → rows id = none →
      i.id = id ∧ (O i.owner ∧ i.parent = none ∨ D i.owner) ∧ Follows O version rows i) :
    Shows O D version excused rows' := by
  have hcases : ∀ {id i}, rows' id = some i → rows id = some i ∨ rows id = none := by
    intro id i hi
    cases hr : rows id with
    | none => exact Or.inr rfl
    | some x => rw [hold hr] at hi; exact Or.inl hi
  refine ⟨fun {id i} hi => ?_, fun {id i} hi => ?_, fun {id i} hi hid => ?_⟩ <;> rcases hcases hi with hr | hr
  · exact h.keyed hr
  · exact (hnew hi hr).1
  · exact h.owned hr
  · exact (hnew hi hr).2.1
  · exact (h.follows hr hid).mono (fun hv => hv) fun _ ho _ => hold ho
  · exact (hnew hi hr).2.2.mono (fun hv => hv) fun _ ho _ => hold ho

/-- A cascade leaves rows of origins alone: they are linked to nothing. -/
theorem carried_origin (hOD : ∀ owner, D owner → ¬ O owner) (h : Shows O D version excused rows) {p : ItemId}
    {g : Item k → Option (Item k)} {o : Item k} (ho : rows id = some o) (hO : O o.owner) :
    carried p g rows id = some o := by
  refine carried_of_not_linked ho ?_
  rcases h.owned ho with ⟨-, hnone⟩ | hD
  · rw [hnone]
    simp
  · exact absurd hO (hOD _ hD)

/-- A change was carried to all rows linked to `p`, and each of them was cleared or follows its parent now. -/
theorem cascade (hOD : ∀ owner, D owner → ¬ O owner) {p : ItemId} (h : Shows O D version (LinkedTo p rows) rows)
    {g : Item k → Option (Item k)}
    (hg : ∀ i i' : Item k, i.parent = some p → g i = some i' → i'.id = i.id ∧ i'.owner = i.owner ∧
      Follows O version (carried p g rows) i') :
    Shows O D version (fun _ => False) (carried p g rows) := by
  have hcases : ∀ {j i'}, carried p g rows j = some i' → ∃ i, rows j = some i ∧
      (i.parent = some p ∧ g i = some i' ∨ i.parent ≠ some p ∧ i' = i) := by
    intro j i' hi'
    cases hi : rows j with
    | none => rw [carried_of_none hi] at hi'; cases hi'
    | some i =>
      refine ⟨i, rfl, ?_⟩
      by_cases hp : i.parent = some p
      · exact Or.inl ⟨hp, (carried_of_linked hi hp).symm.trans hi'⟩
      · rw [carried_of_not_linked hi hp] at hi'
        exact Or.inr ⟨hp, (Option.some.inj hi').symm⟩
  refine ⟨fun {j i'} hi' => ?_, fun {j i'} hi' => ?_, fun {j i'} hi' _ => ?_⟩ <;>
    obtain ⟨i, hi, ⟨hp, hgi⟩ | ⟨hp, rfl⟩⟩ := hcases hi'
  · exact (hg i i' hp hgi).1.trans (h.keyed hi)
  · exact h.keyed hi
  · refine Or.inr ((hg i i' hp hgi).2.1 ▸ (h.owned hi).resolve_left fun hO => ?_)
    rw [hO.2] at hp
    cases hp
  · exact h.owned hi
  · exact (hg i i' hp hgi).2.2
  · have hkeep : ¬ LinkedTo p rows j := fun ⟨x, hx, hxp⟩ => hp (Option.some.inj (hi.symm.trans hx) ▸ hxp)
    exact (h.follows hi hkeep).mono (fun hv => hv) fun _ ho hO => h.carried_origin hOD ho hO

end Shows

namespace Session

variable {s t : Session} {O D : ExampleId → Prop} {excused : ItemId → Prop}

/-! ## Sessions in sync -/

/-- Nothing is made to fail, and rows of every kind show their parents, but for those excused of kind `k`. -/
structure InSync (O D : ExampleId → Prop) (k : Kind) (excused : ItemId → Prop) (s : Session) : Prop where
  sane : s.Sane
  calm : s.store.failing = ∅
  shows : Shows O D s.versions excused (s.store.bare? k)
  others : ∀ {k'}, k' ≠ k → Shows O D s.versions (fun _ => False) (s.store.bare? k')

theorem InSync.rewrites {excused' : ItemId → Prop} {rows : ItemId → Option (Item k)}
    (h : s.InSync O D k excused) (ht : s.Rewrites t rows) (hrows : Shows O D s.versions excused' rows) :
    t.InSync O D k excused' where
  sane := ht.sane
  calm := ht.failing.trans h.calm
  shows := by
    rw [ht.versions, ht.rows]
    exact hrows
  others hk := by
    rw [ht.versions, ht.kinds hk]
    exact h.others hk

/-! ## Cascades -/

/-- **An update reaches all counterparts.** -/
theorem InSync.followed (hOD : ∀ owner, D owner → ¬ O owner) {p : ItemId}
    (h : s.InSync O D k (LinkedTo p (s.store.bare? k))) {o : Item k} (ho : s.store.bare? k p = some o)
    (hO : O o.owner) {report : Cascade.Report}
    (ht : s.Cascaded t p (Item.follow s.versions o.fields) report) : t.InSync O D k fun _ => False := by
  have hrows := ht.rewrites
  rw [ht.complete (ht.calm h.calm)] at hrows
  refine h.rewrites hrows (h.shows.cascade hOD fun i i' hp hi' => ?_)
  have ho' := h.shows.carried_origin hOD (p := p) (g := Item.follow s.versions o.fields) ho hO
  obtain rfl := Option.some.inj hi'
  split
  · exact ⟨rfl, rfl, .of_parent hp ho' hO (Or.inr (Or.inr rfl))⟩
  next hkeep =>
    refine ⟨rfl, rfl, .of_parent hp ho' hO ?_⟩
    rw [not_and_or, Bool.not_eq_false, Bool.not_eq_false] at hkeep
    exact hkeep.imp_right Or.inl

/-- **A deletion reaches all counterparts.** -/
theorem InSync.outlived (hOD : ∀ owner, D owner → ¬ O owner) {p : ItemId}
    (h : s.InSync O D k (LinkedTo p (s.store.bare? k))) {report : Cascade.Report}
    (ht : s.Cascaded t p (Item.outlive (k := k) s.versions) report) : t.InSync O D k fun _ => False := by
  have hrows := ht.rewrites
  rw [ht.complete (ht.calm h.calm)] at hrows
  refine h.rewrites hrows (h.shows.cascade hOD fun i i' _ hi' => ?_)
  unfold Item.outlive at hi'
  split at hi'
  · obtain rfl := Option.some.inj hi'
    exact ⟨rfl, rfl, .of_unlinked rfl⟩
  · cases hi'

end Session

end ExampleOverlay
