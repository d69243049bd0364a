import ExampleOverlay.Proofs.Races.Edits
import ExampleOverlay.Proofs.Runs.CatchUp

/-!
# Cascades that are overtaken

An update of a row is carried to its counterparts while another client updates the row and carries that to
them. What the second cascade leaves needs nothing more: the first reads the row anew for every counterpart,
so it has nothing to write to those it comes to afterwards. Only the counterpart that it has read the row for
is in danger, as long as the value that was read is not stored (`Session.throughout_cascade`).
-/

namespace ExampleOverlay

open Program

variable {k : Kind}

/-! ## Counterparts that follow twice -/

section

variable {version : ExampleId → Bool} {rows rows' : ItemId → Option (Item k)} {id j : ItemId} {i : Item k}

/-- A counterpart that follows stays where it is, and may follow again. -/
theorem exists_follow (version : ExampleId → Bool) (fields : Fields k) (i : Item k) :
    ∃ i', i.follow version fields = some i' ∧ i'.owner = i.owner ∧ i'.parent = i.parent ∧
      ∀ fields', i'.follow version fields' = i.follow version fields' := by
  refine ⟨_, rfl, ?_⟩
  split
  next h => exact ⟨rfl, rfl, fun fields' => by simp [Item.follow, h]⟩
  · exact ⟨rfl, rfl, fun _ => rfl⟩

/-- Rows that differ at most in what counterparts show that follow the row `id`. -/
def Alike (version : ExampleId → Bool) (id : ItemId) (rows rows' : ItemId → Option (Item k)) : Prop :=
  ∀ fields, carried id (Item.follow version fields) rows = carried id (Item.follow version fields) rows'

theorem Alike.refl (version : ExampleId → Bool) (id : ItemId) (rows : ItemId → Option (Item k)) :
    Alike version id rows rows := fun _ => rfl

theorem Alike.trans {rows'' : ItemId → Option (Item k)} (h : Alike version id rows rows')
    (h' : Alike version id rows' rows'') : Alike version id rows rows'' := fun fields =>
  (h fields).trans (h' fields)

theorem Alike.symm (h : Alike version id rows rows') : Alike version id rows' rows := fun fields =>
  (h fields).symm

/-- One counterpart follows. -/
theorem alike_update (hi : rows j = some i) (hp : i.parent = some id) (fields : Fields k) :
    Alike version id (Function.update rows j (i.follow version fields)) rows := by
  intro fields'
  obtain ⟨i', hfollow, -, hp', hagain⟩ := exists_follow version fields i
  funext j'
  by_cases hj : j' = j
  · subst hj
    have hnew : Function.update rows j' (i.follow version fields) j' = some i' := by
      rw [Function.update_self, hfollow]
    rw [carried_of_linked hi hp, carried_of_linked hnew (hp'.trans hp), hagain]
  · rw [carried, carried, Function.update_of_ne hj]

/-- All counterparts follow. -/
theorem alike_carried (rows : ItemId → Option (Item k)) (fields : Fields k) :
    Alike version id (carried id (Item.follow version fields) rows) rows := by
  intro fields'
  funext j
  cases hj : rows j with
  | none => rw [carried_of_none hj, carried_of_none (carried_of_none hj)]
  | some i =>
    by_cases hp : i.parent = some id
    · obtain ⟨i', hfollow, -, hp', hagain⟩ := exists_follow version fields i
      have hnew := (carried_of_linked hj hp).trans hfollow
      rw [carried_of_linked hj hp, carried_of_linked hnew (hp'.trans hp), hagain]
    · rw [carried_of_not_linked hj hp, carried_of_not_linked (carried_of_not_linked hj hp) hp]

/-- Rows that are carried a change stay where they are. -/
theorem exists_carried (version : ExampleId → Bool) (id : ItemId) (fields : Fields k) (hi : rows j = some i) :
    ∃ i', carried id (Item.follow version fields) rows j = some i' ∧ i'.owner = i.owner ∧
      i'.parent = i.parent := by
  by_cases hp : i.parent = some id
  · obtain ⟨i', hfollow, ho, hp', -⟩ := exists_follow version fields i
    exact ⟨i', (carried_of_linked hi hp).trans hfollow, ho, hp'⟩
  · exact ⟨i, carried_of_not_linked hi hp, rfl, rfl⟩

end

namespace Session

variable {s t u v : Session} {id : ItemId} {α β : Type}

/-! ## Nothing left to do -/

/-- A counterpart that has its parent's fields, or does not track it, is left as it is. -/
theorem run_updateOne_idle (hs : s.Sane) (limit : Nat) {before after row o : Item k} {version : Bool}
    (ho : s.store.item? k before.id = some o)
    (hrow : version = false → ∀ y : Item k, s.store.item? k row.id = some y → y.parent = some before.id →
      y.overridden = false → y.fields = o.fields) :
    ∃ r, s.run (Cascade.updateOne limit before after version row) = (r, s) ∧
      ∀ e, r = .error e → e.isNotFound = true := by
  unfold Cascade.updateOne
  by_cases horigin : Source.resolve row (some before) version = .origin
  · rw [if_neg (not_not.2 horigin)]
    have hversion : version = false := by
      cases version with
      | false => rfl
      | true =>
        unfold Source.resolve Source.classify at horigin
        cases hl : row.isLinked <;> simp [hl] at horigin
    have hread : s.run (Program.get k before.id).outcome = (.ok (.ok o), s) := by
      rw [run_outcome, run_get_of_some hs.ordered ho]
    rw [run_bind_ok hread]
    cases hy : s.store.item? k row.id with
    | none => exact ⟨_, run_bind_error (run_modify_of_none hs.ordered limit hy) _, by rintro _ ⟨⟩; rfl⟩
    | some y =>
      have hsame : Cascade.takeFields before.id o.fields y = .ok (y, false) := by
        refine if_pos ?_
        by_cases hp : y.parent = some before.id
        · cases hov : y.overridden with
          | true => exact Or.inr (Or.inl rfl)
          | false => exact Or.inr (Or.inr (hrow hversion y hy hp hov))
        · exact Or.inl hp
      exact ⟨_, run_bind_ok (run_modify_of_same hs.ordered limit hy hsame) _, by rintro _ ⟨⟩⟩
  · rw [if_pos horigin]
    exact ⟨_, rfl, by rintro _ ⟨⟩⟩

/-- Rows that are left as they are, or are gone, leave nothing to do. -/
theorem run_carry_idle {each : Item k → Program Cascade.Outcome} :
    ∀ (rows : List (Item k)) (report : Cascade.Report),
    (∀ row ∈ rows, ∃ r, s.run (each row) = (r, s) ∧ ∀ e, r = .error e → e.isNotFound = true) →
      ∃ report', s.run (Cascade.carry each report rows) = (.ok report', s)
  | [], report, _ => ⟨report, rfl⟩
  | row :: rest, report, h => by
    obtain ⟨r, hrun, hfound⟩ := h row List.mem_cons_self
    have hout : s.run (each row).outcome = (.ok r, s) := by rw [run_outcome, hrun]
    have hrest := fun report => run_carry_idle rest report fun row hrow => h row (List.mem_cons_of_mem _ hrow)
    rw [Cascade.carry, run_bind_ok hout]
    cases r with
    | ok outcome => exact hrest _
    | error e =>
      dsimp only
      rw [if_pos (hfound e rfl)]
      exact hrest _

/-- The session that another client leaves after it has brought all counterparts up to date. -/
structure Resumes (t v : Session) (k : Kind) (id : ItemId) : Prop where
  sane : v.Sane
  registry : v.world.registry = t.world.registry
  caughtUp : v.CaughtUp k id
  stored : ∃ o : Item k, v.store.item? k id = some o
  owners : ∀ {j : ItemId} {y z : Item k}, t.store.bare? k j = some z → v.store.item? k j = some y →
    y.owner = z.owner

/-- The rows that a cascade has still to come to are stored, and it knows which of them are of versions. -/
structure Pending (s : Session) (id : ItemId) (versions : List (ExampleId × Bool)) (rows : List (Item k)) :
    Prop where
  nodup : (idsOf rows).Nodup
  stored : ∀ row ∈ rows, s.store.bare? k row.id = some row.bare
  linked : ∀ row ∈ rows, row.parent = some id
  known : ∀ row ∈ rows, Cascade.known versions row.owner = s.versions row.owner

/-- A cascade that resumes when everything is up to date changes nothing. -/
theorem Resumes.run_carry (h : t.Resumes v k id) (limit : Nat) {before : Item k} (after : Item k)
    (hid : before.id = id)
    {versions : List (ExampleId × Bool)} {rows : List (Item k)} (hrows : t.Pending id versions rows)
    (report : Cascade.Report) : ∃ report', v.run (Cascade.carry
      (fun row => Cascade.updateOne limit before after (Cascade.known versions row.owner) row) report rows) =
        (.ok report', v) := by
  subst hid
  obtain ⟨o, ho⟩ := h.stored
  refine run_carry_idle rows report fun row hrow => run_updateOne_idle h.sane limit ho fun hv y hy hp hov => ?_
  refine h.caughtUp hy ⟨hp, hov, ?_⟩ ho
  rw [hrows.known row hrow] at hv
  rw [h.owners (hrows.stored row hrow) hy, Item.bare_owner, ← hv]
  exact congrArg (fun r => (r.versionOf row.owner).isSome) h.registry

/-! ## Every gap -/

/-- A cascade has come from `u` to `s`: the row it is about is what it was, and so are the rows, but for
counterparts that follow by now. -/
structure Carrying (u s : Session) (k : Kind) (id : ItemId) : Prop where
  rewrites : u.Rewrites s (s.store.bare? k)
  origin : s.store.bare? k id = u.store.bare? k id
  alike : Alike u.versions id (s.store.bare? k) (u.store.bare? k)

theorem Carrying.refl (hu : u.Sane) : u.Carrying u k id := ⟨.refl hu, rfl, .refl _ _ _⟩

theorem Carrying.follow (h : u.Carrying s k id) {i : Item k} {fields : Fields k} {j : ItemId}
    (hi : s.store.bare? k j = some i) (hp : i.parent = some id) (hne : j ≠ id)
    (ht : s.Rewrites t (Function.update (s.store.bare? k) j (i.follow u.versions fields))) :
    u.Carrying t k id where
  rewrites := by rw [ht.rows]; exact h.rewrites.trans ht
  origin := by rw [ht.rows, Function.update_of_ne hne.symm, h.origin]
  alike := by rw [ht.rows]; exact (alike_update hi hp fields).trans h.alike

/-- Where the next request is about the row or its list, nothing is left to do once another client has brought
all counterparts up to date. -/
def Harmless (u : Session) (o : Item k) (p : Program α) (t : Session) : Prop :=
  u.Carrying t k o.id ∧ ∀ q next, p = .ask q next → q.Heeds k o.id o.owner → ∀ v, t.Resumes v k o.id →
    ∃ a, v.run p = (.ok a, v)

theorem Pending.ne (hs : s.Sane) {versions : List (ExampleId × Bool)} {rows : List (Item k)}
    (h : s.Pending id versions rows) {row : Item k} (hrow : row ∈ rows) : row.id ≠ id := by
  obtain ⟨y, hy, hyrow⟩ := Store.bare?_eq_some_iff.1 (h.stored row hrow)
  obtain ⟨-, -, hp, -, -⟩ := Item.bare_eq_iff.1 hyrow
  have hself := hs.ordered.selfless hy
  rw [hp, h.linked row hrow] at hself
  exact fun he => hself (he ▸ rfl)

/-- The first of them was written. -/
theorem Pending.rest {versions : List (ExampleId × Bool)} {row : Item k} {rest : List (Item k)}
    (h : s.Pending id versions (row :: rest)) {new : Option (Item k)}
    (ht : s.Rewrites t (Function.update (s.store.bare? k) row.id new)) : t.Pending id versions rest := by
  have hnd := List.nodup_cons.1 h.nodup
  have hmem : ∀ r ∈ rest, r ∈ row :: rest := fun r hr => List.mem_cons_of_mem _ hr
  refine ⟨hnd.2, fun r hr => ?_, fun r hr => h.linked r (hmem r hr), fun r hr => ?_⟩
  · have hne : r.id ≠ row.id := fun he => hnd.1 (List.mem_map.2 ⟨r, hr, he⟩)
    rw [ht.rows, Function.update_of_ne hne]
    exact h.stored r (hmem r hr)
  · rw [ht.versions]
    exact h.known r (hmem r hr)

/-- Before each access of an update of one counterpart: the parent is read, or the counterpart is changed. -/
theorem throughout_updateOne (hs : s.Sane) (hcalm : s.store.failing = ∅) (limit : Nat)
    {before after row parent y : Item k} {version : Bool} (hparent : s.store.item? k before.id = some parent)
    (hy : s.store.item? k row.id = some y) {R : Program Cascade.Outcome → Session → Prop}
    (hread : R (Cascade.updateOne limit before after version row) s)
    (hchange : ∀ q next, q.Touches k row.id y.owner → R (.ask q next) s) :
    Throughout R (Cascade.updateOne limit before after version row) s := by
  unfold Cascade.updateOne at hread ⊢
  by_cases horigin : Source.resolve row (some before) version = .origin
  · rw [if_neg (not_not.2 horigin)] at hread ⊢
    refine Throughout.bind (Throughout.outcome (throughout_get hread)) fun r t hr => ?_
    rw [run_outcome, run_get_of_some hs.ordered hparent] at hr
    obtain ⟨rfl, rfl⟩ := hr
    show Throughout R (Editing.modify limit row.id (Cascade.takeFields before.id parent.fields) >>= _) s
    refine Throughout.bind ((throughout_modify hs hcalm limit (sure_takeFields before.id parent.fields) hy).mono
      fun p t hgap => ?_) fun _ _ _ => True.intro
    obtain ⟨rfl, ⟨q, next, rfl, htouches⟩, -⟩ := hgap
    exact hchange q _ htouches
  · rw [if_pos horigin]
    exact True.intro

/-- **One counterpart after another** is carried the change. -/
theorem throughout_carry (hcalm : u.store.failing = ∅) (limit : Nat) {before after o : Item k}
    (ho : u.store.bare? k before.id = some o) (hid : before.id = o.id) (versions : List (ExampleId × Bool)) :
    ∀ (rows : List (Item k)) {s : Session} (report : Cascade.Report), u.Carrying s k o.id →
      s.Pending o.id versions rows → (∀ row ∈ rows, row.owner ≠ o.owner) →
      Throughout (u.Harmless o) (Cascade.carry
        (fun row => Cascade.updateOne limit before after (Cascade.known versions row.owner) row) report rows) s
  | [], _, _, _, _, _ => True.intro
  | row :: rest, s, report, hcarrying, hrows, hapart => by
    have hs := hcarrying.rewrites.sane
    have hcalm' : s.store.failing = ∅ := hcarrying.rewrites.failing.trans hcalm
    have hversions := hcarrying.rewrites.versions
    have hrow := hrows.stored row List.mem_cons_self
    have hp := hrows.linked row List.mem_cons_self
    have hparent : s.store.bare? k before.id = some o := by rw [hid, hcarrying.origin, ← hid, ho]
    obtain ⟨parent, hparent', -⟩ := Store.bare?_eq_some_iff.1 hparent
    obtain ⟨y, hy, hyrow⟩ := Store.bare?_eq_some_iff.1 hrow
    have hyo : y.owner = row.owner := (Item.bare_eq_iff.1 hyrow).2.1
    have hne := hrows.ne hs List.mem_cons_self
    refine Throughout.bind (Throughout.outcome (throughout_updateOne hs hcalm' limit hparent' hy
      ⟨hcarrying, fun q next _ _ v hv => hv.run_carry limit after hid hrows report⟩ fun q next htouches =>
        ⟨hcarrying, fun q' next' he hheeds => ?_⟩)) fun r t hr => ?_
    · -- a change of the row is about its own list, which is not the parent's
      injection he with hq
      subst hq
      exact absurd hheeds (htouches.not_heeds hne (hyo ▸ hapart row List.mem_cons_self))
    · have hrevises := revises_updateOne hs limit after hparent hrow (hp.trans (congrArg some hid.symm))
      rw [← hrows.known row List.mem_cons_self] at hrevises
      rw [run_outcome, Prod.mk.injEq, Except.ok.injEq] at hr
      obtain ⟨rfl, rfl⟩ := hr
      rcases hrevises with ⟨hfail, -⟩ | ⟨outcome, t, hrun, ht⟩
      · exact absurd hcalm' hfail
      rw [hrun]
      have hrest := hrows.rest ht
      rw [hversions] at ht
      exact throughout_carry hcalm limit ho hid versions rest _ (hcarrying.follow hrow hp hne ht) hrest
        fun r hr => hapart r (List.mem_cons_of_mem _ hr)

/-- Before each access of a look at the registry: wherever it goes on, it finds what it would have found. -/
theorem throughout_versions (s : Session) (rows : List (Item k)) :
    Throughout (fun p t => t = s ∧ ∀ u : Session, u.world.registry = s.world.registry → u.run p =
        (.ok ((rows.map (·.owner)).eraseDups.map fun o => (o, s.versions o)), u))
      (Cascade.versions rows) s := by
  have hread : ∀ (owners : List ExampleId) (u : Session), u.world.registry = s.world.registry →
      u.run (collect (fun owner => return (owner, ← isVersion owner)) owners) =
        (.ok (owners.map fun o => (o, s.versions o)), u) := fun owners u hu =>
    run_collect (fun o => by
      rw [versions, ← hu]
      rfl) owners
  unfold Cascade.versions
  generalize (rows.map (·.owner)).eraseDups = owners
  induction owners with
  | nil => exact True.intro
  | cons owner owners ih =>
    refine Throughout.bind ⟨⟨rfl, fun u hu => hread (owner :: owners) u hu⟩, True.intro⟩ fun b t hb => ?_
    obtain ⟨rfl, rfl⟩ : b = (owner, s.versions owner) ∧ t = s := by cases hb; exact ⟨rfl, rfl⟩
    refine Throughout.bind (ih.mono fun p t hp => ?_) fun _ _ _ => True.intro
    exact ⟨hp.1, fun u hu => run_bind_ok (hp.2 u hu) _⟩

/-- The rows linked to a row are pending when they were read and looked up. -/
theorem pending_of_children {rows : List (Item k)} (hnd : (idsOf rows).Nodup)
    (hmem : ∀ i, i ∈ rows ↔ s.store.item? k i.id = some i ∧ i.parent = some id) :
    s.Pending id ((rows.map (·.owner)).eraseDups.map fun o => (o, s.versions o)) rows where
  nodup := hnd
  stored row hrow := Store.bare?_of_item? (((hmem row).1 hrow).1)
  linked row hrow := ((hmem row).1 hrow).2
  known _ hrow := Cascade.known_map _ (List.mem_eraseDups.2 (List.mem_map_of_mem hrow))

theorem Resumes.self (h : t.Resumes v k id) : v.Resumes v k id where
  sane := h.sane
  registry := rfl
  caughtUp := h.caughtUp
  stored := h.stored
  owners hz hy := by
    obtain ⟨y', hy', rfl⟩ := Store.bare?_eq_some_iff.1 hz
    rw [hy', Option.some.injEq] at hy
    exact hy ▸ rfl

/-- A cascade that begins when everything is up to date changes nothing. -/
theorem Resumes.run_update (h : t.Resumes v k id) (limit : Nat) {before : Item k} (after : Item k)
    (hid : before.id = id) :
    ∃ report, v.run (Cascade.update limit before after) = (.ok report, v) := by
  obtain ⟨rows, hrun, hnd, hmem⟩ := run_children h.sane.ordered (k := k) before.id
  rw [hid] at hmem
  obtain ⟨report, hcarry⟩ := h.self.run_carry limit after hid (pending_of_children hnd hmem) {}
  exact ⟨report, (run_bind_ok hrun _).trans ((run_bind_ok (run_versions v rows) _).trans hcarry)⟩

/-- The rows that are linked to the row `id` are of other examples than `owner`. -/
def Apart (s : Session) (k : Kind) (id : ItemId) (owner : ExampleId) : Prop :=
  ∀ ⦃j : ItemId⦄ ⦃i : Item k⦄, s.store.bare? k j = some i → i.parent = some id → i.owner ≠ owner

/-- **A cascade that is overtaken** at a request about the row, by a client that brings all counterparts up to
date, changes nothing any more. -/
theorem throughout_cascade (hu : u.Sane) (hcalm : u.store.failing = ∅) (limit : Nat) {before after o : Item k}
    (ho : u.store.bare? k before.id = some o) (hapart : u.Apart k before.id o.owner) :
    Throughout (u.Harmless o) (Cascade.update limit before after) u := by
  have hid : before.id = o.id := by
    obtain ⟨x, hx, rfl⟩ := Store.bare?_eq_some_iff.1 ho
    exact (hu.ordered.id_of_item? hx).symm
  obtain ⟨rows, hrun, hnd, hmem⟩ := run_children hu.ordered (k := k) before.id
  rw [hid] at hmem
  have hpending := pending_of_children hnd hmem
  refine Throughout.bind (throughout_children ⟨.refl hu, fun _ _ _ _ v hv => hv.run_update limit after hid⟩)
    fun rows' t hrows => ?_
  rw [hrun] at hrows
  obtain ⟨rfl, rfl⟩ := hrows
  refine Throughout.bind ((throughout_versions u rows).mono fun p t hp => ?_) fun versions t hversions => ?_
  · obtain ⟨rfl, hp⟩ := hp
    refine ⟨.refl hu, fun q next _ _ v hv => ?_⟩
    rw [run_bind_ok (hp v hv.registry)]
    exact hv.run_carry limit after hid hpending {}
  · rw [run_versions] at hversions
    obtain ⟨rfl, rfl⟩ := hversions
    exact throughout_carry hcalm limit ho hid _ rows {} (.refl hu) hpending fun row hrow =>
      hapart (i := row.bare) (hpending.stored row hrow)
        ((hpending.linked row hrow).trans (congrArg some hid.symm))

end Session

end ExampleOverlay
