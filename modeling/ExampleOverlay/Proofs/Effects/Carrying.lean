import ExampleOverlay.Proofs.Effects.Thinning
import ExampleOverlay.Proofs.Runs.Cascades

/-!
# What a cascade reports

The counterparts of a row may be taken in any order (`Cascade.carryIn`). If it is settled beforehand what becomes of
each of them, whatever was done to the others, then the report tells once of each of them, and tells just that
(`Cascade.Report.Settles`).
-/

namespace ExampleOverlay

open Chain Program

variable {k : Kind}

namespace Cascade

/-! ## Reports -/

/-- The counterparts of which a report tells an outcome, or that they could not be written. -/
def Report.told (report : Report) : Option Outcome → List ItemId
  | some .updated => report.updated
  | some .deleted => report.deleted
  | some .detached => report.detached
  | some .skipped => report.skipped
  | none => report.failed.map (·.id)

/-- A report tells once of every row that is linked to `parent`, and of each what `verdict` gives: its outcome, or
none if it could not be written. -/
structure Report.Settles (report : Report) (rows : ItemId → Option (Item k)) (parent : ItemId)
    (verdict : Item k → Option Outcome) : Prop where
  mem : ∀ (id : ItemId) (v : Option Outcome),
    id ∈ report.told v ↔ ∃ i, rows id = some i ∧ i.parent = some parent ∧ verdict i = v
  nodup : ∀ v, (report.told v).Nodup

/-- A report tells of some rows, one after another. -/
def Report.Tells (verdict : Item k → Option Outcome) (rows : List (Item k)) (report : Report) : Prop :=
  ∀ v, report.told v = idsOf (rows.filter (verdict · = v))

section

variable {report : Report} {rows : ItemId → Option (Item k)} {parent : ItemId} {verdict : Item k → Option Outcome}
  {order : List (Item k)} {row : Item k}

theorem Report.told_add (report : Report) (id : ItemId) (outcome : Outcome) (v : Option Outcome) :
    (report.add id outcome).told v = report.told v ++ if some outcome = v then [id] else [] := by
  cases outcome <;> rcases v with _ | _ | _ | _ | _ <;> simp [told, add]

theorem Report.told_addFailure (report : Report) (failure : Failure) (v : Option Outcome) :
    (report.addFailure failure).told v = report.told v ++ if none = v then [failure.id] else [] := by
  rcases v with _ | _ | _ | _ | _ <;> simp [told, addFailure]

theorem Report.Tells.nil : Report.Tells verdict [] {} := by
  rintro (_ | _ | _ | _ | _) <;> rfl

/-- One more row is told of. -/
theorem Report.Tells.concat {report' : Report} (h : report.Tells verdict order)
    (hrow : ∀ v, report'.told v = report.told v ++ if verdict row = v then [row.id] else []) :
    report'.Tells verdict (order ++ [row]) := by
  intro v
  rw [hrow, h, List.filter_append, idsOf, idsOf, List.map_append]
  by_cases hv : verdict row = v <;> simp [hv]

theorem Report.Tells.settles (h : report.Tells verdict order) (hnd : (idsOf order).Nodup)
    (hkeyed : ∀ {id i}, rows id = some i → i.id = id)
    (hmem : ∀ i, i ∈ order ↔ rows i.id = some i ∧ i.parent = some parent) : report.Settles rows parent verdict where
  mem id v := by
    rw [h]
    simp only [idsOf, List.mem_map, List.mem_filter, decide_eq_true_eq, hmem]
    constructor
    · rintro ⟨i, ⟨⟨hi, hp⟩, hv⟩, rfl⟩
      exact ⟨i, hi, hp, hv⟩
    · rintro ⟨i, hi, hp, hv⟩
      obtain rfl := hkeyed hi
      exact ⟨i, ⟨⟨hi, hp⟩, hv⟩, rfl⟩
  nodup v := by
    rw [h]
    exact hnd.sublist (List.filter_sublist.map _)

theorem Report.Settles.of_rows {rows' : ItemId → Option (Item k)} (h : report.Settles rows parent verdict)
    (hrows : ∀ {id i}, i.parent = some parent → (rows id = some i ↔ rows' id = some i)) :
    report.Settles rows' parent verdict where
  mem id v := by
    rw [h.mem]
    constructor
    · rintro ⟨i, hi, hp, hv⟩
      exact ⟨i, (hrows hp).1 hi, hp, hv⟩
    · rintro ⟨i, hi, hp, hv⟩
      exact ⟨i, (hrows hp).2 hi, hp, hv⟩
  nodup := h.nodup

/-- What is told of a row. -/
theorem Report.Settles.mem_iff (h : report.Settles rows parent verdict) {id : ItemId} (hrow : rows id = some row)
    (v : Option Outcome) : id ∈ report.told v ↔ row.parent = some parent ∧ verdict row = v := by
  rw [h.mem]
  simp [hrow]

/-- What comes of no row is told of none. -/
theorem Report.Settles.told_eq_nil (h : report.Settles rows parent verdict) (v : Option Outcome)
    (hv : ∀ i, verdict i ≠ v) : report.told v = [] := by
  rw [List.eq_nil_iff_forall_not_mem]
  intro id hid
  obtain ⟨i, -, -, hi⟩ := (h.mem id v).1 hid
  exact hv i hi

theorem Report.toResult_eq (report : Report) :
    report.toResult = if report.failed = [] then .ok report else .error (.cascadeIncomplete report) := by
  simp [toResult, isComplete]

end

/-! ## The order of the counterparts -/

/-- Carries a change to the counterparts of a row, taken in the order that `arrange` puts them into. -/
def carryIn (arrange : List (Item k) → List (Item k)) (parent : ItemId) (each : Bool → Item k → Program Outcome) :
    Program Report := do
  let rows ← children k parent
  let versions ← versions rows
  carry (fun row => each (known versions row.owner) row) {} (arrange rows)

end Cascade

/-! ## The rows meanwhile -/

/-- The rows after a change was carried to those in `taken`, which makes `g` of each. -/
def carriedTo (taken : List (Item k)) (g : Item k → Option (Item k)) (rows : ItemId → Option (Item k)) (j : ItemId) :
    Option (Item k) :=
  (rows j).bind fun i => if i ∈ taken then g i else some i

section

variable {g : Item k → Option (Item k)} {rows : ItemId → Option (Item k)} {taken : List (Item k)} {row : Item k}

theorem carriedTo_nil : carriedTo [] g rows = rows := by
  funext j
  simp [carriedTo]

theorem carriedTo_of_not_mem (hrow : rows row.id = some row) (hnew : row ∉ taken) :
    carriedTo taken g rows row.id = some row := by
  simp [carriedTo, hrow, hnew]

theorem carriedTo_concat (hkeyed : ∀ {j i}, rows j = some i → i.id = j) (hrow : rows row.id = some row)
    (j : ItemId) : carriedTo (taken ++ [row]) g rows j = if j = row.id then g row else carriedTo taken g rows j := by
  unfold carriedTo
  by_cases hj : j = row.id
  · rw [if_pos hj, hj, hrow, Option.bind_some, if_pos (by simp)]
  · rw [if_neg hj]
    refine Option.bind_congr fun i hi => ?_
    have hne : i ≠ row := fun he => hj (by rw [← hkeyed hi, he])
    simp [hne]

/-- When all rows linked to `parent` were taken, the change was carried to its counterparts. -/
theorem carriedTo_eq_carried {order : List (Item k)} {parent : ItemId} (hkeyed : ∀ {j i}, rows j = some i → i.id = j)
    (hmem : ∀ i, i ∈ order ↔ rows i.id = some i ∧ i.parent = some parent) :
    carriedTo order g rows = carried parent g rows := by
  funext j
  refine Option.bind_congr fun i hi => ?_
  obtain rfl := hkeyed hi
  simp [hmem, hi]

end

namespace Session

open Cascade

variable {s t u : Session}

theorem Thins.versions (h : s.Thins k t) : t.versions = s.versions := by
  unfold Session.versions
  rw [h.registry]

/-- What is run for a counterpart gives its outcome, or it is refused and changes nothing. -/
inductive ComesTo (s : Session) (p : Program Outcome) : Option Outcome → Session → Prop
  | refused {e : String} (h : s.run p = (.error (.store (.backend e)), s)) : ComesTo s p none s
  | told {outcome : Outcome} {t : Session} (h : s.run p = (.ok outcome, t)) : ComesTo s p (some outcome) t

section

variable (each : Item k → Program Outcome) (verdict : Item k → Option Outcome)
  (I : List (Item k) → Session → Prop) {order : List (Item k)}

/-- **Carrying a change** to rows in turn: `I` says what was done when some of them have been taken. -/
theorem run_carry_told
    (hstep : ∀ {taken row rest u}, order = taken ++ row :: rest → I taken u →
      ∃ t, u.ComesTo (each row) (verdict row) t ∧ I (taken ++ [row]) t) :
    ∀ {rest taken : List (Item k)} {u : Session} {report : Report}, order = taken ++ rest → I taken u →
      report.Tells verdict taken →
      ∃ report' t, u.run (carry each report rest) = (.ok report', t) ∧ report'.Tells verdict order ∧ I order t
  | [], taken, u, report, ho, hI, htells => by
    rw [List.append_nil] at ho
    subst ho
    exact ⟨report, u, rfl, htells, hI⟩
  | row :: rest, taken, u, report, ho, hI, htells => by
    obtain ⟨t, hcomes, ht⟩ := hstep ho hI
    have ho' : order = (taken ++ [row]) ++ rest := by rw [ho, List.append_assoc, List.singleton_append]
    generalize hv : verdict row = v at hcomes
    cases hcomes with
    | @refused e hrun =>
      have hout : u.run (each row).outcome = (.ok (.error (.store (.backend e))), u) := by rw [run_outcome, hrun]
      have hmore : (report.addFailure ⟨row.id, row.owner, (EngineError.store (.backend e)).message⟩).Tells verdict
          (taken ++ [row]) := htells.concat fun v => by rw [Report.told_addFailure, hv]
      obtain ⟨report', t, hrest, hreport⟩ := run_carry_told hstep ho' ht hmore
      exact ⟨report', t, (run_bind_ok hout _).trans hrest, hreport⟩
    | @told outcome t hrun =>
      have hout : u.run (each row).outcome = (.ok (.ok outcome), t) := by rw [run_outcome, hrun]
      have hmore : (report.add row.id outcome).Tells verdict (taken ++ [row]) :=
        htells.concat fun v => by rw [Report.told_add, hv]
      obtain ⟨report', t, hrest, hreport⟩ := run_carry_told hstep ho' ht hmore
      exact ⟨report', t, (run_bind_ok hout _).trans hrest, hreport⟩

end

/-- **Carrying a change to the counterparts of a row**, in any order. -/
theorem run_carryIn (hs : s.Sane) {arrange : List (Item k) → List (Item k)}
    (harrange : ∀ rows, (arrange rows).Perm rows) (parent : ItemId) (each : Bool → Item k → Program Outcome)
    (verdict : Item k → Option Outcome) (I : List (Item k) → Session → Prop) (hstart : I [] s)
    (hstep : ∀ {taken row u}, row ∉ taken → s.store.item? k row.id = some row → row.parent = some parent → I taken u →
      ∃ t, u.ComesTo (each (s.versions row.owner) row) (verdict row) t ∧ I (taken ++ [row]) t) :
    ∃ report t order, s.run (carryIn arrange parent each) = (.ok report, t) ∧
      report.Settles (s.store.item? k) parent verdict ∧ I order t ∧
      ∀ i, i ∈ order ↔ s.store.item? k i.id = some i ∧ i.parent = some parent := by
  obtain ⟨rows, hchildren, hnd, hrows⟩ := run_children hs.ordered (k := k) parent
  have hperm := harrange rows
  have hmem : ∀ i, i ∈ arrange rows ↔ s.store.item? k i.id = some i ∧ i.parent = some parent := fun i =>
    hperm.mem_iff.trans (hrows i)
  have hnd' : (idsOf (arrange rows)).Nodup := (hperm.map _).nodup_iff.2 hnd
  have hknown : ∀ row ∈ rows, known ((rows.map (·.owner)).eraseDups.map fun o => (o, s.versions o)) row.owner =
      s.versions row.owner := fun row hrow => known_map _ (List.mem_eraseDups.2 (List.mem_map_of_mem hrow))
  obtain ⟨report, t, hcarry, htells, hI⟩ := run_carry_told
    (fun row => each (known ((rows.map (·.owner)).eraseDups.map fun o => (o, s.versions o)) row.owner) row)
    verdict I (fun {taken row rest u} ho hI => by
      have hrow : row ∈ arrange rows := by rw [ho]; simp
      rw [hknown row (hperm.subset hrow)]
      refine hstep (fun hdone => ?_) ((hmem row).1 hrow).1 ((hmem row).1 hrow).2 hI
      rw [ho] at hnd'
      exact (List.nodup_append.1 (hnd'.of_map _)).2.2 row hdone row (by simp) rfl)
    (List.nil_append (arrange rows)).symm hstart .nil
  exact ⟨report, t, arrange rows, (run_bind_ok hchildren _).trans ((run_bind_ok (run_versions s rows) _).trans hcarry),
    htells.settles hnd' hs.ordered.id_of_item? hmem, hI, hmem⟩

end Session

end ExampleOverlay
