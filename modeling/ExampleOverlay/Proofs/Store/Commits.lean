import ExampleOverlay.Proofs.Store.History
import ExampleOverlay.World

/-!
# What a commit does

A commit is an update of the rows as a map, all of it or nothing. Whether a batch is refused, and why, is judged by
the store before it, first by the rows that are made to fail, then by the guards and then by the rows to put, each in
the order of the batch (`Store.Refuses`). A batch that is let through leaves under each id what the last write of that
id says, whatever was written there by earlier ones (`Store.Overwritten`). Main statement: `Store.built_overwrites`.
-/

namespace ExampleOverlay

/-! ## The last write -/

/-- The row under an id after writes is that of the last one that names it. -/
theorem written_eq_getLast? (ws : List Write) (id : ItemId) (old : Option Record) :
    written ws id old = match (ws.filter (·.id = id)).getLast? with
      | some w => w.stored
      | none => old := by
  -- from the end of the writes, where the one that counts stands
  induction ws using List.reverseRecOn with
  | nil => rfl
  | append_singleton ws w ih =>
    rw [written_append, written_cons, List.filter_append]
    by_cases hid : w.id = id
    · simp [hid, written]
    · simpa [hid, written] using ih

/-! ## What is wrong with a batch -/

/-- Something is wrong with an element of a list, with none before it, and the error tells of it. -/
def FirstWrong {α : Type} (wrong : α → StoreError → Prop) (l : List α) (e : StoreError) : Prop :=
  ∃ before a later, l = before ++ a :: later ∧ wrong a e ∧ ∀ x ∈ before, ∀ e', ¬ wrong x e'

section

variable {α : Type} {wrong : α → StoreError → Prop} {f : α → Option StoreError} {l : List α} {e : StoreError}

theorem eq_none_iff_not_wrong (h : ∀ a e, f a = some e ↔ wrong a e) (a : α) : f a = none ↔ ∀ e, ¬ wrong a e :=
  Option.eq_none_iff_forall_ne_some.trans (forall_congr' fun e => not_congr (h a e))

theorem findSome?_eq_none_iff_not_wrong (h : ∀ a e, f a = some e ↔ wrong a e) :
    l.findSome? f = none ↔ ∀ a ∈ l, ∀ e, ¬ wrong a e :=
  List.findSome?_eq_none_iff.trans (forall₂_congr fun a _ => eq_none_iff_not_wrong h a)

theorem findSome?_eq_some_iff_firstWrong (h : ∀ a e, f a = some e ↔ wrong a e) :
    l.findSome? f = some e ↔ FirstWrong wrong l e := by
  rw [List.findSome?_eq_some_iff]
  refine exists_congr fun before => exists_congr fun a => exists_congr fun later => ?_
  exact and_congr_right fun _ => and_congr (h a e) (forall₂_congr fun x _ => eq_none_iff_not_wrong h x)

end

/-- A guard fails, judged by what is stored: the list is at another version, the row is absent, or it is present. -/
inductive Guard.Fails (s : Store) (kind : Kind) : Guard → StoreError → Prop
  | version {owner : ExampleId} {expected : Nat} (other : s.version kind owner ≠ expected) :
      Fails s kind (.version owner expected) (.conflict kind owner expected (s.version kind owner))
  | present {id : ItemId} (missing : s.get? kind id = none) : Fails s kind (.present id) (.missingRow kind id)
  | absent {id : ItemId} {r : Record} (stored : s.get? kind id = some r) :
      Fails s kind (.absent id) (.rowExists kind id)

/-- The row names itself in one of its links. -/
def Record.Selfish (r : Record) : Prop := r.prev = some r.id ∨ r.next = some r.id ∨ r.parent = some r.id

/-- A row must not be put, judged by what is stored: it is of another kind, it names itself, or the row that is stored
under its id belongs to another example. Nothing is wrong with a deletion. -/
inductive Write.Fails (s : Store) (kind : Kind) : Write → StoreError → Prop
  | foreign {r : Record} (other : r.kind ≠ kind) : Fails s kind (.put r) (.kindMismatch r.id kind r.kind)
  | selfish {r : Record} (same : r.kind = kind) (self : r.Selfish) :
      Fails s kind (.put r) (.invariant s!"{kind} row {r.id} references itself")
  | moved {r old : Record} (same : r.kind = kind) (selfless : ¬ r.Selfish) (stored : s.get? kind r.id = some old)
      (other : old.owner ≠ r.owner) : Fails s kind (.put r) (.invariant
        s!"{kind} row {r.id} cannot move from example {old.owner} to {r.owner}")

/-- The row of a write was made to fail. -/
def Write.Injected (s : Store) (w : Write) (e : StoreError) : Prop :=
  w.id ∈ s.failing ∧ e = .backend s!"injected write failure for row {w.id}"

namespace Store

variable {s t : Store} {b : Batch} {e : StoreError} {kind : Kind}

/-- Why a batch is refused, judged by the store before it: one of its rows was made to fail; or else a guard fails; or
else a row must not be put. Told is the first in the order of the batch. -/
inductive Refuses (s : Store) (b : Batch) : StoreError → Prop
  | injected {e : StoreError} (first : FirstWrong (Write.Injected s) b.writes e) : Refuses s b e
  | guard {e : StoreError} (free : ∀ w ∈ b.writes, w.id ∉ s.failing)
      (first : FirstWrong (Guard.Fails s b.kind) b.guards e) : Refuses s b e
  | write {e : StoreError} (free : ∀ w ∈ b.writes, w.id ∉ s.failing)
      (guarded : ∀ g ∈ b.guards, ∀ e', ¬ Guard.Fails s b.kind g e')
      (first : FirstWrong (Write.Fails s b.kind) b.writes e) : Refuses s b e

theorem guardFault?_eq_some_iff (g : Guard) (e : StoreError) :
    (s.table kind).guardFault? kind g = some e ↔ g.Fails s kind e := by
  constructor
  · intro h
    cases g <;> rw [Table.guardFault?] at h <;> split at h <;> cases h
    next other => exact .version other
    next missing => exact .present (Option.not_isSome_iff_eq_none.1 missing)
    next stored =>
      obtain ⟨r, hr⟩ := Option.isSome_iff_exists.1 stored
      exact .absent hr
  · rintro (other | missing | stored)
    · exact if_neg other
    · exact if_neg (by rw [show (s.table kind).get? _ = none from missing]; simp)
    · exact if_pos (by rw [show (s.table kind).get? _ = some _ from stored]; rfl)

theorem namesItself_iff {r : Record} : Table.namesItself r = true ↔ r.Selfish := by
  simp [Table.namesItself, Record.Selfish, or_assoc]

theorem writeFault?_eq_some_iff (w : Write) (e : StoreError) :
    (s.table kind).writeFault? kind w = some e ↔ w.Fails s kind e := by
  constructor
  · intro h
    cases w with
    | delete id => cases h
    | put r =>
      rw [Table.writeFault?] at h
      split at h
      next other => cases h; exact .foreign other
      next same =>
        rw [not_not] at same
        split at h
        next self => cases h; exact .selfish same (namesItself_iff.1 self)
        next selfless =>
          split at h
          next => cases h
          next old stored =>
            split at h <;> cases h
            next other => exact .moved same (mt namesItself_iff.2 selfless) stored other
  · rintro (other | ⟨same, self⟩ | ⟨same, selfless, stored, other⟩)
    · exact if_pos other
    · exact (if_neg (not_not.2 same)).trans (if_pos (namesItself_iff.2 self))
    · refine (if_neg (not_not.2 same)).trans ((if_neg (mt namesItself_iff.1 selfless)).trans ?_)
      rw [show (s.table kind).get? _ = some _ from stored]
      exact if_neg other

theorem injected?_eq_findSome? (s : Store) (ws : List Write) : s.injected? ws = ws.findSome? fun w =>
    if w.id ∈ s.failing then some (.backend s!"injected write failure for row {w.id}") else none := by
  induction ws with
  | nil => rfl
  | cons w ws ih =>
    rw [injected?, List.find?_cons, List.findSome?_cons, ← ih]
    by_cases hw : w.id ∈ s.failing
    · simp only [Std.ExtTreeSet.mem_iff_contains.1 hw, if_pos hw, Option.map_some]
    · simp only [Bool.eq_false_iff.2 (mt Std.ExtTreeSet.mem_iff_contains.2 hw), if_neg hw, injected?]

theorem injected_iff (w : Write) (e : StoreError) : (if w.id ∈ s.failing then
    some (StoreError.backend s!"injected write failure for row {w.id}") else none) = some e ↔ w.Injected s e := by
  by_cases hw : w.id ∈ s.failing <;> simp [Write.Injected, hw, eq_comm]

/-- **A batch is refused** for the first thing that is wrong with it. -/
theorem fault?_eq_some_iff : s.fault? b = some e ↔ s.Refuses b e := by
  have hfree : s.injected? b.writes = none ↔ ∀ w ∈ b.writes, w.id ∉ s.failing := by
    rw [injected?_eq_findSome?, List.findSome?_eq_none_iff]
    refine forall₂_congr fun w _ => ?_
    by_cases hw : w.id ∈ s.failing <;> simp [hw]
  have hinjected : s.injected? b.writes = some e ↔ FirstWrong (Write.Injected s) b.writes e := by
    rw [injected?_eq_findSome?]
    exact findSome?_eq_some_iff_firstWrong injected_iff
  rw [fault?_eq, Option.or_eq_some_iff, Table.fault?, hinjected, hfree, Option.orElse_eq_orElse,
    Option.orElse_eq_or, Option.or_eq_some_iff, findSome?_eq_some_iff_firstWrong guardFault?_eq_some_iff,
    findSome?_eq_none_iff_not_wrong guardFault?_eq_some_iff, findSome?_eq_some_iff_firstWrong writeFault?_eq_some_iff]
  constructor
  · rintro (h | ⟨free, h | ⟨guarded, h⟩⟩)
    · exact .injected h
    · exact .guard free h
    · exact .write free guarded h
  · rintro (h | ⟨free, h⟩ | ⟨free, guarded, h⟩)
    · exact Or.inl h
    · exact Or.inr ⟨free, Or.inl h⟩
    · exact Or.inr ⟨free, Or.inr ⟨guarded, h⟩⟩

/-! ## What a batch leaves -/

/-- A batch was let through: one more is counted, and nothing else changed but the rows of its kind. Under each id that
it names stands what its last write of that id says, none if that is a deletion, and every other row stays. Scans of
examples and of the rows linked to a row find these rows. -/
structure Overwritten (s t : Store) (b : Batch) : Prop where
  commits : t.commits = s.commits + 1
  failing : t.failing = s.failing
  kinds : ∀ {kind}, kind ≠ b.kind → t.table kind = s.table kind
  rows : ∀ id, t.get? b.kind id = match (b.writes.filter (·.id = id)).getLast? with
    | some (.put r) => some r
    | some (.delete _) => none
    | none => s.get? b.kind id
  scans : ∀ (kind : Kind) (owner : ExampleId) (r : Record),
    r ∈ (t.scan kind owner).records ↔ t.get? kind r.id = some r ∧ r.owner = owner
  children : ∀ (kind : Kind) (parent : ItemId) (r : Record),
    r ∈ t.children kind parent ↔ t.get? kind r.id = some r ∧ r.parent = some parent

theorem Sound.overwritten (hs : s.Sound) (hf : s.fault? b = none) : s.Overwritten (s.accept b) b where
  commits := rfl
  failing := rfl
  kinds hk := by rw [table_accept, if_neg hk]
  rows id := by
    rw [get?, table_accept, if_pos rfl, Table.get?_apply, written_eq_getLast?]
    cases (b.writes.filter (·.id = id)).getLast? with
    | none => rfl
    | some w => cases w <;> rfl
  scans kind _ _ := (hs.accept (table_fault?_of_fault? hf) kind).mem_ofOwner
  children kind _ _ := (hs.accept (table_fault?_of_fault? hf) kind).mem_ofParent

/-- **A batch is refused, or it overwrites.** -/
theorem commit_cases (hs : s.Sound) (b : Batch) :
    (∃ e, s.Refuses b e ∧ s.commit b = .error e) ∨ ∃ t, (∀ e, ¬ s.Refuses b e) ∧ s.commit b = .ok t ∧
      s.Overwritten t b := by
  rw [commit_eq]
  cases hf : s.fault? b with
  | some e => exact Or.inl ⟨e, fault?_eq_some_iff.1 hf, rfl⟩
  | none =>
    refine Or.inr ⟨_, fun e he => ?_, rfl, hs.overwritten hf⟩
    rw [fault?_eq_some_iff.2 he] at hf
    cases hf

theorem Refuses.unique {e' : StoreError} (h : s.Refuses b e) (h' : s.Refuses b e') : e = e' :=
  Option.some.inj ((fault?_eq_some_iff.2 h).symm.trans (fault?_eq_some_iff.2 h'))

/-- A row that was made to fail is reported before anything else. -/
theorem refuses_backend_of_failing {w : Write} (hw : w ∈ b.writes) (hfail : w.id ∈ s.failing) :
    ∃ detail, s.Refuses b (.backend detail) := by
  cases hinjected : s.injected? b.writes with
  | none =>
    rw [injected?_eq_findSome?, List.findSome?_eq_none_iff] at hinjected
    exact absurd (hinjected w hw) (by simp [hfail])
  | some e =>
    obtain ⟨v, -, rfl⟩ := Option.map_eq_some_iff.1 hinjected
    exact ⟨_, fault?_eq_some_iff.1 (by rw [fault?_eq, hinjected, Option.some_or])⟩

/-- **A commit is an atomic update in which the last write wins.** Whatever was done to a store that started empty, a
batch is answered with an injected failure if one of its rows was made to fail, and it is refused exactly for what
`Refuses` says; then everything stays as it is. A batch that is not refused overwrites the rows. -/
theorem built_overwrites (cs : List Change) (registry : Registry) (supply : Nat → BitVec 128) (b : Batch) :
    ((∃ w ∈ b.writes, w.id ∈ (built cs).failing) →
      ∃ detail, (World.commit ⟨built cs, registry, supply⟩ b).1 = some (.backend detail)) ∧
    (∀ e, (World.commit ⟨built cs, registry, supply⟩ b).1 = some e ↔ (built cs).Refuses b e) ∧
    ((World.commit ⟨built cs, registry, supply⟩ b).1 ≠ none →
      (World.commit ⟨built cs, registry, supply⟩ b).2 = ⟨built cs, registry, supply⟩) ∧
    ((World.commit ⟨built cs, registry, supply⟩ b).1 = none →
      ∃ t, (World.commit ⟨built cs, registry, supply⟩ b).2 = ⟨t, registry, supply⟩ ∧
        (built cs).Overwritten t b) := by
  unfold World.commit
  rcases commit_cases (sound_built cs) b with ⟨e, hrefused, hcommit⟩ | ⟨t, hlet, hcommit, hover⟩
  · rw [hcommit]
    refine ⟨?_, fun e' => ⟨?_, fun he' => congrArg some (hrefused.unique he')⟩, fun _ => rfl, nofun⟩
    · rintro ⟨w, hw, hfail⟩
      obtain ⟨_, hv⟩ := refuses_backend_of_failing hw hfail
      exact ⟨_, congrArg some (hrefused.unique hv)⟩
    · rintro ⟨⟩
      exact hrefused
  · rw [hcommit]
    refine ⟨?_, fun e => ⟨nofun, fun he => absurd he (hlet e)⟩, fun h => absurd rfl h, fun _ => ⟨t, rfl, hover⟩⟩
    rintro ⟨w, hw, hfail⟩
    obtain ⟨_, hv⟩ := refuses_backend_of_failing hw hfail
    exact absurd hv (hlet _)

/-- A row that one batch stores, removes and stores again is the one that was put last. The same batch is
refused if it must find a row absent that is stored, before its writes are looked at, and if one of its rows was made
to fail, before its guards are. -/
theorem built_overwrites_refiling : ∃ t : Store,
    (World.commit ⟨built [.commit filing], {}, fun _ => 0⟩ refiling).2 = ⟨t, {}, fun _ => 0⟩ ∧
    t.commits = 2 ∧ t.get? .header ⟨2⟩ = some (slip ⟨2⟩ ⟨101⟩ none) ∧
    (World.commit ⟨built [.commit filing], {}, fun _ => 0⟩ { refiling with guards := [.absent ⟨1⟩] }).1 =
      some (.rowExists .header ⟨1⟩) ∧
    ∃ detail, (World.commit ⟨built [.commit filing, .failWrites ⟨2⟩], {}, fun _ => 0⟩
      { refiling with guards := [.absent ⟨1⟩] }).1 = some (.backend detail) := by
  obtain ⟨-, -, -, hlet⟩ := built_overwrites [.commit filing] {} (fun _ => 0) refiling
  obtain ⟨-, hrefused, -, -⟩ :=
    built_overwrites [.commit filing] {} (fun _ => 0) { refiling with guards := [.absent ⟨1⟩] }
  obtain ⟨hfailing, -, -, -⟩ := built_overwrites [.commit filing, .failWrites ⟨2⟩] {} (fun _ => 0)
    { refiling with guards := [.absent ⟨1⟩] }
  obtain ⟨t, ht, hover⟩ := hlet (by decide +kernel)
  refine ⟨t, ht, hover.commits, hover.rows ⟨2⟩, (hrefused _).2 (.guard ?_ ⟨[], _, [], rfl, ?_, nofun⟩), hfailing ?_⟩
  · decide +kernel
  · exact .absent (r := slip ⟨1⟩ ⟨100⟩ (some ⟨7⟩)) (by decide +kernel)
  · exact ⟨.put (slip ⟨2⟩ ⟨100⟩ none), by decide, by decide +kernel⟩

end Store

end ExampleOverlay
