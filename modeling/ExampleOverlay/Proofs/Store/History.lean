import ExampleOverlay.Proofs.Store.Lists
import Mathlib.Data.List.Induction

/-!
# The history of a store

Clients commit batches of any content to a store that starts empty; some are accepted and some refused, and
between them rows are made to fail. Whatever was done, the indexes list exactly the rows that are stored, and
scans find each of these once (`built_indexed`). The version of a list tells its content: it goes up by one with
every batch that touches the list and stands still otherwise, so a list that is at the same version at two
moments has the same rows at both (`built_versions`).
-/

namespace ExampleOverlay

/-- Something that is done to a store. -/
inductive Change where
  | commit (b : Batch)
  | failWrites (id : ItemId)
  | clearFailures

/-- The change is a commit, accepted or refused. -/
def Change.isCommit : Change → Bool
  | .commit _ => true
  | _ => false

/-- A row that is stored after writes was put by one of them, or it was there before. -/
theorem put_mem_or_of_written {ws : List Write} {id : ItemId} {old : Option Record} {r : Record}
    (h : written ws id old = some r) : Write.put r ∈ ws ∨ old = some r :=
  Store.owner_written (P := fun r => Write.put r ∈ ws ∨ old = some r) (fun _ hr => Or.inr hr)
    (fun _ hr => Or.inl hr) r h

namespace Table

variable {t : Table} {kind : Kind} {owner : ExampleId}

/-! ## Scans -/

theorem pairwise_ids {role : Role} (ix : Index role) (key : Ident role) :
    (ix.ids key).Pairwise fun a b => a.value.toNat < b.value.toNat :=
  (Std.ExtTreeSet.ordered_toList (t := ix.group key)).imp fun h => Nat.compare_eq_lt.1 h

/-- Where every id is stored, no id is dropped. -/
theorem map_id_filterMap_get? : ∀ {ids : List ItemId}, (∀ id ∈ ids, ∃ r, t.get? id = some r ∧ r.id = id) →
    (ids.filterMap t.get?).map (·.id) = ids
  | [], _ => rfl
  | id :: ids, h => by
    obtain ⟨r, hr, hid⟩ := h id (by simp)
    rw [List.filterMap_cons_some hr, List.map_cons, hid,
      map_id_filterMap_get? fun id' hid' => h id' (List.mem_cons_of_mem _ hid')]

/-! ## Lists that are left alone -/

/-- A row of a list that a batch does not touch is named by none of its writes. -/
theorem ne_of_untouched {b : Batch} (hf : t.fault? b = none) (ho : owner ∉ (t.writeAll [] b.writes).2)
    {id : ItemId} {r : Record} (hr : t.get? id = some r) (hro : r.owner = owner) : ∀ w ∈ b.writes, w.id ≠ id := by
  -- the first write of the id would touch the list: it finds the row as it was before the batch
  intro w hw hid
  obtain ⟨v, hv⟩ : ∃ v, b.writes.find? (·.id == id) = some v :=
    Option.isSome_iff_exists.1 (List.find?_isSome.2 ⟨w, hw, by simpa using hid⟩)
  obtain ⟨hvid, before, later, hws, hbefore⟩ := List.find?_eq_some_iff_append.1 hv
  have hvid : v.id = id := by simpa using hvid
  refine ho (mem_touched.2 (Or.inr ⟨before, v, later, hws, ?_⟩))
  cases v with
  | put p =>
    obtain ⟨-, -, hstays⟩ := writeFault?_put_eq_none_iff.1
      ((fault?_eq_none_iff.1 hf).2 _ (hws ▸ List.mem_append_right _ List.mem_cons_self))
    have hpid : p.id = id := hvid
    exact congrArg some ((hstays r (by rw [hpid]; exact hr)).symm.trans hro)
  | delete d =>
    obtain rfl : d = id := hvid
    have hsame : (t.writeAll [] before).1.get? d = some r := by
      rw [get?_writeAll, written_of_not_mem (fun u hu => by simpa using hbefore u hu), hr]
    simp [touched?, hsame, hro]

/-- **A list that a batch does not touch** keeps its rows. -/
theorem get?_apply_of_untouched {b : Batch} (hf : t.fault? b = none) (ho : owner ∉ (t.writeAll [] b.writes).2)
    (id : ItemId) (r : Record) (hr : r.owner = owner) : (t.apply b).get? id = some r ↔ t.get? id = some r := by
  rw [get?_apply]
  constructor
  · intro h
    refine (put_mem_or_of_written h).resolve_left fun hput => ho ?_
    obtain ⟨before, later, hws⟩ := List.append_of_mem hput
    exact mem_touched.2 (Or.inr ⟨before, .put r, later, hws, congrArg some hr⟩)
  · intro h
    rw [written_of_not_mem (ne_of_untouched hf ho h hr), h]

end Table

namespace Store

variable {s t u : Store} {kind : Kind} {owner : ExampleId} {b : Batch}

/-! ## Changes -/

/-- The store after a change; a batch that is refused changes nothing. -/
def after (s : Store) : Change → Store
  | .commit b => match s.commit b with
    | .ok t => t
    | .error _ => s
  | .failWrites id => s.failWrites id
  | .clearFailures => s.clearFailures

/-- The store that changes make of an empty one. -/
def built (cs : List Change) : Store := cs.foldl after {}

theorem built_append (cs ds : List Change) : built (cs ++ ds) = ds.foldl after (built cs) := List.foldl_append

theorem commit_eq_ok_iff : s.commit b = .ok t ↔ s.fault? b = none ∧ s.accept b = t := by
  rw [commit_eq]
  cases s.fault? b <;> simp

/-- A batch is accepted, or the tables stay as they are. -/
theorem after_cases (s : Store) (c : Change) :
    (∃ b, c = .commit b ∧ s.fault? b = none ∧ s.after c = s.accept b) ∨
      (s.after c).tables = s.tables ∧ (s.after c).commits = s.commits := by
  cases c with
  | commit b =>
    rw [after, commit_eq]
    cases hf : s.fault? b with
    | none => exact Or.inl ⟨b, rfl, hf, rfl⟩
    | some e => exact Or.inr ⟨rfl, rfl⟩
  | failWrites id => exact Or.inr ⟨rfl, rfl⟩
  | clearFailures => exact Or.inr ⟨rfl, rfl⟩

/-- What the tables do not let through is refused. -/
theorem table_fault?_of_fault? (h : s.fault? b = none) : (s.table b.kind).fault? b = none := by
  rw [fault?_eq, Option.or_eq_none_iff] at h
  exact h.2

theorem table_of_tables_eq (h : t.tables = s.tables) : t.table = s.table :=
  funext fun kind => congrArg (·.get kind) h

/-! ## The indexes -/

theorem Sound.after (hs : s.Sound) (c : Change) : (s.after c).Sound := by
  rcases after_cases s c with ⟨b, -, hf, heq⟩ | ⟨htables, -⟩
  · rw [heq]
    exact hs.accept (table_fault?_of_fault? hf)
  · intro kind
    rw [table_of_tables_eq htables]
    exact hs kind

theorem sound_built (cs : List Change) : (built cs).Sound := by
  induction cs using List.reverseRecOn with
  | nil => exact Sound.empty
  | append_singleton cs c ih =>
    rw [built_append]
    exact ih.after c

/-- **A row that stays stored keeps its example**, even if a batch removes it and stores it again. -/
theorem owner_after (hs : s.Sound) (c : Change) {id : ItemId} {r r' : Record} (hr : s.get? kind id = some r)
    (hr' : (s.after c).get? kind id = some r') : r'.owner = r.owner := by
  have hid' : r'.id = id := ((hs.after c kind).keyed hr').1
  rcases after_cases s c with ⟨b, -, hf, heq⟩ | ⟨htables, -⟩
  · rw [heq, get?, table_accept] at hr'
    split at hr'
    next hk =>
      subst hk
      rw [Table.get?_apply] at hr'
      have hfault := (Table.fault?_eq_none_iff.1 (table_fault?_of_fault? hf)).2
      -- every write that puts the row is judged by the row before the batch
      refine owner_written (P := fun p => p.id = id → p.owner = r.owner) (fun old hold _ => ?_)
        (fun p hp hid => ?_) r' hr' hid'
      · rw [← Option.some.inj (hr.symm.trans hold)]
      · obtain ⟨-, -, hstays⟩ := Table.writeFault?_put_eq_none_iff.1 (hfault _ hp)
        exact (hstays r (by rw [hid]; exact hr)).symm
    · rw [← Option.some.inj (hr.symm.trans hr')]
  · rw [get?, table_of_tables_eq htables] at hr'
    rw [← Option.some.inj (hr.symm.trans hr')]

/-- The rows found are all the rows stored with a property, each once, in ascending order of their ids, which
are the ids that an index lists. -/
structure Finds (s : Store) (kind : Kind) (P : Record → Prop) (ids : List ItemId) (found : List Record) :
    Prop where
  mem : ∀ r, r ∈ found ↔ s.get? kind r.id = some r ∧ P r
  ascending : found.Pairwise fun a b => a.id.value.toNat < b.id.value.toNat
  complete : found.map (·.id) = ids

/-- An index that lists exactly the rows with a property finds them. -/
theorem Sound.finds (hs : s.Sound) {role : Role} {ix : Index role} {key : Ident role} {P : Record → Prop}
    (hix : ∀ {id}, id ∈ ix.group key ↔ ∃ r, s.get? kind id = some r ∧ P r)
    (hmem : ∀ {r}, r ∈ (ix.ids key).filterMap (s.table kind).get? ↔ s.get? kind r.id = some r ∧ P r) :
    s.Finds kind P (ix.ids key) ((ix.ids key).filterMap (s.table kind).get?) := by
  have hids : ((ix.ids key).filterMap (s.table kind).get?).map (·.id) = ix.ids key := by
    refine Table.map_id_filterMap_get? fun id hid => ?_
    obtain ⟨r, hr, -⟩ := hix.1 (Index.mem_ids.1 hid)
    exact ⟨r, hr, ((hs kind).keyed hr).1⟩
  refine ⟨fun r => hmem, ?_, hids⟩
  have hascending := Table.pairwise_ids ix key
  rw [← hids, List.pairwise_map] at hascending
  exact hascending

/-- **The indexes list exactly the rows stored.** Whatever was done to a store that started empty: each row
stands under its own kind and id and names itself in none of its links; the index by example lists exactly the
rows of each example, the index by parent exactly the rows linked to each row, and no key is left with an empty
group; whatever is done next, a row that is stored before and after it keeps its example; and a scan of an
example, or of the rows linked to a row, finds exactly these rows, each once, in ascending order of their ids,
and drops none that is listed. -/
theorem built_indexed (cs : List Change) :
    (built cs).Sound ∧
    (∀ (c : Change) (kind : Kind) (id : ItemId) (r r' : Record), (built cs).get? kind id = some r →
      ((built cs).after c).get? kind id = some r' → r'.owner = r.owner) ∧
    ∀ kind : Kind,
      (∀ owner : ExampleId, (built cs).Finds kind (fun r => r.owner = owner)
        (((built cs).table kind).byOwner.ids owner) ((built cs).scan kind owner).records) ∧
      ∀ parent : ItemId, (built cs).Finds kind (fun r => r.parent = some parent)
        (((built cs).table kind).byParent.ids parent) ((built cs).children kind parent) := by
  have hs := sound_built cs
  refine ⟨hs, fun c kind id r r' => owner_after hs c, fun kind => ⟨fun owner => ?_, fun parent => ?_⟩⟩
  · exact hs.finds (hs kind).byOwner (hs kind).mem_ofOwner
  · exact hs.finds (hs kind).byParent (hs kind).mem_ofParent

/-- A header under an id, with no neighbours. -/
def slip (id : ItemId) (owner : ExampleId) (parent : Option ItemId) : Record :=
  ⟨.header, id, owner, parent, none, none, false, .null⟩

/-- A row is stored that is linked to another one. -/
def filing : Batch := { kind := .header, writes := [.put (slip ⟨1⟩ ⟨100⟩ (some ⟨7⟩))] }

/-- The row is removed and stored again without its link, and a second row is stored, removed, and stored for
another example. -/
def refiling : Batch :=
  { kind := .header
    writes := [.delete ⟨1⟩, .put (slip ⟨1⟩ ⟨100⟩ none), .put (slip ⟨2⟩ ⟨100⟩ none), .delete ⟨2⟩,
      .put (slip ⟨2⟩ ⟨101⟩ none)] }

/-- A row that one batch removes and stores again keeps its example. -/
theorem built_indexed_refiling : ∃ r r' : Record, (built [.commit filing]).get? .header ⟨1⟩ = some r ∧
    ((built [.commit filing]).after (.commit refiling)).get? .header ⟨1⟩ = some r' ∧
      r.parent = some ⟨7⟩ ∧ r'.parent = none ∧ r'.owner = r.owner := by
  obtain ⟨-, hkeeps, -⟩ := built_indexed [.commit filing]
  have hr : (built [.commit filing]).get? .header ⟨1⟩ = some (slip ⟨1⟩ ⟨100⟩ (some ⟨7⟩)) := by decide
  have hr' : ((built [.commit filing]).after (.commit refiling)).get? .header ⟨1⟩ =
      some (slip ⟨1⟩ ⟨100⟩ none) := by decide
  exact ⟨_, _, hr, hr', rfl, rfl, hkeeps _ _ _ _ _ hr hr'⟩

/-! ## Versions -/

/-- A batch changes the list of an example: one of its puts names the example, or one of its deletes finds a row
of it, stored before the batch or by an earlier write of it. -/
def Touches (s : Store) (b : Batch) (owner : ExampleId) : Prop :=
  ∃ before w later, b.writes = before ++ w :: later ∧
    match w with
    | .put r => r.owner = owner
    | .delete id => ∃ r, written before id (s.get? b.kind id) = some r ∧ r.owner = owner

theorem touches_iff : s.Touches b owner ↔ owner ∈ ((s.table b.kind).writeAll [] b.writes).2 := by
  rw [Table.mem_touched]
  refine Iff.trans ?_ (or_iff_right List.not_mem_nil).symm
  refine exists_congr fun before => exists_congr fun w => exists_congr fun later => and_congr_right fun _ => ?_
  cases w with
  | put r => exact Option.some_inj.symm
  | delete id =>
    rw [Table.touched?, Table.get?_writeAll]
    exact Option.map_eq_some_iff.symm

open Classical in
/-- **The versions after a batch** are one higher for the lists it touches. -/
theorem version_accept (s : Store) (b : Batch) (kind : Kind) (owner : ExampleId) :
    (s.accept b).version kind owner =
      s.version kind owner + if kind = b.kind ∧ s.Touches b owner then 1 else 0 := by
  rw [version, table_accept]
  by_cases hk : kind = b.kind
  · subst hk
    simp only [if_true, Table.version_apply, touches_iff, true_and]
    rfl
  · simp [hk, version]

/-- **A list that a batch does not touch** is left alone. -/
theorem Sound.scan_accept_of_not_touches (hs : s.Sound) (hf : s.fault? b = none)
    (h : kind = b.kind → ¬ s.Touches b owner) : (s.accept b).scan kind owner = s.scan kind owner := by
  have hf' := table_fault?_of_fault? hf
  by_cases hk : kind = b.kind
  · have ho := mt touches_iff.2 (h hk)
    have hversion : (s.accept b).version kind owner = s.version kind owner := by
      rw [version_accept, if_neg fun htouches => h hk htouches.2, Nat.add_zero]
    have hrows : ((s.accept b).table kind).ofOwner owner = (s.table kind).ofOwner owner := by
      refine (hs.accept hf' kind).ofOwner_congr (hs kind) fun id r hr => ?_
      rw [table_accept, if_pos hk, hk]
      exact Table.get?_apply_of_untouched hf' ho id r hr
    rw [scan, scan, hrows]
    exact congrArg _ hversion
  · rw [scan, scan, table_accept, if_neg hk]

/-- Lists only move on: versions never go down, and a list whose version stands still is the same. -/
structure Advances (s t : Store) : Prop where
  le : ∀ kind owner, s.version kind owner ≤ t.version kind owner
  scans : ∀ {kind owner}, t.version kind owner = s.version kind owner → t.scan kind owner = s.scan kind owner

theorem Advances.refl (s : Store) : s.Advances s := ⟨fun _ _ => Nat.le_refl _, fun _ => rfl⟩

theorem Advances.trans (h : s.Advances t) (h' : t.Advances u) : s.Advances u where
  le kind owner := Nat.le_trans (h.le kind owner) (h'.le kind owner)
  scans {kind owner} he := by
    have h₁ := h.le kind owner
    have h₂ := h'.le kind owner
    rw [h'.scans (by omega), h.scans (by omega)]

theorem Sound.advances_accept (hs : s.Sound) (hf : s.fault? b = none) : s.Advances (s.accept b) := by
  refine ⟨fun kind owner => ?_, fun {kind owner} he => ?_⟩
  · rw [version_accept]
    exact Nat.le_add_right _ _
  · refine hs.scan_accept_of_not_touches hf fun hk htouches => ?_
    rw [version_accept, if_pos ⟨hk, htouches⟩] at he
    omega

theorem Sound.advances_after (hs : s.Sound) (c : Change) : s.Advances (s.after c) := by
  rcases after_cases s c with ⟨b, -, hf, heq⟩ | ⟨htables, -⟩
  · rw [heq]
    exact hs.advances_accept hf
  · have htable := table_of_tables_eq htables
    exact ⟨fun kind owner => Nat.le_of_eq (by rw [version, version, htable]), fun _ => by rw [scan, scan, htable]⟩

theorem Sound.advances_foldl (hs : s.Sound) (cs : List Change) : s.Advances (cs.foldl Store.after s) := by
  induction cs generalizing s with
  | nil => exact .refl s
  | cons c cs ih => exact (hs.advances_after c).trans (ih (hs.after c))

theorem advances_built_take (cs : List Change) {i j : Nat} (h : i ≤ j) :
    (built (cs.take i)).Advances (built (cs.take j)) := by
  obtain ⟨n, rfl⟩ := Nat.exists_eq_add_of_le h
  rw [List.take_add, built_append]
  exact (sound_built _).advances_foldl _

/-- A change accepts at most one batch, and then no version goes up by more than one. -/
theorem version_after_le (h : s.version kind owner ≤ s.commits) (c : Change) :
    (s.after c).version kind owner ≤ (s.after c).commits := by
  rcases after_cases s c with ⟨b, -, -, heq⟩ | ⟨htables, hcommits⟩
  · have hcount : (s.accept b).commits = s.commits + 1 := rfl
    rw [heq, version_accept, hcount]
    split <;> omega
  · rw [version, table_of_tables_eq htables, hcommits]
    exact h

theorem commits_after_le (s : Store) (c : Change) :
    (s.after c).commits ≤ s.commits + if c.isCommit then 1 else 0 := by
  rcases after_cases s c with ⟨b, rfl, -, heq⟩ | ⟨-, hcommits⟩
  · rw [heq]
    exact Nat.le_refl _
  · rw [hcommits]
    exact Nat.le_add_right _ _

/-- No list is at a higher version than batches were accepted, nor were more accepted than committed. -/
theorem version_built_le (cs : List Change) (kind : Kind) (owner : ExampleId) :
    (built cs).version kind owner ≤ (built cs).commits ∧ (built cs).commits ≤ cs.countP Change.isCommit := by
  induction cs using List.reverseRecOn with
  | nil => simp [built, version, table_empty, Table.version]
  | append_singleton cs c ih =>
    have hcommits := commits_after_le (built cs) c
    rw [built_append, List.countP_append, List.countP_singleton]
    exact ⟨version_after_le ih.1 c, Nat.le_trans hcommits (Nat.add_le_add_right ih.2 _)⟩

/-- **The version of a list tells its content.** Whatever was done to a store that started empty, the version of
a list never went down; a batch that is accepted next raises the versions of the lists it touches by exactly one
and leaves every other list alone; and where the list of an example was scanned at the same version at two
moments, the rows were the same. Versions count batches: none is higher than the number of commits. -/
theorem built_versions (cs : List Change) :
    (∀ (kind : Kind) (owner : ExampleId) (i j : Nat), i ≤ j →
      ((built (cs.take i)).scan kind owner).version ≤ ((built (cs.take j)).scan kind owner).version) ∧
    (∀ (b : Batch) (t : Store), (built cs).commit b = .ok t →
      (∀ owner : ExampleId, (built cs).Touches b owner →
        (t.scan b.kind owner).version = ((built cs).scan b.kind owner).version + 1) ∧
      ∀ (kind : Kind) (owner : ExampleId), (kind = b.kind → ¬ (built cs).Touches b owner) →
        t.scan kind owner = (built cs).scan kind owner) ∧
    (∀ (kind : Kind) (owner : ExampleId) (i j : Nat),
      ((built (cs.take i)).scan kind owner).version = ((built (cs.take j)).scan kind owner).version →
        ((built (cs.take i)).scan kind owner).records = ((built (cs.take j)).scan kind owner).records) ∧
    ∀ (kind : Kind) (owner : ExampleId),
      ((built cs).scan kind owner).version ≤ cs.countP Change.isCommit := by
  refine ⟨fun kind owner i j hij => (advances_built_take cs hij).le kind owner, fun b t hcommit => ?_,
    fun kind owner i j he => ?_, fun kind owner => ?_⟩
  · obtain ⟨hf, rfl⟩ := commit_eq_ok_iff.1 hcommit
    refine ⟨fun owner htouches => ?_, fun kind owner => (sound_built cs).scan_accept_of_not_touches hf⟩
    exact (version_accept ..).trans (congrArg _ (if_pos ⟨rfl, htouches⟩))
  · rcases Nat.le_total i j with hij | hij
    · rw [(advances_built_take cs hij).scans he.symm]
    · rw [(advances_built_take cs hij).scans he]
  · obtain ⟨hversion, hcommits⟩ := version_built_le cs kind owner
    exact Nat.le_trans hversion hcommits

/-- One batch removes rows that were stored before it and rows of its own, and raises the version of each list
that it touches once. -/
theorem built_versions_refiling : ∃ t : Store, (built [.commit filing]).commit refiling = .ok t ∧
    (t.scan .header ⟨100⟩).version = 2 ∧ (t.scan .header ⟨101⟩).version = 1 ∧
      t.scan .query ⟨100⟩ = (built [.commit filing]).scan .query ⟨100⟩ := by
  obtain ⟨-, hcommit, -⟩ := built_versions [.commit filing]
  have haccepted : (built [.commit filing]).commit refiling = .ok ((built [.commit filing]).accept refiling) :=
    commit_eq_ok_iff.2 ⟨by decide, rfl⟩
  obtain ⟨hraised, hkept⟩ := hcommit refiling _ haccepted
  refine ⟨_, haccepted, ?_, ?_, hkept .query ⟨100⟩ fun hk => absurd hk (by decide)⟩
  · exact hraised ⟨100⟩ ⟨[], .delete ⟨1⟩, _, rfl, slip ⟨1⟩ ⟨100⟩ (some ⟨7⟩), by decide, rfl⟩
  · exact hraised ⟨101⟩ ⟨refiling.writes.take 4, .put (slip ⟨2⟩ ⟨101⟩ none), [], rfl, rfl⟩

end Store

end ExampleOverlay
