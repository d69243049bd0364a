import ExampleOverlay.Proofs.Store.History
import ExampleOverlay.World

/-!
# Independent batches

Two batches are independent when neither names what the other writes: they write different rows, no guard of one
asks for a row of the other, and neither guards the version of a list that the other touches
(`Store.Independent`). They may still touch the same lists, and rows with the same parent. Each of them is then
answered as if the other had not been committed (`Store.Spares.fault?_accept`), and they leave the same store in
both orders: the same rows, since no id is written by both; the same versions, since each list goes up once for
each batch that touches it; and the same indexes, since a sound table keeps no empty group and so is determined by
its rows and versions (`Table.Sound.eq_of_get?`). Main statement: `Store.built_commute`.
-/

namespace ExampleOverlay

/-- An index without empty groups is determined by what stands under its keys. -/
theorem Index.eq_of_mem_group {role : Role} {ix ix' : Index role} (h : ix.NoEmpty) (h' : ix'.NoEmpty)
    (hmem : ∀ key id, id ∈ ix.group key ↔ id ∈ ix'.group key) : ix = ix' := by
  ext key : 1
  have hgroup : ix.group key = ix'.group key := Std.ExtTreeSet.ext_mem (hmem key)
  have hne := h key
  have hne' := h' key
  unfold Index.group at hgroup
  cases hk : ix[key]? <;> cases hk' : ix'[key]? <;> simp_all

namespace Table

variable {t t' : Table} {kind : Kind} {b c : Batch}

/-! ## What a table is determined by -/

theorem Sound.eq_of_get? (h : t.Sound kind) (h' : t'.Sound kind) (hrows : ∀ id, t.get? id = t'.get? id)
    (hversions : ∀ owner : ExampleId, t.versions[owner]? = t'.versions[owner]?) : t = t' := by
  have hr : t.rows = t'.rows := Std.ExtTreeMap.ext_getElem? hrows
  have ho : t.byOwner = t'.byOwner := by
    refine Index.eq_of_mem_group h.noEmptyOwner h'.noEmptyOwner fun owner id => ?_
    rw [h.byOwner, h'.byOwner, hrows]
  have hp : t.byParent = t'.byParent := by
    refine Index.eq_of_mem_group h.noEmptyParent h'.noEmptyParent fun parent id => ?_
    rw [h.byParent, h'.byParent, hrows]
  have hv : t.versions = t'.versions := Std.ExtTreeMap.ext_getElem? hversions
  cases t; cases t'
  simp_all

theorem versions_foldl_bump : ∀ {owners : List ExampleId} (t : Table) (owner : ExampleId), owners.Nodup →
    (owners.foldl bump t).versions[owner]? =
      if owner ∈ owners then some (t.version owner + 1) else t.versions[owner]?
  | [], _, _, _ => by simp
  | o :: owners, t, owner, h => by
    rw [List.nodup_cons] at h
    rw [List.foldl_cons, versions_foldl_bump (t.bump o) owner h.2, version_bump]
    by_cases ho : o = owner
    · subst ho
      simp [h.1, bump]
    · simp [ho, Ne.symm ho, bump, Std.ExtTreeMap.getElem?_insert]

theorem versions_writeAll : ∀ (t : Table) (touched : List ExampleId) (ws : List Write),
    (t.writeAll touched ws).1.versions = t.versions
  | _, _, [] => rfl
  | t, _, w :: ws => by
    rw [writeAll, versions_writeAll]
    cases w <;> simp only [write, put, index, delete] <;> split <;> rfl

/-- A list that a batch touches is given a version, one higher than before. -/
theorem versions_apply (t : Table) (b : Batch) (owner : ExampleId) : (t.apply b).versions[owner]? =
    if owner ∈ (t.writeAll [] b.writes).2 then some (t.version owner + 1) else t.versions[owner]? := by
  have h := versions_foldl_bump (t.writeAll [] b.writes).1 owner (nodup_touched (t := t) b.writes List.nodup_nil)
  rwa [version_writeAll, versions_writeAll] at h

/-! ## What a batch is judged by -/

theorem guardFault?_congr {g : Guard} (hrows : ∀ id, g = .present id ∨ g = .absent id → t.get? id = t'.get? id)
    (hversions : ∀ owner n, g = .version owner n → t.version owner = t'.version owner) :
    t.guardFault? kind g = t'.guardFault? kind g := by
  cases g with
  | version owner n => simp [guardFault?, hversions owner n rfl]
  | present id => simp [guardFault?, hrows id (.inl rfl)]
  | absent id => simp [guardFault?, hrows id (.inr rfl)]

theorem writeFault?_congr {w : Write} (hrow : t.get? w.id = t'.get? w.id) :
    t.writeFault? kind w = t'.writeFault? kind w := by
  cases w with
  | put r =>
    have hr : t.get? r.id = t'.get? r.id := hrow
    simp only [writeFault?, hr]
  | delete id => rfl

/-- A batch is judged by the rows that it names and the versions that it guards. -/
theorem fault?_congr (hguards : ∀ id, .present id ∈ b.guards ∨ .absent id ∈ b.guards → t.get? id = t'.get? id)
    (hversions : ∀ owner n, .version owner n ∈ b.guards → t.version owner = t'.version owner)
    (hwrites : ∀ w ∈ b.writes, t.get? w.id = t'.get? w.id) : t.fault? b = t'.fault? b := by
  have hg : b.guards.filterMap (t.guardFault? b.kind) = b.guards.filterMap (t'.guardFault? b.kind) := by
    refine List.filterMap_congr fun g hg => guardFault?_congr (fun id hid => hguards id ?_) fun owner n hv => ?_
    · rcases hid with rfl | rfl
      · exact .inl hg
      · exact .inr hg
    · subst hv
      exact hversions owner n hg
  have hw : b.writes.filterMap (t.writeFault? b.kind) = b.writes.filterMap (t'.writeFault? b.kind) :=
    List.filterMap_congr fun w hw => writeFault?_congr (hwrites w hw)
  simp only [fault?, ← List.head?_filterMap, hg, hw]

end Table

namespace Store

variable {s t : Store} {b c : Batch} {owner : ExampleId}

/-! ## Independence -/

/-- What a batch writes is nothing that another batch of its kind names: no row that it stores or removes is written
by the other or asked for by one of its guards, and no list that it touches is one whose version the other guards. -/
structure Spares (s : Store) (b c : Batch) : Prop where
  writes : ∀ w ∈ b.writes, ∀ v ∈ c.writes, v.id ≠ w.id
  present : ∀ w ∈ b.writes, .present w.id ∉ c.guards
  absent : ∀ w ∈ b.writes, .absent w.id ∉ c.guards
  lists : ∀ owner n, .version owner n ∈ c.guards → ¬ s.Touches b owner

/-- Neither of two batches names what the other writes. Batches of different kinds never do. -/
def Independent (s : Store) (b c : Batch) : Prop := b.kind = c.kind → s.Spares b c ∧ s.Spares c b

theorem Independent.symm (h : s.Independent b c) : s.Independent c b := fun hk => (h hk.symm).symm

/-! ## After another batch -/

theorem get?_accept (s : Store) (b : Batch) (id : ItemId) :
    (s.accept b).get? b.kind id = written b.writes id (s.get? b.kind id) := by
  rw [get?, table_accept, if_pos rfl, Table.get?_apply]
  rfl

/-- A row that a batch does not write stays. -/
theorem get?_accept_of_ne {id : ItemId} (h : ∀ w ∈ b.writes, w.id ≠ id) :
    (s.accept b).get? b.kind id = s.get? b.kind id := by
  rw [get?_accept, written_of_not_mem h]

/-- Which lists a batch touches depends on the rows that it writes. -/
theorem Touches.congr (hrows : ∀ w ∈ c.writes, s.get? c.kind w.id = t.get? c.kind w.id) :
    s.Touches c owner ↔ t.Touches c owner := by
  refine exists_congr fun before => exists_congr fun w => exists_congr fun later => and_congr_right fun hws => ?_
  cases w with
  | put r => rfl
  | delete id =>
    have hid : s.get? c.kind id = t.get? c.kind id := hrows (.delete id) (by simp [hws])
    simp only [hid]

theorem Spares.touches_accept (h : s.Spares b c) (hk : b.kind = c.kind) :
    (s.accept b).Touches c owner ↔ s.Touches c owner := by
  refine Touches.congr fun w hw => ?_
  rw [← hk]
  exact get?_accept_of_ne fun v hv => (h.writes v hv w hw).symm

/-- **A batch is answered as before** when another one that spares it has been let through. -/
theorem Spares.fault?_accept (h : s.Spares b c) (hk : b.kind = c.kind) : (s.accept b).fault? c = s.fault? c := by
  have htable : ((s.accept b).table c.kind).fault? c = (s.table c.kind).fault? c := by
    refine Table.fault?_congr (fun id hid => ?_) (fun owner n hv => ?_) fun w hw => ?_
    · have hne : ∀ w ∈ b.writes, w.id ≠ id := by
        rintro w hw rfl
        exact hid.elim (h.present w hw) (h.absent w hw)
      exact hk ▸ get?_accept_of_ne hne
    · have hversion := version_accept s b c.kind owner
      rw [if_neg fun ht => h.lists owner n hv ht.2, Nat.add_zero] at hversion
      exact hversion
    · exact hk ▸ get?_accept_of_ne fun v hv => (h.writes v hv w hw).symm
  rw [fault?_eq, fault?_eq, htable]
  rfl

theorem Independent.fault?_accept (h : s.Independent b c) : (s.accept b).fault? c = s.fault? c := by
  by_cases hk : b.kind = c.kind
  · exact (h hk).1.fault?_accept hk
  · rw [fault?_eq, fault?_eq, table_accept, if_neg fun hk' => hk hk'.symm]
    rfl

/-! ## Both orders -/

/-- No id is written twice, so the writes of both orders leave the same row under it. -/
theorem written_comm {ws vs : List Write} (hne : ∀ w ∈ ws, ∀ v ∈ vs, v.id ≠ w.id) (id : ItemId)
    (old : Option Record) : written ws id (written vs id old) = written vs id (written ws id old) := by
  by_cases hid : ∃ w ∈ ws, w.id = id
  · obtain ⟨w, hw, rfl⟩ := hid
    rw [written_of_not_mem (hne w hw), written_of_not_mem (hne w hw)]
  · rw [not_exists] at hid
    rw [written_of_not_mem fun w hw he => hid w ⟨hw, he⟩, written_of_not_mem fun w hw he => hid w ⟨hw, he⟩]

open Classical in
/-- A list that a batch touches is given a version, one higher than before. -/
theorem versions_accept (s : Store) (b : Batch) (owner : ExampleId) :
    ((s.accept b).table b.kind).versions[owner]? =
      if s.Touches b owner then some (s.version b.kind owner + 1) else (s.table b.kind).versions[owner]? := by
  rw [table_accept, if_pos rfl, Table.versions_apply]
  simp only [touches_iff]
  rfl

/-- Each list goes up once for each of the two batches that touches it, in either order. -/
theorem versions_comm (hb : s.Spares b c) (hc : s.Spares c b) (hk : b.kind = c.kind) (owner : ExampleId) :
    (((s.accept b).accept c).table c.kind).versions[owner]? =
      (((s.accept c).accept b).table c.kind).versions[owner]? := by
  have hleft := versions_accept (s.accept b) c owner
  have hright := versions_accept (s.accept c) b owner
  have hfirst := versions_accept s b owner
  have hsecond := versions_accept s c owner
  rw [hk] at hright hfirst
  rw [hleft, hright, hfirst, hsecond, version_accept, version_accept, hb.touches_accept hk, hc.touches_accept hk.symm]
  by_cases htb : s.Touches b owner <;> by_cases htc : s.Touches c owner <;> simp [htb, htc, hk]

/-- The rows of both orders are the same, and with them the indexes. -/
theorem Sound.table_comm (hs : ((s.accept b).accept c).Sound) (hs' : ((s.accept c).accept b).Sound)
    (hb : s.Spares b c) (hc : s.Spares c b) (hk : b.kind = c.kind) :
    ((s.accept b).accept c).table c.kind = ((s.accept c).accept b).table c.kind := by
  refine (hs c.kind).eq_of_get? (hs' c.kind) (fun id => ?_) (versions_comm hb hc hk)
  show ((s.accept b).accept c).get? c.kind id = ((s.accept c).accept b).get? c.kind id
  have hfirst := get?_accept s b id
  have hsecond := get?_accept (s.accept c) b id
  rw [hk] at hfirst hsecond
  rw [get?_accept, hfirst, hsecond, get?_accept, written_comm hb.writes]

/-- **Independent batches that are let through** leave the same store in both orders. -/
theorem Sound.accept_comm (hs : s.Sound) (h : s.Independent b c) (hb : s.fault? b = none) (hc : s.fault? c = none) :
    (s.accept b).accept c = (s.accept c).accept b := by
  have hleft : ((s.accept b).accept c).Sound :=
    (hs.accept (table_fault?_of_fault? hb)).accept (table_fault?_of_fault? (h.fault?_accept.trans hc))
  have hright : ((s.accept c).accept b).Sound :=
    (hs.accept (table_fault?_of_fault? hc)).accept (table_fault?_of_fault? (h.symm.fault?_accept.trans hb))
  have htables : ((s.accept b).accept c).tables = ((s.accept c).accept b).tables := by
    ext kind : 1
    show ((s.accept b).accept c).table kind = ((s.accept c).accept b).table kind
    by_cases hk : b.kind = c.kind
    · by_cases hkind : kind = c.kind
      · subst hkind
        exact hleft.table_comm hright (h hk).1 (h hk).2 hk
      · simp [table_accept, hk, hkind]
    · simp only [table_accept]
      by_cases hkb : kind = b.kind <;> by_cases hkc : kind = c.kind <;> simp_all
  exact congrArg (fun tables => ({ s with tables, commits := s.commits + 1 + 1 } : Store)) htables

theorem Sound.after_comm (hs : s.Sound) (h : s.Independent b c) :
    (s.after (.commit b)).after (.commit c) = (s.after (.commit c)).after (.commit b) := by
  have hafter : ∀ (t : Store) (b : Batch), t.after (.commit b) = if t.fault? b = none then t.accept b else t := by
    intro t b
    rw [Store.after, commit_eq]
    cases t.fault? b <;> rfl
  by_cases hb : s.fault? b = none <;> by_cases hc : s.fault? c = none <;>
    simp [hafter, hb, hc, h.fault?_accept, h.symm.fault?_accept, hs.accept_comm h]

theorem Independent.fault?_after (h : s.Independent b c) : (s.after (.commit b)).fault? c = s.fault? c := by
  rw [Store.after, commit_eq]
  cases s.fault? b with
  | none => exact h.fault?_accept
  | some e => rfl

theorem world_commit (registry : Registry) (supply : Nat → BitVec 128) (s : Store) (b : Batch) :
    World.commit ⟨s, registry, supply⟩ b = (s.fault? b, ⟨s.after (.commit b), registry, supply⟩) := by
  rw [World.commit, after, commit_eq]
  cases s.fault? b <;> rfl

/-- **Independent batches commute.** Whatever was done to a store that started empty, two batches of which neither
names what the other writes are each answered alike in both orders, accepted or refused for the same reason, and
leave the same store: the same rows, indexes and versions. -/
theorem built_commute (cs : List Change) (registry : Registry) (supply : Nat → BitVec 128) {b c : Batch}
    (h : (built cs).Independent b c) :
    ((World.commit ⟨built cs, registry, supply⟩ c).2.commit b).1 = (World.commit ⟨built cs, registry, supply⟩ b).1 ∧
    ((World.commit ⟨built cs, registry, supply⟩ b).2.commit c).1 = (World.commit ⟨built cs, registry, supply⟩ c).1 ∧
    ((World.commit ⟨built cs, registry, supply⟩ b).2.commit c).2 =
      ((World.commit ⟨built cs, registry, supply⟩ c).2.commit b).2 := by
  simp only [world_commit]
  refine ⟨h.symm.fault?_after, h.fault?_after, ?_⟩
  rw [(sound_built cs).after_comm h]

/-- A second row is linked to the parent of the one that is filed, if the list of another example is as it was. -/
def joining : Batch :=
  { kind := .header
    guards := [.version ⟨200⟩ 0, .absent ⟨3⟩]
    writes := [.put (slip ⟨2⟩ ⟨100⟩ (some ⟨7⟩))] }

/-- The row that is filed is removed. -/
def leaving : Batch := { kind := .header, guards := [.present ⟨1⟩], writes := [.delete ⟨1⟩] }

theorem independent_joining_leaving : (built [.commit filing]).Independent joining leaving := by
  refine fun _ => ⟨⟨by decide, by decide, by decide, ?_⟩, ⟨by decide, by decide, by decide, ?_⟩⟩
  · simp [leaving]
  · intro owner n hv
    obtain ⟨rfl, rfl⟩ : owner = ⟨200⟩ ∧ n = 0 := by simpa [joining] using hv
    rw [touches_iff]
    decide

/-- The last row linked to a parent goes and another one comes: in one order the parent is left without rows in
between, in the other it is not. -/
theorem built_commute_joining : ∃ w : World,
    ((World.commit ⟨built [.commit filing], {}, fun _ => 0⟩ joining).2.commit leaving).2 = w ∧
    ((World.commit ⟨built [.commit filing], {}, fun _ => 0⟩ leaving).2.commit joining).2 = w ∧
    w.store.children .header ⟨7⟩ = [slip ⟨2⟩ ⟨100⟩ (some ⟨7⟩)] ∧ (w.store.scan .header ⟨100⟩).version = 3 := by
  obtain ⟨-, -, hsame⟩ := built_commute [.commit filing] {} (fun _ => 0) independent_joining_leaving
  exact ⟨_, rfl, hsame.symm, by decide +kernel, by decide +kernel⟩

end Store

end ExampleOverlay
