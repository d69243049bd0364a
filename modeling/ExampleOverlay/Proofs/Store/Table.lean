import ExampleOverlay.Store.Table
import Mathlib.Data.List.Nodup
import Mathlib.Data.List.Basic

/-!
# Tables under writes

What writes do to the rows, the indexes and the versions of a table. The rows after a batch are given
by the last write that names each id (`get?_writeAll`), the versions by the lists touched
(`version_apply`). A table is `Sound` when rows stand under their own ids and both indexes list
exactly the rows that are stored; batches that pass the judgement keep it so (`Sound.apply`), and the
scans of a sound table find each row once (`mem_ofOwner`, `mem_ofParent`).
-/

namespace ExampleOverlay

/-- The row under the id of a write after it. -/
def Write.stored : Write → Option Record
  | .put r => some r
  | .delete _ => none

/-- The row under an id after writes, from the row before them: the last write of the id decides. -/
def written (ws : List Write) (id : ItemId) (old : Option Record) : Option Record :=
  ws.foldl (fun old w => if w.id = id then w.stored else old) old

theorem written_cons (w : Write) (ws : List Write) (id : ItemId) (old : Option Record) :
    written (w :: ws) id old = written ws id (if w.id = id then w.stored else old) := rfl

theorem written_append (ws vs : List Write) (id : ItemId) (old : Option Record) :
    written (ws ++ vs) id old = written vs id (written ws id old) := List.foldl_append

/-- An id that no write names keeps its row. -/
theorem written_of_not_mem : ∀ {ws : List Write} {id : ItemId} {old : Option Record},
    (∀ w ∈ ws, w.id ≠ id) → written ws id old = old
  | [], _, _, _ => rfl
  | w :: ws, id, old, h => by
    rw [written_cons, if_neg (h w (by simp)), written_of_not_mem fun v hv => h v (List.mem_cons_of_mem _ hv)]

namespace Table

variable {t t' : Table} {kind : Kind}

/-! ## Rows -/

@[simp] theorem get?_empty (id : ItemId) : get? {} id = none := by simp [get?]

theorem get?_delete (t : Table) (id id' : ItemId) :
    (t.delete id).get? id' = if id = id' then none else t.get? id' := by
  unfold delete
  cases h : t.get? id with
  | none =>
    by_cases hid : id = id'
    · subst hid; simp [h]
    · simp [hid]
  | some old =>
    simp only [get?, Std.ExtTreeMap.getElem?_erase, Std.LawfulEqCmp.compare_eq_iff_eq]

theorem get?_put (t : Table) (r : Record) (id : ItemId) :
    (t.put r).get? id = if r.id = id then some r else t.get? id := by
  have h := get?_delete t r.id id
  simp only [get?] at h
  simp only [put, get?, Std.ExtTreeMap.getElem?_insert, Std.LawfulEqCmp.compare_eq_iff_eq, index, h]
  split <;> rfl

theorem get?_write (t : Table) (w : Write) (id : ItemId) :
    (t.write w).get? id = if w.id = id then w.stored else t.get? id := by
  cases w with
  | put r => exact get?_put t r id
  | delete id' => exact get?_delete t id' id

/-- **The rows after writes**: the last write of an id decides. -/
theorem get?_writeAll : ∀ (t : Table) (touched : List ExampleId) (ws : List Write) (id : ItemId),
    (t.writeAll touched ws).1.get? id = written ws id (t.get? id)
  | _, _, [], _ => rfl
  | t, touched, w :: ws, id => by
    rw [writeAll, get?_writeAll, get?_write, written_cons]

/-- Raising versions changes nothing else. -/
theorem foldl_bump (p : Table → Prop) (hp : ∀ t owner, p t → p (t.bump owner)) :
    ∀ (owners : List ExampleId) (t : Table), p t → p (owners.foldl bump t)
  | [], _, h => h
  | owner :: owners, t, h => foldl_bump p hp owners (t.bump owner) (hp t owner h)

theorem get?_apply (t : Table) (b : Batch) (id : ItemId) :
    (t.apply b).get? id = written b.writes id (t.get? id) := by
  rw [← get?_writeAll t [] b.writes]
  exact foldl_bump (fun t' => t'.get? id = (t.writeAll [] b.writes).1.get? id) (fun _ _ h => h) _ _ rfl

/-! ## Versions -/

@[simp] theorem version_write (t : Table) (w : Write) (owner : ExampleId) :
    (t.write w).version owner = t.version owner := by
  have hd : ∀ id, (t.delete id).version owner = t.version owner := by
    intro id
    unfold delete
    split <;> rfl
  cases w with
  | put r => exact hd r.id
  | delete id => exact hd id

theorem version_writeAll : ∀ (t : Table) (touched : List ExampleId) (ws : List Write) (owner : ExampleId),
    (t.writeAll touched ws).1.version owner = t.version owner
  | _, _, [], _ => rfl
  | t, _, w :: ws, owner => by rw [writeAll, version_writeAll, version_write]

theorem version_bump (t : Table) (owner owner' : ExampleId) :
    (t.bump owner).version owner' = t.version owner' + if owner = owner' then 1 else 0 := by
  simp only [version, bump, Std.ExtTreeMap.getElem?_insert, Std.LawfulEqCmp.compare_eq_iff_eq]
  by_cases h : owner = owner'
  · subst h; simp
  · simp [h]

theorem version_foldl_bump : ∀ {owners : List ExampleId} (t : Table) (owner : ExampleId), owners.Nodup →
    (owners.foldl bump t).version owner = t.version owner + if owner ∈ owners then 1 else 0
  | [], t, owner, _ => by simp
  | o :: owners, t, owner, h => by
    rw [List.nodup_cons] at h
    rw [List.foldl_cons, version_foldl_bump (t.bump o) owner h.2, version_bump]
    by_cases ho : o = owner
    · subst ho; simp [h.1]
    · simp [ho, Ne.symm ho]

theorem nodup_touched : ∀ {t : Table} {touched : List ExampleId} (ws : List Write), touched.Nodup →
    (t.writeAll touched ws).2.Nodup
  | _, _, [], h => h
  | t, touched, w :: ws, h => by
    rw [writeAll]
    refine nodup_touched ws ?_
    cases t.touched? w with
    | none => exact h
    | some owner => exact h.insert

/-- **The versions after a batch** are one higher for the lists it touched. -/
theorem version_apply (t : Table) (b : Batch) (owner : ExampleId) :
    (t.apply b).version owner = t.version owner + if owner ∈ (t.writeAll [] b.writes).2 then 1 else 0 := by
  rw [← version_writeAll t [] b.writes owner]
  exact version_foldl_bump _ owner (nodup_touched b.writes List.nodup_nil)

/-- The rows that are written do not depend on the lists touched before. -/
theorem writeAll_fst : ∀ (t : Table) (ws : List Write) (x y : List ExampleId),
    (t.writeAll x ws).1 = (t.writeAll y ws).1
  | _, [], _, _ => rfl
  | t, w :: ws, x, y => by
    rw [writeAll, writeAll]
    exact writeAll_fst (t.write w) ws _ _

/-- The lists touched are those of the writes, each judged by the table it is made on. -/
theorem mem_touched : ∀ {t : Table} {touched : List ExampleId} {ws : List Write} {owner : ExampleId},
    owner ∈ (t.writeAll touched ws).2 ↔
      owner ∈ touched ∨ ∃ a w b, ws = a ++ w :: b ∧ (t.writeAll [] a).1.touched? w = some owner
  | t, touched, [], owner => by simp [writeAll]
  | t, touched, w :: ws, owner => by
    rw [writeAll, mem_touched]
    have hins : owner ∈ (t.touched? w).elim touched (touched.insert ·) ↔
        owner ∈ touched ∨ t.touched? w = some owner := by
      cases t.touched? w with
      | none => simp
      | some o => simp [List.mem_insert_iff, or_comm, eq_comm]
    rw [hins]
    constructor
    · rintro ((h | h) | ⟨a, v, b, rfl, h⟩)
      · exact Or.inl h
      · exact Or.inr ⟨[], w, ws, rfl, h⟩
      · refine Or.inr ⟨w :: a, v, b, rfl, ?_⟩
        rw [writeAll, writeAll_fst (t.write w) a _ []]
        exact h
    · rintro (h | ⟨a, v, b, he, h⟩)
      · exact Or.inl (Or.inl h)
      · cases a with
        | nil =>
          obtain ⟨rfl, rfl⟩ := List.cons.inj he
          exact Or.inl (Or.inr h)
        | cons x a =>
          obtain ⟨rfl, rfl⟩ := List.cons.inj he
          rw [writeAll, writeAll_fst (t.write w) a _ []] at h
          exact Or.inr ⟨a, v, b, rfl, h⟩

/-! ## Soundness -/

/-- Rows stand under their own ids and name others alone, and both indexes list exactly the rows
that are stored. -/
structure Sound (kind : Kind) (t : Table) : Prop where
  keyed : ∀ {id r}, t.get? id = some r → r.id = id ∧ r.kind = kind ∧ namesItself r = false
  byOwner : ∀ {owner id}, id ∈ t.byOwner.group owner ↔ ∃ r, t.get? id = some r ∧ r.owner = owner
  byParent : ∀ {parent id}, id ∈ t.byParent.group parent ↔ ∃ r, t.get? id = some r ∧ r.parent = some parent
  noEmptyOwner : t.byOwner.NoEmpty
  noEmptyParent : t.byParent.NoEmpty

theorem Sound.empty (kind : Kind) : Sound kind {} where
  keyed h := by simp at h
  byOwner := by simp
  byParent := by simp
  noEmptyOwner := Index.noEmpty_empty
  noEmptyParent := Index.noEmpty_empty

theorem Sound.bump (h : Sound kind t) (owner : ExampleId) : Sound kind (t.bump owner) where
  keyed := h.keyed
  byOwner := h.byOwner
  byParent := h.byParent
  noEmptyOwner := h.noEmptyOwner
  noEmptyParent := h.noEmptyParent

theorem Sound.delete (h : Sound kind t) (id : ItemId) : Sound kind (t.delete id) := by
  have hget := get?_delete t id
  unfold Table.delete at hget ⊢
  cases hold : t.get? id with
  | none => exact h
  | some old =>
    simp only [hold] at hget ⊢
    have hid : old.id = id := (h.keyed hold).1
    refine ⟨fun {id' r} hr => ?_, fun {owner id'} => ?_, fun {parent id'} => ?_, ?_, ?_⟩
    · rw [hget] at hr
      split at hr
      · simp at hr
      · exact h.keyed hr
    · simp only [hget]
      rw [unindex, Index.mem_remove, h.byOwner, hid]
      by_cases hid' : id = id'
      · subst hid'
        simp only [hold, Option.some.injEq, exists_eq_left', and_true, if_true, reduceCtorEq, false_and,
          exists_false,
          iff_false]
        rintro ⟨rfl, h'⟩; exact h' rfl
      · simp [hid', Ne.symm hid']
    · simp only [hget]
      have hkeep : id' ∈ t.byParent.group parent ∧ ¬ (old.parent = some parent ∧ id' = id) ↔
          ∃ r, (if id = id' then none else t.get? id') = some r ∧ r.parent = some parent := by
        rw [h.byParent]
        by_cases hid' : id = id'
        · subst hid'
          simp only [hold, Option.some.injEq, exists_eq_left', and_true, if_true, reduceCtorEq, false_and,
            exists_false, iff_false]
          rintro ⟨hp, h'⟩; exact h' hp
        · simp [hid', Ne.symm hid']
      rw [← hkeep]
      cases hp : old.parent with
      | none => simp [unindex, hp]
      | some p =>
        simp only [unindex, hp, Index.mem_remove, hid, Option.some.injEq]
        rw [eq_comm (a := p)]
    · exact Index.noEmpty_remove h.noEmptyOwner _ _
    · cases hp : old.parent with
      | none => simpa [unindex, hp] using h.noEmptyParent
      | some p => simpa [unindex, hp] using Index.noEmpty_remove h.noEmptyParent p old.id

theorem Sound.put (h : Sound kind t) {r : Record} (hk : r.kind = kind) (hs : namesItself r = false) :
    Sound kind (t.put r) := by
  have hget := get?_put t r
  have hd := h.delete r.id
  have hgd := get?_delete t r.id
  refine ⟨fun {id' s} hr => ?_, fun {owner id'} => ?_, fun {parent id'} => ?_, ?_, ?_⟩
  · rw [hget] at hr
    split at hr
    next hid => cases hr; exact ⟨hid, hk, hs⟩
    · exact h.keyed hr
  · simp only [hget]
    show id' ∈ Index.group (Index.add _ _ _) _ ↔ _
    rw [Index.mem_add, hd.byOwner, hgd]
    by_cases hid' : r.id = id'
    · subst hid'; simp [eq_comm]
    · simp [hid', Ne.symm hid']
  · simp only [hget]
    show id' ∈ Index.group ((t.delete r.id).index r).byParent _ ↔ _
    have hadd : id' ∈ ((t.delete r.id).index r).byParent.group parent ↔
        r.parent = some parent ∧ id' = r.id ∨ id' ∈ (t.delete r.id).byParent.group parent := by
      cases hp : r.parent with
      | none => simp [index, hp]
      | some p =>
        simp only [index, hp, Index.mem_add, Option.some.injEq]
        rw [eq_comm (a := p)]
    rw [hadd, hd.byParent, hgd]
    by_cases hid' : r.id = id'
    · subst hid'; simp
    · simp [hid', Ne.symm hid']
  · exact Index.noEmpty_add hd.noEmptyOwner _ _
  · show Index.NoEmpty ((t.delete r.id).index r).byParent
    cases hp : r.parent with
    | none => simpa [index, hp] using hd.noEmptyParent
    | some p => simpa [index, hp] using Index.noEmpty_add hd.noEmptyParent p r.id

/-- A write that is allowed by itself: one of another kind, or one that names itself, is not. -/
def Proper (kind : Kind) : Write → Prop
  | .put r => r.kind = kind ∧ namesItself r = false
  | .delete _ => True

theorem Sound.writeAll : ∀ {t : Table} {touched : List ExampleId} {ws : List Write}, Sound kind t →
    (∀ w ∈ ws, Proper kind w) → Sound kind (t.writeAll touched ws).1
  | _, _, [], h, _ => h
  | t, touched, w :: ws, h, hp => by
    rw [Table.writeAll]
    refine Sound.writeAll ?_ fun v hv => hp v (List.mem_cons_of_mem _ hv)
    cases w with
    | put r =>
      obtain ⟨hk, hs⟩ := hp (.put r) (by simp)
      exact h.put hk hs
    | delete id => exact h.delete id

theorem writeFault?_put_eq_none_iff {r : Record} : t.writeFault? kind (.put r) = none ↔
    r.kind = kind ∧ namesItself r = false ∧ ∀ old, t.get? r.id = some old → old.owner = r.owner := by
  simp only [writeFault?]
  by_cases hk : r.kind = kind
  · by_cases hs : namesItself r = true
    · simp [hk, hs]
    · cases hold : t.get? r.id with
      | none => simp [hk, hs]
      | some old => by_cases ho : old.owner = r.owner <;> simp [hk, hs, ho]
  · simp [hk]

theorem fault?_eq_none_iff {b : Batch} : t.fault? b = none ↔
    (∀ g ∈ b.guards, t.guardFault? b.kind g = none) ∧ ∀ w ∈ b.writes, t.writeFault? b.kind w = none := by
  rw [← List.findSome?_eq_none_iff, ← List.findSome?_eq_none_iff, fault?]
  cases b.guards.findSome? (t.guardFault? b.kind) <;> simp

theorem proper_of_fault?_eq_none {b : Batch} (h : t.fault? b = none) : ∀ w ∈ b.writes, Proper b.kind w := by
  intro w hw
  cases w with
  | delete id => exact True.intro
  | put r =>
    obtain ⟨hk, hs, -⟩ := writeFault?_put_eq_none_iff.1 ((fault?_eq_none_iff.1 h).2 _ hw)
    exact ⟨hk, hs⟩

/-- **A batch that passes keeps a table sound.** -/
theorem Sound.apply (h : Sound b.kind t) (hf : t.fault? b = none) : Sound b.kind (t.apply b) :=
  foldl_bump _ (fun _ owner ht => ht.bump owner) _ _ (h.writeAll (proper_of_fault?_eq_none hf))

/-! ## Scans -/

theorem nodup_ids {role : Role} (ix : Index role) (key : Ident role) : (ix.ids key).Nodup := by
  refine List.Pairwise.imp (fun {a b} hab h => hab ?_) (Std.ExtTreeSet.distinct_toList (t := ix.group key))
  rw [h]; exact Std.ReflCmp.compare_self

theorem Sound.mem_ofOwner (h : Sound kind t) {owner : ExampleId} {r : Record} :
    r ∈ t.ofOwner owner ↔ t.get? r.id = some r ∧ r.owner = owner := by
  rw [ofOwner, List.mem_filterMap]
  constructor
  · rintro ⟨id, hid, hr⟩
    obtain ⟨s, hs, ho⟩ := h.byOwner.1 (Index.mem_ids.1 hid)
    rw [hr, Option.some.injEq] at hs
    subst hs
    rw [(h.keyed hr).1]
    exact ⟨hr, ho⟩
  · rintro ⟨hr, ho⟩
    exact ⟨r.id, Index.mem_ids.2 (h.byOwner.2 ⟨r, hr, ho⟩), hr⟩

theorem Sound.mem_ofParent (h : Sound kind t) {parent : ItemId} {r : Record} :
    r ∈ t.ofParent parent ↔ t.get? r.id = some r ∧ r.parent = some parent := by
  rw [ofParent, List.mem_filterMap]
  constructor
  · rintro ⟨id, hid, hr⟩
    obtain ⟨s, hs, ho⟩ := h.byParent.1 (Index.mem_ids.1 hid)
    rw [hr, Option.some.injEq] at hs
    subst hs
    rw [(h.keyed hr).1]
    exact ⟨hr, ho⟩
  · rintro ⟨hr, ho⟩
    exact ⟨r.id, Index.mem_ids.2 (h.byParent.2 ⟨r, hr, ho⟩), hr⟩

theorem nodup_filterMap_get? {ids : List ItemId} (hnd : ids.Nodup)
    (hkey : ∀ id r, t.get? id = some r → r.id = id) :
    ((ids.filterMap t.get?).map (·.id)).Nodup := by
  have hsub : ((ids.filterMap t.get?).map (·.id)).Sublist ids := by
    induction ids with
    | nil => exact .slnil
    | cons id ids ih =>
      rw [List.filterMap_cons]
      cases hr : t.get? id with
      | none => exact (ih (List.nodup_cons.1 hnd).2).cons id
      | some r =>
        rw [List.map_cons, hkey id r hr]
        exact (ih (List.nodup_cons.1 hnd).2).cons_cons id
  exact hnd.sublist hsub

theorem Sound.nodup_ofOwner (h : Sound kind t) (owner : ExampleId) : ((t.ofOwner owner).map (·.id)).Nodup :=
  nodup_filterMap_get? (nodup_ids _ _) fun _ _ hr => (h.keyed hr).1

theorem Sound.nodup_ofParent (h : Sound kind t) (parent : ItemId) : ((t.ofParent parent).map (·.id)).Nodup :=
  nodup_filterMap_get? (nodup_ids _ _) fun _ _ hr => (h.keyed hr).1

/-- A scan depends on the rows of its example alone. -/
theorem Sound.ofOwner_congr (h : Sound kind t) (h' : Sound kind t') {owner : ExampleId}
    (hr : ∀ id r, r.owner = owner → (t.get? id = some r ↔ t'.get? id = some r)) :
    t.ofOwner owner = t'.ofOwner owner := by
  have hids : t.byOwner.ids owner = t'.byOwner.ids owner := by
    refine congrArg Std.ExtTreeSet.toList (Std.ExtTreeSet.ext_mem fun id => ?_)
    rw [h.byOwner, h'.byOwner]
    exact exists_congr fun r => and_congr_left fun ho => hr id r ho
  rw [ofOwner, ofOwner, hids]
  refine List.filterMap_congr fun id hid => ?_
  obtain ⟨r, hget, ho⟩ := h'.byOwner.1 (Index.mem_ids.1 hid)
  rw [hget, (hr id r ho).2 hget]

end Table

end ExampleOverlay
