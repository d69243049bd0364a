import ExampleOverlay.Proofs.Runs.Editing
import Mathlib.Logic.Function.Basic

/-!
# Edits of rows

Seen as rows, leaving their places aside, an append puts one row under a new id, a removal clears one id, a
move changes nothing and a change in place replaces one row (`Session.Rewrites`). An edit that is planned is
made, unless one of the rows it writes was made to fail: then it is refused and nothing is written. In a
session in which no row is made to fail every edit that is planned is made.
-/

namespace ExampleOverlay.Session

open Chain Program

variable {k : Kind} {s t u : Session} {owner : ExampleId} {items items' : List (Item k)} {α : Type}

/-- The rows that are stored say what `rows` says, rows of other kinds say what they said, and nothing else
happened. -/
structure Rewrites (s t : Session) (rows : ItemId → Option (Item k)) : Prop where
  sane : t.Sane
  registry : t.world.registry = s.world.registry
  failing : t.store.failing = s.store.failing
  minted : t.minted = s.minted
  rows : t.store.bare? k = rows
  kinds : ∀ {k'}, k' ≠ k → t.store.bare? k' = s.store.bare? k'

theorem Rewrites.refl (hs : s.Sane) : s.Rewrites s (s.store.bare? k) := ⟨hs, rfl, rfl, rfl, rfl, fun _ => rfl⟩

theorem Turned.rewrites (hs : s.Sane) (h : s.Turned t owner items items')
    (hids : ∀ id ∈ idsOf items', id ∈ idsOf items ∨ id ∈ s.minted) {rows : ItemId → Option (Item k)}
    (hrows : ∀ id, t.store.bare? k id = rows id) : s.Rewrites t rows where
  sane := h.sane hs hids
  registry := by rw [h.eq]; rfl
  failing := h.turned.failing
  minted := by rw [h.eq]; rfl
  rows := funext hrows
  kinds hk := funext (h.turned.bare?_of_ne hk)

/-- Where nothing is made to fail, a commit goes through. -/
theorem Commits.turned {p : Program α} {a : α} {sp : Splice k} {present : List ItemId}
    (h : s.Commits p a owner items sp present items')
    (hcalm : s.store.failing = ∅) : ∃ t, s.run p = (.ok a, t) ∧ s.Turned t owner items items' := by
  rcases h with ⟨hb, -⟩ | ⟨-, h⟩
  · exact absurd hb (Store.Blocked.of_failing_empty hcalm)
  · exact ⟨_, h⟩

/-! ## The edits -/

theorem rewrites_append (hs : s.Sane) (hcalm : s.store.failing = ∅) (limit : Nat) (item : Item k)
    (hself : item.parent ≠ some item.id) (hid : item.id ∈ s.minted) (hnew : s.store.get? k item.id = none) :
    ∃ stored t, s.run (Editing.append limit item) = (.ok stored, t) ∧ stored.bare = item.bare ∧
      s.Rewrites t (Function.update (s.store.bare? k) item.id (some item.bare)) := by
  obtain ⟨items, h⟩ := hs.ordered.lists k item.owner
  obtain ⟨stored, hbare, hc⟩ := commits_append hs.ordered limit h hself hnew
  obtain ⟨t, hrun, ht⟩ := hc.turned hcalm
  refine ⟨stored, t, hrun, hbare, ht.rewrites hs (fun id hmem => ?_) fun id => ?_⟩
  · rw [idsOf_link, idsOf, List.map_append, List.mem_append] at hmem
    exact hmem.imp (fun h => h) fun h => by rw [List.mem_singleton.1 h]; exact hid
  · rw [ht.turned.bare?_append h, Function.update_apply]
    by_cases he : id = item.id
    · subst he; simp
    · simp [he, Ne.symm he]

/-- A stored row is removed, unless a row was made to fail. -/
theorem outcome_remove (hs : s.Sane) (limit : Nat) {id : ItemId} {item : Item k}
    (hitem : s.store.item? k id = some item) :
    (s.store.failing ≠ ∅ ∧ ∃ e, s.run (Editing.remove limit k id) = (.error (.store (.backend e)), s)) ∨
      ∃ t, s.run (Editing.remove limit k id) = (.ok item, t) ∧
        s.Rewrites t (Function.update (s.store.bare? k) id none) := by
  obtain ⟨items, h⟩ := hs.ordered.lists k item.owner
  obtain ⟨sp, -, -, hc⟩ := commits_remove hs.ordered limit hitem h
  rcases hc with ⟨hb, hrun⟩ | ⟨-, hrun, ht⟩
  · exact Or.inl ⟨fun hcalm => Store.Blocked.of_failing_empty hcalm hb, hrun⟩
  have hmem : id ∈ idsOf items :=
    hs.ordered.id_of_item? hitem ▸ List.mem_map_of_mem (h.mem_of_item? hs.ordered hitem rfl)
  refine Or.inr ⟨_, hrun, ht.rewrites hs (fun id' hid' => Or.inl ?_) fun id' => ?_⟩
  · rw [idsOf_link] at hid'
    exact (List.filter_sublist.map _).subset hid'
  · rw [ht.turned.bare?_remove h hmem, Function.update_apply]

theorem rewrites_remove (hs : s.Sane) (hcalm : s.store.failing = ∅) (limit : Nat) {id : ItemId} {item : Item k}
    (hitem : s.store.item? k id = some item) : ∃ t, s.run (Editing.remove limit k id) = (.ok item, t) ∧
      s.Rewrites t (Function.update (s.store.bare? k) id none) :=
  (outcome_remove hs limit hitem).resolve_left fun h => h.1 hcalm

theorem rewrites_move (hs : s.Sane) (hcalm : s.store.failing = ∅) (limit : Nat) (k : Kind) (owner : ExampleId)
    (id target : ItemId) (side : Side) : ∃ r t, s.run (Editing.move limit k owner id target side) = (r, t) ∧
      s.Rewrites t (s.store.bare? k) := by
  obtain ⟨items, h⟩ := hs.ordered.lists k owner
  cases moves_move hs.ordered limit h id target side with
  | refused e hrun => exact ⟨_, s, hrun, .refl hs⟩
  | inPlace hrun => exact ⟨_, s, hrun, .refl hs⟩
  | relinked order perm hc =>
    obtain ⟨t, hrun, ht⟩ := hc.turned hcalm
    refine ⟨_, t, hrun, ht.rewrites hs (fun id' hid' => Or.inl ?_) (ht.turned.bare?_relink h perm)⟩
    rw [idsOf_link] at hid'
    exact (perm.map _).subset hid'

/-- A row that an edit stores anew is replaced in its list, unless it was made to fail. -/
theorem turned_modify (hs : s.Sane) (limit : Nat) {id : ItemId} {x edited : Item k}
    {edit : Item k → Except EngineError (Item k × Bool)} (hedit : Sure edit)
    (hx : s.store.item? k id = some x) (he : edit x = .ok (edited, true)) (h : s.store.Holds x.owner items) :
    (id ∈ s.store.failing ∧ ∃ e, s.run (Editing.modify limit id edit) = (.error (.store (.backend e)), s)) ∨
      id ∉ s.store.failing ∧ ∃ t, s.run (Editing.modify limit id edit) = (.ok edited, t) ∧
        s.Turned t x.owner items (replaced items edited) := by
  have hid : edited.id = id := (hedit.inPlace x edited he).1.trans (hs.ordered.id_of_item? hx)
  have hblocked : s.store.Blocked { puts := [edited] } ↔ id ∈ s.store.failing := by
    simp [Store.Blocked, idsOf, hid]
  rcases commits_modify hs.ordered limit hedit.inPlace hx he (hedit.selfless hs.ordered hx he) h with
    ⟨hb, hrun⟩ | ⟨hb, hrun, ht⟩
  · exact Or.inl ⟨hblocked.1 hb, hrun⟩
  · exact Or.inr ⟨mt hblocked.2 hb, _, hrun, ht⟩

theorem turned_modify_of_calm (hs : s.Sane) (hcalm : s.store.failing = ∅) (limit : Nat) {id : ItemId}
    {x edited : Item k} {edit : Item k → Except EngineError (Item k × Bool)} (hedit : Sure edit)
    (hx : s.store.item? k id = some x) (he : edit x = .ok (edited, true)) (h : s.store.Holds x.owner items) :
    ∃ t, s.run (Editing.modify limit id edit) = (.ok edited, t) ∧ s.Turned t x.owner items (replaced items edited) :=
  ((turned_modify hs limit hedit hx he h).resolve_left fun hfail =>
    Std.ExtTreeSet.not_mem_empty (hcalm ▸ hfail.1)).2

/-- A row that an edit stores anew is replaced, unless it was made to fail; one that it does not store stays
as it is. -/
theorem outcome_modify (hs : s.Sane) (limit : Nat) {id : ItemId} {x edited : Item k} {store : Bool}
    {edit : Item k → Except EngineError (Item k × Bool)} (hedit : Sure edit)
    (hx : s.store.item? k id = some x) (he : edit x = .ok (edited, store)) :
    (store = true ∧ id ∈ s.store.failing ∧
        ∃ e, s.run (Editing.modify limit id edit) = (.error (.store (.backend e)), s)) ∨
      (store = true → id ∉ s.store.failing) ∧ ∃ t, s.run (Editing.modify limit id edit) = (.ok edited, t) ∧
        s.Rewrites t
          (if store then Function.update (s.store.bare? k) id (some edited.bare) else s.store.bare? k) := by
  cases store with
  | false => exact Or.inr ⟨by simp, s, run_modify_of_same hs.ordered limit hx he, .refl hs⟩
  | true =>
    obtain ⟨items, h⟩ := hs.ordered.lists k x.owner
    have hid : edited.id = id := (hedit.inPlace x edited he).1.trans (hs.ordered.id_of_item? hx)
    rcases turned_modify hs limit hedit hx he h with hrefused | ⟨hfree, t, hrun, ht⟩
    · exact Or.inl ⟨rfl, hrefused⟩
    have hmem : edited.id ∈ idsOf items := by
      rw [(hedit.inPlace x edited he).1]; exact List.mem_map_of_mem (h.mem_of_item? hs.ordered hx rfl)
    refine Or.inr ⟨fun _ => hfree, t, hrun, ht.rewrites hs (fun id' hid' => Or.inl ?_) fun id' => ?_⟩
    · rwa [idsOf_replaced] at hid'
    · rw [ht.turned.bare?_replace h hmem, if_pos rfl, Function.update_apply, hid]

theorem rewrites_modify (hs : s.Sane) (hcalm : s.store.failing = ∅) (limit : Nat) {id : ItemId}
    {x edited : Item k} {store : Bool} {edit : Item k → Except EngineError (Item k × Bool)}
    (hedit : Sure edit) (hx : s.store.item? k id = some x) (he : edit x = .ok (edited, store)) :
    ∃ t, s.run (Editing.modify limit id edit) = (.ok edited, t) ∧
      s.Rewrites t
        (if store then Function.update (s.store.bare? k) id (some edited.bare) else s.store.bare? k) := by
  rcases outcome_modify hs limit hedit hx he with ⟨-, hfail, -⟩ | ⟨-, h⟩
  · rw [hcalm] at hfail
    exact absurd hfail Std.ExtTreeSet.not_mem_empty
  · exact h

end ExampleOverlay.Session
