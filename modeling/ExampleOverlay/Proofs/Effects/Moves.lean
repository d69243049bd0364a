import ExampleOverlay.Proofs.Chain.Moves
import ExampleOverlay.Proofs.Crowds.Footprint
import ExampleOverlay.Proofs.Runs.Calm

/-!
# What a move does

What comes of a move is judged by the rows that are stored and by where the row stands in the list
(`Store.moveVerdict`): the ids are compared first, then the row is looked up, then its target, and a row that stands
beside its target already is left there. A move that is made erases the row and inserts it again by one commit; no
other list is touched, and no row says anything else (`Session.Relocated`).
-/

namespace ExampleOverlay

open Chain Program

variable {k : Kind}

instance (items : List (Item k)) (id target : ItemId) : (side : Side) → Decidable (StandsBeside items id target side)
  | .before => inferInstanceAs (Decidable ([id, target] <:+: idsOf items))
  | .after => inferInstanceAs (Decidable ([target, id] <:+: idsOf items))

namespace Store

variable {s : Store} {owner : ExampleId} {items : List (Item k)} {id target : ItemId} {side : Side}

/-- A row is stored under the id for the example. -/
def StoredFor (s : Store) (kind : Kind) (owner : ExampleId) (id : ItemId) : Prop :=
  ∃ r ∈ s.get? kind id, r.owner = owner

instance (s : Store) (kind : Kind) (owner : ExampleId) (id : ItemId) : Decidable (s.StoredFor kind owner id) :=
  inferInstanceAs (Decidable (∃ r ∈ s.get? kind id, r.owner = owner))

/-- What comes of a move in a list: why it is refused, or whether the row has to be moved. -/
def moveVerdict (s : Store) (list : Chain k) (id target : ItemId) (side : Side) : Except EngineError Bool :=
  if id = target then .error (.selfReferentialMove id)
  else if s.get? k id = none then .error (.notFound k id)
  else if ¬ s.StoredFor k list.owner id then .error (.exampleMismatch k id list.owner)
  else if ¬ s.StoredFor k list.owner target then .error (.invalidTarget target list.owner)
  else .ok (decide ¬ StandsBeside list.items id target side)

/-- The ids of a list are those under which a row is stored for its example. -/
theorem Holds.mem_ids_iff (hs : s.Sound) (h : s.Holds owner items) : id ∈ idsOf items ↔ s.StoredFor k owner id := by
  constructor
  · intro hid
    obtain ⟨i, hi, rfl⟩ := List.mem_map.1 hid
    exact ⟨_, h.get?_of_mem hi, h.owned i hi⟩
  · rintro ⟨r, hr, ho⟩
    obtain ⟨hid, -, -⟩ := (hs k).keyed hr
    obtain ⟨i, hi, rfl⟩ := (h.stored r).1 ⟨by rw [hid]; exact hr, ho⟩
    exact hid ▸ List.mem_map_of_mem hi

end Store

namespace Session

variable {s t : Session} {owner : ExampleId} {items order : List (Item k)} {id target : ItemId} {side : Side}

/-- A row was moved by one commit: it was erased from the list and inserted again next to its target. No other list
has changed, no row says anything else, its place aside, and nothing else happened. -/
structure Relocated (s t : Session) (list : Chain k) (id target : ItemId) (side : Side) : Prop where
  commits : t.store.commits = s.store.commits + 1
  moved : ∃ order list', reinsert id target side list.items = some order ∧ t.store.chain k list.owner = .ok list' ∧
    list'.version = list.version + 1 ∧ list'.items.map Item.bare = order.map Item.bare
  others : ∀ {k' owner'}, k' ≠ k ∨ owner' ≠ list.owner → t.store.scan k' owner' = s.store.scan k' owner'
  rows : ∀ k' : Kind, t.store.bare? k' = s.store.bare? k'
  failing : t.store.failing = s.store.failing
  rest : t = s.withStore t.store

theorem Turned.relocated (hs : s.Sane) (ht : s.Turned t owner items (link none order))
    (h : reinsert id target side items = some order) :
    s.Relocated t ⟨owner, s.store.version k owner, items⟩ id target side where
  commits := ht.turned.commits
  moved := ⟨order, _, h, ht.turned.holds.chain_eq ht.turned.sound, ht.turned.version, link_map_bare none order⟩
  others := ht.turned.scan_eq hs.ordered.sound ht.holds
  rows k' := by
    funext id'
    by_cases hk : k' = k
    · subst hk
      exact ht.turned.bare?_relink ht.holds (reinsert_perm ht.holds.linked.nodup h) id'
    · exact ht.turned.bare?_of_ne hk id'
  failing := ht.turned.failing
  rest := ht.eq

/-- **A move comes to its verdict**: the row is moved if that is to be done, and else nothing is. -/
theorem run_move (hs : s.Sane) (hcalm : s.store.failing = ∅) (limit : Nat) (h : s.store.Holds owner items)
    (id target : ItemId) (side : Side) :
    ∃ t, s.run (Editing.move limit k owner id target side) =
        (s.store.moveVerdict ⟨owner, s.store.version k owner, items⟩ id target side, t) ∧
      if s.store.moveVerdict ⟨owner, s.store.version k owner, items⟩ id target side = .ok true then
        s.Relocated t ⟨owner, s.store.version k owner, items⟩ id target side
      else t = s := by
  unfold Store.moveVerdict
  have hstored : ∀ {id}, s.store.StoredFor k owner id ↔ id ∈ idsOf items := (h.mem_ids_iff hs.ordered.sound).symm
  have hfound : ∀ {id}, id ∈ idsOf items → s.store.get? k id ≠ none := fun hid hnone => by
    obtain ⟨r, hr, -⟩ := hstored.2 hid
    rw [hnone] at hr
    cases hr
  by_cases hne : id = target
  · exact ⟨s, by rw [if_pos hne, Editing.move, if_pos hne]; rfl, by rw [if_pos hne]; rfl⟩
  rw [if_neg hne]
  rcases Chain.move_eq (c := ⟨owner, s.store.version k owner, items⟩) side hne with
    ⟨moving, hm, rfl, ht, hto, hmove⟩ | ⟨hid, -⟩ | ⟨hid, ht, hmove⟩
  · have hid : moving.id ∈ idsOf items := List.mem_map_of_mem hm
    have hinsert : reinsert moving.id target side items = some _ := reinsert_eq_moved h.linked.nodup hm hto
    have hidle := relinked_eq_nil_iff_standsBeside h.linked hinsert
    rw [if_neg (hfound hid), if_neg (not_not.2 (hstored.2 hid)), if_neg (not_not.2 (hstored.2 ht))]
    by_cases hbeside : StandsBeside items moving.id target side
    · refine ⟨s, ?_, by simp [hbeside]⟩
      rw [run_move_of_same hs.ordered limit h hne hm hmove (isEmpty_eq_true_iff.2 (hidle.2 hbeside))]
      simp [hbeside]
    · have hwrites := Bool.eq_false_iff.2 (mt isEmpty_eq_true_iff.1 (mt hidle.1 hbeside))
      have hperm := reinsert_perm h.linked.nodup hinsert
      obtain ⟨t, hrun, hturned⟩ := (commits_move hs.ordered limit h hne hm hmove hperm hwrites).turned hcalm
      refine ⟨t, ?_, ?_⟩
      · rw [hrun]
        simp [hbeside]
      · simpa [hbeside] using hturned.relocated hs hinsert
  · -- a row that is not in the list may be stored for another example, or not at all
    have hrun := run_move_of_not_mem hs.ordered limit h side hne hid
    cases hitem : s.store.item? k id with
    | none =>
      rw [hitem] at hrun
      rw [if_pos (hs.ordered.get?_eq_none_iff.2 hitem)]
      exact ⟨s, hrun, rfl⟩
    | some i =>
      rw [hitem] at hrun
      have hget : s.store.get? k id ≠ none := by rw [hs.ordered.get?_eq, hitem]; simp
      rw [if_neg hget, if_pos (mt hstored.1 hid)]
      exact ⟨s, hrun, rfl⟩
  · rw [if_neg (hfound hid), if_neg (not_not.2 (hstored.2 hid)), if_pos (mt hstored.1 ht)]
    exact ⟨s, run_move_of_target_not_mem hs.ordered limit h hne hid hmove, rfl⟩

end Session

namespace Crowd

/-- **The outcome of a move.** Whatever any number of clients have done over an empty store, with calls still in
progress, a client moves a row, alone, while no row is made to fail. The move comes to its verdict: the row is
relocated if that is to be done, and else everything is as it was. -/
theorem reaches_relocated (registry : Registry) (supply : Nat → BitVec 128) (limit : Nat) {c : Crowd (Call.task limit)}
    (hc : Crowd.Reaches (fun _ _ => True) { session := Session.start registry supply } c)
    (hnd : c.session.minted.Nodup) (hcalm : c.session.store.failing = ∅) (k : Kind) (owner : ExampleId)
    (id target : ItemId) (side : Side) :
    ∃ (list : Chain k) (t : Session), c.session.store.chain k owner = .ok list ∧
      c.session.run (Editing.move limit k owner id target side) =
        (c.session.store.moveVerdict list id target side, t) ∧
      if c.session.store.moveVerdict list id target side = .ok true then
        c.session.Relocated t list id target side
      else t = c.session := by
  have hs := hc.sane hnd
  obtain ⟨items, h⟩ := hs.ordered.lists k owner
  obtain ⟨t, hrun, ht⟩ := Session.run_move hs hcalm limit h id target side
  exact ⟨_, t, h.chain_eq hs.ordered.sound, hrun, ht⟩

/-- The second of two headers is put before the first; it stands after the first already; and it cannot be put before a
row that was never made. -/
theorem reaches_relocated_paired :
    (∃ list t, paired.session.store.chain .header ⟨100⟩ = .ok list ∧
      paired.session.run (Editing.move 2 .header ⟨100⟩ ⟨2⟩ ⟨1⟩ .before) = (.ok true, t) ∧
      paired.session.Relocated t list ⟨2⟩ ⟨1⟩ .before) ∧
    paired.session.run (Editing.move 2 .header ⟨100⟩ ⟨2⟩ ⟨1⟩ .after) = (.ok false, paired.session) ∧
    paired.session.run (Editing.move 2 .header ⟨100⟩ ⟨2⟩ ⟨7⟩ .before) =
      (.error (.invalidTarget ⟨7⟩ ⟨100⟩), paired.session) := by
  have hreach : Crowd.Reaches (fun _ _ => True)
      { session := Session.start {} fun n => BitVec.ofNat 128 (n + 1) } paired :=
    .foldl _ .refl fun _ _ _ => True.intro
  have hnd : paired.session.minted.Nodup := by decide +kernel
  have hcalm : paired.session.store.failing = ∅ := rfl
  have hmove := reaches_relocated {} _ 2 hreach hnd hcalm .header ⟨100⟩ ⟨2⟩
  have hmoved : (paired.session.run (Editing.move 2 .header ⟨100⟩ ⟨2⟩ ⟨1⟩ .before)).1 = .ok true := by decide +kernel
  have hidle : (paired.session.run (Editing.move 2 .header ⟨100⟩ ⟨2⟩ ⟨1⟩ .after)).1 = .ok false := by decide +kernel
  have hrefused : (paired.session.run (Editing.move 2 .header ⟨100⟩ ⟨2⟩ ⟨7⟩ .before)).1 =
      .error (.invalidTarget ⟨7⟩ ⟨100⟩) := by decide +kernel
  refine ⟨?_, ?_, ?_⟩
  · obtain ⟨list, t, hlist, hrun, h⟩ := hmove ⟨1⟩ .before
    rw [hrun] at hmoved
    dsimp only at hmoved
    rw [if_pos hmoved] at h
    exact ⟨list, t, hlist, by rw [hrun, hmoved], h⟩
  · obtain ⟨list, t, -, hrun, h⟩ := hmove ⟨1⟩ .after
    rw [hrun] at hidle
    dsimp only at hidle
    rw [hidle, if_neg nofun] at h
    rw [hrun, hidle, h]
  · obtain ⟨list, t, -, hrun, h⟩ := hmove ⟨7⟩ .before
    rw [hrun] at hrefused
    dsimp only at hrefused
    rw [hrefused, if_neg nofun] at h
    rw [hrun, hrefused, h]

end Crowd

end ExampleOverlay
