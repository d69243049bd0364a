import ExampleOverlay.Proofs.Crowds.Footprint
import ExampleOverlay.Proofs.Overlays.Shown
import ExampleOverlay.Proofs.Runs.Cascades

/-!
# Reading an overlay

A client that has the store to itself, with no row made to fail, reads the overlay of an origin as seen from a
delta. The delta's list then goes on as it was with one counterpart for each row of the origin that none of
its rows is linked to, in one commit, or none if there is no such row (`Session.Extends`). The overlay of the two
lists is given, in which every row of the origin is represented, and reading it once more gives the same and
writes nothing (`Crowd.reaches_extended`).
-/

namespace ExampleOverlay

open Chain Program

variable {k : Kind}

/-! ## Lists that are continued -/

/-- Rows put after linked ones change nothing of these but where the tail leads on to. -/
theorem Chain.link_append {items : List (Item k)} (hl : Linked items) (new : List (Item k)) :
    link none (items ++ new) =
      items.dropLast ++ (items.getLast?.map fun tail => { tail with next := new.head?.map (·.id) }).toList ++
        segment (items.getLast?.map (·.id)) none new := by
  rw [link_eq_segment, segment_append, Option.or_none, Option.or_none, segment_next hl.segment_eq]

namespace Overlay

variable {origin delta : Chain k} {parent : ItemId}

theorem uncovered_eq (origin delta : Chain k) :
    uncovered origin delta = origin.items.filter fun row => ∀ i ∈ delta.items, i.parent ≠ some row.id :=
  List.filter_congr fun row _ => by
    rw [Bool.eq_iff_iff]
    simp

theorem uncovered_eq_nil_iff :
    uncovered origin delta = [] ↔ ∀ row ∈ origin.items, ∃ i ∈ delta.items, i.parent = some row.id := by
  simp [uncovered, List.filter_eq_nil_iff]

theorem Represented.exists {shown : List (OverlayRow k)} (h : Represented parent shown) :
    ∃ row ∈ shown, row.parent = some parent := by
  have hne : shown.filter (·.parent == some parent) ≠ [] := by
    rcases h with ⟨row, hrow, -⟩ | ⟨hne, -⟩
    · rw [hrow]
      exact List.cons_ne_nil _ _
    · exact hne
  obtain ⟨row, hrow⟩ := List.exists_mem_of_ne_nil _ hne
  exact ⟨row, by simpa using hrow⟩

end Overlay

namespace Session

variable {s t : Session} {delta origin : ExampleId} {o d : Chain k} {items new : List (Item k)}

/-! ## What reading does -/

/-- A new row of a delta that stands in for a row of the origin and shows its fields. -/
structure StandsIn (s : Session) (delta : ExampleId) (row i : Item k) : Prop where
  fresh : i.id ∉ s.minted
  owner : i.owner = delta
  parent : i.parent = some row.id
  fields : i.fields = row.fields
  tracking : i.overridden = false

/-- The delta's list, which was `d`, is `d'`: it goes on with `new`, a row for each row of the origin's list `o`
that none of the delta's is linked to. That took one commit, if there was any such row, and no other list was
touched. -/
structure Extends (s t : Session) (delta origin : ExampleId) (o d d' : Chain k) (new : List (Item k)) : Prop where
  origin : s.store.chain k origin = .ok o
  before : s.store.chain k delta = .ok d
  after : t.store.chain k delta = .ok d'
  items : d'.items =
    d.items.dropLast ++ (d.items.getLast?.map fun tail => { tail with next := new.head?.map (·.id) }).toList ++ new
  rows : List.Forall₂ (s.StandsIn delta) (o.items.filter fun row => ∀ i ∈ d.items, i.parent ≠ some row.id) new
  commits : t.store.commits = s.store.commits + if new = [] then 0 else 1
  others : ∀ (k' : Kind) (owner : ExampleId), k' ≠ k ∨ owner ≠ delta → t.store.scan k' owner = s.store.scan k' owner

/-- Where a row stands does not matter to what it stands in for. -/
theorem standsIn_bare_iff {row i : Item k} : s.StandsIn delta row i.bare ↔ s.StandsIn delta row i :=
  ⟨fun h => ⟨h.fresh, h.owner, h.parent, h.fields, h.tracking⟩,
    fun h => ⟨h.fresh, h.owner, h.parent, h.fields, h.tracking⟩⟩

theorem standsIn_counterparts {rows : List (Item k)}
    (hnew : List.Forall₂ (fun row i => i = Item.counterpart i.id delta row) rows new)
    (hfresh : ∀ i ∈ new, i.id ∉ s.minted) : List.Forall₂ (s.StandsIn delta) rows new := by
  induction hnew with
  | nil => exact .nil
  | cons hc _ ih =>
    refine .cons ⟨hfresh _ List.mem_cons_self, ?_, ?_, ?_, ?_⟩ (ih fun i hi => hfresh i (List.mem_cons_of_mem _ hi))
    all_goals rw [hc]; rfl

theorem standsIn_segment {rows : List (Item k)} (prev next : Option ItemId)
    (h : List.Forall₂ (s.StandsIn delta) rows new) :
    List.Forall₂ (s.StandsIn delta) rows (segment prev next new) := by
  have hbare : List.Forall₂ (s.StandsIn delta) rows ((segment prev next new).map Item.bare) := by
    rw [segment_map_bare, List.forall₂_map_right_iff]
    exact h.imp fun _ _ => standsIn_bare_iff.2
  rw [List.forall₂_map_right_iff] at hbare
  exact hbare.imp fun _ _ => standsIn_bare_iff.1

/-! ## The run -/

theorem run_deltaList_of_covered (hs : s.store.Ordered) (limit : Nat) (hne : delta ≠ origin) {list : List (Item k)}
    (hlist : s.store.Holds origin list) (hitems : s.store.Holds delta items)
    (hcovered : Overlay.uncovered ⟨origin, s.store.version k origin, list⟩
      ⟨delta, s.store.version k delta, items⟩ = []) :
    s.run (Service.deltaList limit k delta origin) = (.ok (Overlay.compose
      ⟨origin, s.store.version k origin, list⟩ ⟨delta, s.store.version k delta, items⟩ (s.versions delta)), s) := by
  rw [run_deltaList hs limit hne hlist, run_bind_ok (run_materialize_of_covered hs limit _ hitems hcovered)]
  rfl

/-- **Reading an overlay** where nothing is made to fail: the delta's list is extended, it then covers the
origin's, and the overlay of the two is given. -/
theorem extends_deltaList (hs : s.Sane) (hcalm : s.store.failing = ∅) (limit : Nat) (hne : delta ≠ origin)
    (hnd : (s.run (Service.deltaList limit k delta origin)).2.minted.Nodup) :
    ∃ (t : Session) (o d d' : Chain k) (new : List (Item k)),
      s.run (Service.deltaList limit k delta origin) = (.ok (Overlay.compose o d' (s.versions delta)), t) ∧
      s.Extends t delta origin o d d' new ∧ Overlay.uncovered o d' = [] ∧ t.store.Ordered ∧
      t.versions = s.versions := by
  have hord := hs.ordered
  obtain ⟨list, hlist⟩ := hord.lists k origin
  obtain ⟨items, hitems⟩ := hord.lists k delta
  have hrun := run_deltaList hord limit hne hlist
  have hmat := (hrun ▸ hnd).sublist (run_minted_bind s _ _).sublist
  by_cases hnone : Overlay.uncovered ⟨origin, s.store.version k origin, list⟩
    ⟨delta, s.store.version k delta, items⟩ = []
  · refine ⟨s, _, _, _, [], run_deltaList_of_covered hord limit hne hlist hitems hnone,
      ⟨hlist.chain_eq hord.sound, hitems.chain_eq hord.sound, hitems.chain_eq hord.sound, ?_, ?_, rfl,
        fun _ _ _ => rfl⟩, hnone, hord, rfl⟩
    · have hsame := link_append hitems.linked []
      rwa [List.append_nil, hitems.linked.links] at hsame
    · rw [← Overlay.uncovered_eq, hnone]
      exact .nil
  cases materializes hs limit ⟨origin, s.store.version k origin, list⟩ hitems
    (fun i hi => hs.minted (hlist.get?_of_mem hi)) hmat with
  | covered hcovered _ => exact absurd hcovered hnone
  | refused t ids ht e _ failing => exact absurd hcalm (ht.store ▸ failing)
  | filled new t u ht hnew hu hmade =>
    have hothers : ∀ (k' : Kind) (owner : ExampleId), k' ≠ k ∨ owner ≠ delta →
        u.store.scan k' owner = s.store.scan k' owner := fun k' owner h =>
      ht.store ▸ hu.turned.scan_eq (ht.store ▸ hord.sound) hu.holds h
    have hafter := hu.turned.holds.chain_eq hu.turned.sound
    rw [hu.turned.version, ht.store] at hafter
    have hversions : u.versions = s.versions := by
      rw [hu.eq]
      exact funext fun owner => congrArg (fun r => (Registry.versionOf r owner).isSome) ht.registry
    have htnd : t.minted.Nodup := by
      rw [hmade, hu.eq] at hmat
      exact hmat
    have hsome : segment (items.getLast?.map (·.id)) none new ≠ [] := by
      rw [← List.length_pos_iff_ne_nil, length_segment, ← hnew.length_eq]
      exact List.length_pos_iff_ne_nil.2 hnone
    refine ⟨u, _, _, _, segment (items.getLast?.map (·.id)) none new, ?_,
      ⟨hlist.chain_eq hord.sound, hitems.chain_eq hord.sound, hafter, ?_, ?_, ?_, hothers⟩, ?_,
      hu.ordered (ht.store ▸ hord), hversions⟩
    · rw [hrun, run_bind_ok hmade, ← hversions]
      rfl
    · rw [head?_id_eq (idsOf_segment _ none new), ← link_append hitems.linked]
    · rw [← Overlay.uncovered_eq]
      exact standsIn_segment _ _ (standsIn_counterparts hnew (ht.forall_not_mem htnd))
    · rw [if_neg hsome, hu.turned.commits, ht.store]
    · refine Overlay.uncovered_eq_nil_iff.2 fun row hrow => ?_
      obtain ⟨i, hi, hp⟩ := exists_linked_of_forall₂ hrow hnew
      obtain ⟨j, hj, hji⟩ := exists_bare_mem_link none hi
      exact ⟨j, hj, (congrArg Item.parent hji).trans hp⟩

end Session

namespace Crowd

/-- **Reading an overlay, from end to end.** Whatever any number of clients have done over an empty store, with calls
still in progress, a client reads the overlay of an origin as seen from another example, while no row is made to
fail. That succeeds: the delta's list is extended by the counterparts that were missing, and the overlay of the two
lists as they are then is given, which has a row for every row of the origin. Read once more, it is the same, and
nothing is written. -/
theorem reaches_extended (registry : Registry) (supply : Nat → BitVec 128) (limit : Nat) {c : Crowd (Call.task limit)}
    (hc : Crowd.Reaches (fun _ _ => True) { session := Session.start registry supply } c) (k : Kind)
    {delta origin : ExampleId} (hne : delta ≠ origin) (hcalm : c.session.store.failing = ∅)
    (hnd : (c.session.run (Service.deltaList limit k delta origin)).2.minted.Nodup) :
    ∃ (t : Session) (o d d' : Chain k) (new : List (Item k)),
      c.session.run (Service.deltaList limit k delta origin) =
        (.ok (Overlay.compose o d' (c.session.versions delta)), t) ∧
      c.session.Extends t delta origin o d d' new ∧ t.store.chain k origin = .ok o ∧
      (∀ row ∈ o.items, ∃ shown ∈ Overlay.compose o d' (c.session.versions delta), shown.parent = some row.id) ∧
      t.run (Service.deltaList limit k delta origin) =
        (.ok (Overlay.compose o d' (c.session.versions delta)), t) := by
  have hs := hc.sane (hnd.sublist (Session.run_minted c.session _).sublist)
  obtain ⟨t, o, d, d', new, hrun, hext, hcovered, hord, hversions⟩ :=
    Session.extends_deltaList hs hcalm limit hne hnd
  have horigin : t.store.chain k origin = .ok o := by
    rw [← hext.origin, Store.chain, Store.chain, hext.others k origin (Or.inr (Ne.symm hne))]
  obtain ⟨list, hlist⟩ := hord.lists k origin
  obtain ⟨items, hitems⟩ := hord.lists k delta
  obtain rfl : ⟨origin, t.store.version k origin, list⟩ = o :=
    Except.ok.inj ((hlist.chain_eq hord.sound).symm.trans horigin)
  obtain rfl : ⟨delta, t.store.version k delta, items⟩ = d' :=
    Except.ok.inj ((hitems.chain_eq hord.sound).symm.trans hext.after)
  refine ⟨t, _, d, _, new, hrun, hext, horigin, fun row hrow => ?_, ?_⟩
  · obtain ⟨i, hi, hp⟩ := Overlay.uncovered_eq_nil_iff.1 hcovered row hrow
    exact (Overlay.represented_compose hitems.linked.nodup hi hp).exists
  · rw [← hversions]
    exact Session.run_deltaList_of_covered hord limit hne hlist hitems hcovered

/-- A delta has a header that is customized, one of its own and one that is linked elsewhere, when another client is
about to put a header into it; the origin has three. -/
def patchwork : Crowd (Call.task 2) := [
    .start ⟨.header, .create ⟨100⟩ (KeyValue.ofPair "Accept" "text/html")⟩, .access 0, .access 0, .access 0,
    .start ⟨.header, .create ⟨100⟩ (KeyValue.ofPair "Host" "a")⟩, .access 1, .access 1, .access 1,
    .start ⟨.header, .create ⟨102⟩ (KeyValue.ofPair "Via" "b")⟩, .access 2, .access 2, .access 2,
    .start ⟨.header, .deltaCreate ⟨101⟩ (some ⟨102⟩) (some ⟨3⟩) (KeyValue.ofPair "Via" "c")⟩,
    .access 3, .access 3, .access 3, .access 3,
    .start ⟨.header, .deltaCreate ⟨101⟩ (some ⟨100⟩) (some ⟨2⟩) (KeyValue.ofPair "Host" "d")⟩,
    .access 4, .access 4, .access 4, .access 4,
    .start ⟨.header, .create ⟨101⟩ (KeyValue.ofPair "Age" "0")⟩, .access 5, .access 5, .access 5,
    .start ⟨.header, .create ⟨100⟩ (KeyValue.ofPair "Date" "today")⟩, .access 6, .access 6, .access 6,
    .start ⟨.header, .create ⟨101⟩ (KeyValue.ofPair "From" "me")⟩, .access 7, .access 7].foldl after
  { session := Session.start {} fun n => BitVec.ofNat 128 (n + 1) }

/-- Two of the three have to get counterparts. -/
theorem reaches_extended_patchwork : ∃ (t : Session) (o d d' : Chain .header) (new : List (Item .header)),
    patchwork.session.run (Service.deltaList 2 .header ⟨101⟩ ⟨100⟩) =
      (.ok (Overlay.compose o d' (patchwork.session.versions ⟨101⟩)), t) ∧
    (Overlay.compose o d' (patchwork.session.versions ⟨101⟩)).map (fun row => (row.id, row.source)) =
      [(⟨4⟩, .mixed), (⟨5⟩, .mixed), (⟨6⟩, .delta), (⟨9⟩, .origin), (⟨10⟩, .origin)] ∧
    patchwork.session.Extends t ⟨101⟩ ⟨100⟩ o d d' new ∧
    t.run (Service.deltaList 2 .header ⟨101⟩ ⟨100⟩) =
      (.ok (Overlay.compose o d' (patchwork.session.versions ⟨101⟩)), t) := by
  obtain ⟨t, o, d, d', new, hrun, hext, -, -, hagain⟩ :=
    reaches_extended {} (fun n => BitVec.ofNat 128 (n + 1)) 2 (c := patchwork) (.foldl _ .refl fun _ _ _ => True.intro)
      .header (show (⟨101⟩ : ExampleId) ≠ ⟨100⟩ by decide) (Std.ExtTreeSet.isEmpty_iff.1 (by decide +kernel))
      (by decide +kernel)
  have hshown : (patchwork.session.run (Service.deltaList 2 .header ⟨101⟩ ⟨100⟩)).1.toOption.map
      (·.map fun row => (row.id, row.source)) =
        some [(⟨4⟩, .mixed), (⟨5⟩, .mixed), (⟨6⟩, .delta), (⟨9⟩, .origin), (⟨10⟩, .origin)] := by decide +kernel
  rw [hrun] at hshown
  exact ⟨t, o, d, d', new, hrun, Option.some.inj hshown, hext, hagain⟩

end Crowd

end ExampleOverlay
