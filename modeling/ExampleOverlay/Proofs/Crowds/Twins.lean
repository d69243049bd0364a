import ExampleOverlay.Proofs.Crowds.Customized
import ExampleOverlay.Proofs.Crowds.NewRows

/-!
# No twins

Two rows of one example that are linked to one row are twins. Any number of clients read overlays at the same
time, each of them finds rows of the origin that have no counterpart yet, and makes them one. Nevertheless no
commit makes a twin, unless its caller named the parent: counterparts are committed under the version of the
list that they were found missing in, and are looked for anew after a conflict (`Crowd.reaches_twinless`).
-/

namespace ExampleOverlay

open Chain Program

variable {k : Kind}

namespace Store

variable {s t : Store} {owner : ExampleId} {parent id : ItemId}

/-! ## Twins -/

/-- A row of an example is linked to a row. -/
def StandsFor (s : Store) (k : Kind) (owner : ExampleId) (parent id : ItemId) : Prop :=
  ∃ r, s.get? k id = some r ∧ r.owner = owner ∧ r.parent = some parent

/-- In every example at most one row is linked to each row. -/
def Twinless (s : Store) : Prop :=
  ∀ ⦃k owner parent id id'⦄, s.StandsFor k owner parent id → s.StandsFor k owner parent id' → id = id'

/-- Rows that come to be linked to a row are the only ones in their examples, where there was none before. -/
def AddsNoTwin (s t : Store) : Prop :=
  ∀ ⦃k owner parent id⦄, t.StandsFor k owner parent id → ¬ s.StandsFor k owner parent id →
    (∀ id', ¬ s.StandsFor k owner parent id') ∧ ∀ id', t.StandsFor k owner parent id' → id' = id

theorem addsNoTwin_of_imp
    (h : ∀ k owner parent id, t.StandsFor k owner parent id → s.StandsFor k owner parent id) : s.AddsNoTwin t :=
  fun _ _ _ _ ht hs => absurd (h _ _ _ _ ht) hs

theorem Twinless.adds (hs : s.Twinless) (h : s.AddsNoTwin t) : t.Twinless := by
  intro k owner parent id id' hid hid'
  by_cases hold : s.StandsFor k owner parent id
  · by_cases hold' : s.StandsFor k owner parent id'
    · exact hs hold hold'
    · exact (h hid' hold').2 id hid
  · exact ((h hid hold).2 id' hid').symm

theorem Ordered.standsFor_iff (hs : s.Ordered) : s.StandsFor k owner parent id ↔
    ∃ i : Item k, s.item? k id = some i ∧ i.owner = owner ∧ i.parent = some parent := by
  constructor
  · rintro ⟨r, hr, ho, hp⟩
    obtain ⟨i, rfl, -⟩ := hs.exists_item hr
    exact ⟨i, hs.item?_eq_some_iff.2 hr, ho, hp⟩
  · rintro ⟨i, hi, ho, hp⟩
    exact ⟨_, hs.item?_eq_some_iff.1 hi, ho, hp⟩

/-- Whether a row is linked is told by what it says. -/
theorem Ordered.standsFor_iff_bare (hs : s.Ordered) : s.StandsFor k owner parent id ↔
    ∃ i : Item k, s.bare? k id = some i ∧ i.owner = owner ∧ i.parent = some parent := by
  rw [hs.standsFor_iff]
  constructor
  · rintro ⟨i, hi, ho, hp⟩
    exact ⟨i.bare, bare?_of_item? hi, ho, hp⟩
  · rintro ⟨j, hj, ho, hp⟩
    obtain ⟨i, hi, rfl⟩ := bare?_eq_some_iff.1 hj
    exact ⟨i, hi, ho, hp⟩

end Store

namespace View

variable {v w : View} {c : Call k} {G : View → View → Prop}

/-! ## Appended rows -/

/-- A row that is linked after rows were appended was linked before, or it is one of them. -/
theorem standsFor_of_append (hv : v.Good) {owner : ExampleId} {items new : List (Item k)}
    (hl : v.Lands owner items (link none (items ++ new)) w) {k' : Kind} {owner' : ExampleId} {p id : ItemId}
    (h : w.store.StandsFor k' owner' p id) : v.store.StandsFor k' owner' p id ∨
      k' = k ∧ ∃ i ∈ new, i.id = id ∧ i.owner = owner' ∧ i.parent = some p := by
  obtain ⟨j, hj, ho, hp⟩ := hl.step.good.ordered.standsFor_iff_bare.1 h
  by_cases hk : k' = k
  · subst hk
    rw [hl.turned.turned.bare?_append hl.turned.holds] at hj
    cases hfind : new.find? (·.id == id) with
    | none =>
      rw [hfind] at hj
      exact Or.inl (hv.ordered.standsFor_iff_bare.2 ⟨j, hj, ho, hp⟩)
    | some i =>
      rw [hfind] at hj
      obtain rfl := Option.some.inj hj
      have hid : i.id = id := by simpa using List.find?_some hfind
      exact Or.inr ⟨rfl, i, List.mem_of_find?_eq_some hfind, hid, ho, hp⟩
  · rw [hl.turned.turned.bare?_of_ne hk] at hj
    exact Or.inl (hv.ordered.standsFor_iff_bare.2 ⟨j, hj, ho, hp⟩)

/-- New rows at the end of a list make no twin, where no other row of the list or among them has the same
parent. -/
theorem addsNoTwin_of_append (hv : v.Good) {owner : ExampleId} {items new : List (Item k)}
    (hl : v.Lands owner items (link none (items ++ new)) w)
    (hnew : ∀ i ∈ new, ∀ p, i.parent = some p → i.owner = owner ∧ (∀ j ∈ items, j.parent ≠ some p) ∧
      ∀ j ∈ new, j.parent = some p → j = i) :
    v.store.AddsNoTwin w.store := by
  intro k' owner' p id h hold
  obtain ⟨rfl, i, hi, rfl, ho, hp⟩ := (standsFor_of_append hv hl h).resolve_left hold
  obtain ⟨howner, hitems, honly⟩ := hnew i hi p hp
  -- the list that was planned on is still the one stored
  have hnone : ∀ id', ¬ v.store.StandsFor k' owner' p id' := by
    intro id' h'
    obtain ⟨j, hj, ho', hp'⟩ := hv.ordered.standsFor_iff.1 h'
    exact hitems j (hl.turned.holds.mem_of_item? hv.ordered hj (ho'.trans (ho.symm.trans howner))) hp'
  refine ⟨hnone, fun id' h' => ?_⟩
  obtain ⟨-, j, hj, rfl, -, hp'⟩ := (standsFor_of_append hv hl h').resolve_left (hnone id')
  rw [honly j hj hp']

theorem map_parent_counterparts {delta : ExampleId} {rows new : List (Item k)}
    (h : List.Forall₂ (fun row i => i = Item.counterpart i.id delta row) rows new) :
    new.map (·.parent) = (idsOf rows).map some := by
  induction h with
  | nil => rfl
  | cons h _ ih =>
    rw [List.map_cons, ih, h]
    rfl

/-- Counterparts of rows that have none make no twin. -/
theorem addsNoTwin_of_counterparts (hv : v.Good) {origin : Chain k} (hnd : (idsOf origin.items).Nodup)
    {delta : ExampleId} {version : Nat} {items new : List (Item k)}
    (hl : v.Lands delta items (link none (items ++ new)) w)
    (hnew : List.Forall₂ (fun row i => i = Item.counterpart i.id delta row)
      (Overlay.uncovered origin ⟨delta, version, items⟩) new) : v.store.AddsNoTwin w.store := by
  have hdistinct : (new.map (·.parent)).Nodup := by
    rw [map_parent_counterparts hnew]
    exact (hnd.sublist (List.filter_sublist.map _)).map fun _ _ => Option.some.inj
  refine addsNoTwin_of_append hv hl fun i hi p hp => ?_
  obtain ⟨row, hrow, hc⟩ := Session.exists_of_forall₂ hnew hi
  have hparent : p = row.id := by
    rw [hc] at hp
    exact (Option.some.inj hp).symm
  refine ⟨by rw [hc]; rfl, fun j hj hjp => ?_, fun j hj hjp => ?_⟩
  · have hmissing := (List.mem_filter.1 hrow).2
    rw [Bool.not_eq_true', List.any_eq_false] at hmissing
    exact hmissing j hj (by rw [hjp, hparent]; exact beq_self_eq_true _)
  · exact List.inj_on_of_nodup_map hdistinct hj hi (hjp.trans hp.symm)

/-! ## Rows that were there before -/

/-- A client with no ids of its own links no row. -/
theorem Step.addsNoTwin (hv : v.Good) (h : v.Step w) (hr : ¬ v.relinks) (hm : v.mine = []) :
    v.store.AddsNoTwin w.store := by
  refine Store.addsNoTwin_of_imp fun k owner p id hid => ?_
  obtain ⟨y, hy, ho, hp⟩ := h.good.ordered.standsFor_iff.1 hid
  have hused : v.used k id := by
    rcases h.new (h.good.used (h.good.ordered.item?_eq_some_iff.1 hy)) with hu | hu
    · exact hu
    · rw [hm] at hu
      cases hu
  obtain ⟨x, hx, hxo, hpar⟩ := h.rows hused hy
  refine hv.ordered.standsFor_iff.2 ⟨x, hx, hxo.symm.trans ho, ?_⟩
  rcases hpar with hpar | hpar | hpar
  · exact absurd hpar hr
  · exact hpar.symm.trans hp
  · rw [hpar] at hp
    cases hp

/-! ## Calls -/

/-- **Calls make no twins**, whatever the others do, unless the caller names a parent. -/
theorem addsNoTwin_call (hv : v.Good) (hr : ¬ v.relinks) (hm : v.mine = []) (limit : Nat) (c : Call k) :
    Keeps (fun v w => c.LinksByHand ∨ v.store.AddsNoTwin w.store) (Ends fun _ _ => True) (c.program limit) v := by
  refine keeps_call_of_new hv hr hm limit c (fun u => Or.inr (Store.addsNoTwin_of_imp fun _ _ _ _ h => h))
    (fun u w hu hstep hr hm => Or.inr (hstep.addsNoTwin hu hr hm)) (fun u w row items hu _ hparent _ hl => ?_)
    fun u w _ _ _ _ _ hu hnd _ hnew _ hl => Or.inr (addsNoTwin_of_counterparts hu hnd hl hnew)
  rcases hparent with hparent | hlinks
  · refine Or.inr (addsNoTwin_of_append hu hl fun i hi p hp => ?_)
    rw [List.mem_singleton.1 hi, hparent] at hp
    cases hp
  · exact Or.inl hlinks

end View

namespace Crowd

variable {limit : Nat} {c : Crowd (Call.task limit)}

/-! ## Crowds -/

/-- No client was to link a row by hand. -/
def LinksNoneByHand (c : Crowd (Call.task limit)) : Prop := ∀ i call, c.op? i = some call → ¬ call.2.LinksByHand

/-- Nobody makes twins but by hand, and there are none where nobody was to link a row by hand. -/
structure Watchful (c : Crowd (Call.task limit)) : Prop where
  kept : ∃ used, c.Kept (fun call v w => call.2.LinksByHand ∨ v.store.AddsNoTwin w.store)
    (fun _ => View.Ends fun _ _ => True) False used
  twinless : c.LinksNoneByHand → c.session.store.Twinless

/-- One access of a client that links no row by hand. -/
theorem Watchful.addsNoTwin (h : c.Watchful) {i : Nat} {a : Agent (Call.task limit)} {q : Request}
    {next : q.Answer → Program (Call.task limit a.op).Answer} (ha : c.agents[i]? = some a)
    (hrest : a.rest = .ask q next) (hop : ¬ a.op.2.LinksByHand) (hnd : (c.access i).ids.Nodup) :
    c.session.store.AddsNoTwin (c.access i).session.store := by
  obtain ⟨used, hkept⟩ := h.kept
  obtain ⟨-, hpromise, -⟩ := hkept.access ha hrest hnd
  rw [show (c.access i).session = (Session.serve q c.session).2 by rw [access_eq ha hrest]]
  rcases serve_cases q c.session with rfl | ⟨b, rfl, hf⟩ | ⟨hsame, -⟩
  · exact Store.addsNoTwin_of_imp fun _ _ _ _ h => h
  · exact (hpromise hf).2.resolve_left hop
  · rw [hsame]
    exact Store.addsNoTwin_of_imp fun _ _ _ _ h => h

theorem addsNoTwin_aside (c : Crowd (Call.task limit)) (e : Aside) :
    c.session.store.AddsNoTwin (c.after (.aside e)).session.store := by
  have htables : (c.after (.aside e)).session.store.tables = c.session.store.tables := Session.tables_aside _ e
  refine Store.addsNoTwin_of_imp fun k owner parent id hid => ?_
  obtain ⟨r, hr, hrow⟩ := hid
  rw [Store.get?, Store.table, htables] at hr
  exact ⟨r, hr, hrow⟩

theorem Watchful.after (h : c.Watchful) (e : Event ((k : Kind) × Call k)) (hnd : (c.after e).ids.Nodup) :
    (c.after e).Watchful := by
  obtain ⟨used, hkept⟩ := h.kept
  refine ⟨hkept.after e hnd fun call _ => ?_, fun hops => ?_⟩
  · exact fun v hv hr _ hm _ => View.addsNoTwin_call hv (by rw [hr]; exact fun h => h) hm limit call.2
  have hops' : c.LinksNoneByHand := fun i call hi => hops i call (op?_after hi e)
  cases e with
  | start call => exact h.twinless hops'
  | aside e => exact (h.twinless hops').adds (addsNoTwin_aside c e)
  | access i =>
    rcases access_cases c i with hc | ⟨a, q, next, ha, hrest⟩
    · rw [Crowd.after, hc]
      exact h.twinless hops'
    · have hop := hops' i a.op (by rw [op?, ha]; rfl)
      exact (h.twinless hops').adds (h.addsNoTwin ha hrest hop hnd)

/-- A commit mints no id. -/
theorem ids_access_of_commit {i : Nat} {a : Agent (Call.task limit)} {b : Batch}
    {next : Option StoreError → Program (Call.task limit a.op).Answer} (ha : c.agents[i]? = some a)
    (hrest : a.rest = .ask (.commit b) next) : (c.access i).ids = c.ids := by
  rw [ids, own_access ha hrest, access_eq ha hrest, Session.serve_commit]
  cases c.session.store.commit b <;> rfl

/-- **Reading overlays makes no twins.** Any number of clients call the service over an empty store and make their
accesses in any order, with anything made to fail or registered in between. Then no commit of a call makes a
twin, unless the caller named the parent of a new row: where it stores a row linked to `o` in an example, the
example had none linked to `o` at that moment and has just this one afterwards. So as long as no caller names a
parent, every example holds at most one row for each row of its origin. -/
theorem reaches_twinless (registry : Registry) (supply : Nat → BitVec 128) (limit : Nat)
    {c : Crowd (Call.task limit)}
    (hc : Crowd.Reaches (fun _ _ => True) { session := Session.start registry supply } c) (hnd : c.ids.Nodup) :
    (∀ (i : Nat) (a : Agent (Call.task limit)) b next, c.agents[i]? = some a → a.rest = .ask (.commit b) next →
      ¬ a.op.2.LinksByHand → c.session.store.AddsNoTwin (c.access i).session.store) ∧
    (c.LinksNoneByHand → c.session.store.Twinless) := by
  have hstart : Watchful ({ session := Session.start registry supply } : Crowd (Call.task limit)) := by
    refine ⟨⟨_, kept_start registry supply⟩, fun _ k owner parent id id' hid _ => ?_⟩
    obtain ⟨r, hr, -⟩ := hid
    rw [Store.get?, show (Session.start registry supply).store = {} from rfl, Store.table_empty,
      Table.get?_empty] at hr
    cases hr
  have h := Reaches.keeps hstart (fun _ e h _ hnd => h.after e hnd) hc hnd
  refine ⟨fun i a b next ha hrest hop => ?_, h.twinless⟩
  exact h.addsNoTwin ha hrest hop (by rw [ids_access_of_commit ha hrest]; exact hnd)

/-- Two clients read an overlay, and both find a row of the origin without a counterpart. The first commits one;
the commit of the second is refused, and then it finds the counterpart of the first. -/
theorem reaches_twinless_overlapping : ∃ c : Crowd (Call.task 2), c.session.store.Twinless ∧
    c.session.store.StandsFor .header ⟨101⟩ ⟨1⟩ ⟨2⟩ ∧ c.accepted = [0, 1] := by
  have hc : Crowd.Reaches (fun _ _ => True)
      ({ session := Session.start {} fun n => BitVec.ofNat 128 (n + 1) } : Crowd (Call.task 2)) _ :=
    Reaches.refl.foldl [
      .start ⟨.header, .create ⟨100⟩ (KeyValue.ofPair "Accept" "text/html")⟩, .access 0, .access 0, .access 0,
      .start ⟨.header, .deltaList ⟨101⟩ ⟨100⟩⟩, .start ⟨.header, .deltaList ⟨101⟩ ⟨100⟩⟩,
      .access 1, .access 2, .access 1, .access 2, .access 1, .access 2, .access 1, .access 2,
      .access 1, .access 2, .access 1, .access 2] fun _ _ _ => True.intro
  have hops : ∀ op ∈ ([⟨.header, .create ⟨100⟩ (KeyValue.ofPair "Accept" "text/html")⟩,
      ⟨.header, .deltaList ⟨101⟩ ⟨100⟩⟩, ⟨.header, .deltaList ⟨101⟩ ⟨100⟩⟩] : List ((k : Kind) × Call k)),
      ¬ op.2.LinksByHand := by
    simp [Call.LinksByHand]
  obtain ⟨-, htwinless⟩ := reaches_twinless {} (fun n => BitVec.ofNat 128 (n + 1)) 2 hc (by decide +kernel)
  refine ⟨_, htwinless fun i call hi => ?_, ⟨_, rfl, rfl, rfl⟩, by decide +kernel⟩
  obtain ⟨a, ha, rfl⟩ := Option.map_eq_some_iff.1 hi
  exact hops a.op (List.mem_map_of_mem (f := Agent.op) (List.mem_of_getElem? ha))

end Crowd

end ExampleOverlay
