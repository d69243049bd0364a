import ExampleOverlay.Proofs.Crowds.Footprint
import ExampleOverlay.Proofs.Crowds.NewRows

/-!
# Rows and their parents

Whatever any number of clients do, a row and the row it is linked to are rows of different examples: a new row is
linked to a row that was found in another example, rows keep their examples, and no id is used for a second row
(`Crowd.Reaches.apart`).
-/

namespace ExampleOverlay

open Chain Program

variable {k : Kind}

/-- No stored row is linked to a row of its own example. -/
def Store.Apart (s : Store) (k : Kind) : Prop :=
  ∀ ⦃id p⦄ ⦃i o : Item k⦄, s.item? k id = some i → i.parent = some p → s.item? k p = some o → o.owner ≠ i.owner

namespace View

variable {v w : View}

/-- What stored rows are linked to is elsewhere. -/
def Apart (v : View) : Prop :=
  ∀ ⦃k id p⦄ ⦃i : Item k⦄, v.store.item? k id = some i → i.parent = some p → v.Elsewhere k p i.owner

/-- What new rows are linked to is elsewhere. -/
def LinksAway (v w : View) : Prop :=
  ∀ ⦃k id p⦄ ⦃i : Item k⦄, w.store.item? k id = some i → i.parent = some p → v.store.item? k id = none →
    v.Elsewhere k p i.owner

theorem Apart.step (h : v.Apart) (hv : v.Good) (hw : v.Grows w) (hr : ¬ v.relinks) (hnew : v.LinksAway w) :
    w.Apart := by
  intro k id p i hi hp
  cases hold : v.store.item? k id with
  | none => exact (hnew hi hp hold).grows hw
  | some y =>
    obtain ⟨x, hx, ho, hlink⟩ := hw.rows (hv.used (hv.ordered.item?_eq_some_iff.1 hold)) hi
    rcases hlink with hlink | hlink | hlink
    · exact absurd hlink hr
    · rw [ho]
      exact (h hx (hlink.symm.trans hp)).grows hw
    · rw [hlink] at hp
      cases hp

/-- Where nothing is stored, no row is new. -/
theorem linksAway_of_tables_eq (h : w.store.tables = v.store.tables) : v.LinksAway w := by
  intro k id p i hi _ hnone
  have hsame : w.store.item? k id = v.store.item? k id := by
    rw [Store.item?, Store.item?, Store.get?, Store.get?, Store.table, Store.table, h]
  rw [hsame, hnone] at hi
  cases hi

theorem linksAway_of_append {owner : ExampleId} {items new : List (Item k)}
    (hnew : ∀ i ∈ new, ∀ p, i.parent = some p → v.Elsewhere k p i.owner)
    (hl : v.Lands owner items (link none (items ++ new)) w) : v.LinksAway w := by
  intro k' id p i hi hp hnone
  have hbare := Store.bare?_of_item? hi
  have hold : v.store.bare? k' id = none := by rw [Store.bare?, hnone]; rfl
  by_cases hk : k' = k
  · subst hk
    rw [hl.turned.turned.bare?_append hl.turned.holds, hold, Option.or_none] at hbare
    obtain ⟨j, hj, hji⟩ := Option.map_eq_some_iff.1 hbare
    obtain ⟨-, ho, hparent, -, -⟩ := Item.bare_eq_iff.1 hji
    rw [← ho]
    exact hnew j (List.mem_of_find?_eq_some hj) p (hparent.trans hp)
  · rw [hl.turned.turned.bare?_of_ne hk, hold] at hbare
    cases hbare

/-- A client with no ids of its own stores no new row. -/
theorem Step.linksAway (h : v.Step w) (hm : v.mine = []) : v.LinksAway w := by
  intro k id p i hi _ hnone
  rcases h.new (h.good.used (h.good.ordered.item?_eq_some_iff.1 hi)) with hold | hmine
  · obtain ⟨x, hx, -⟩ := h.rows hold hi
    rw [hnone] at hx
    cases hx
  · rw [hm] at hmine
    cases hmine

/-- **Calls link new rows away** from their examples, whatever the others do. -/
theorem linksAway_call (hv : v.Good) (hr : ¬ v.relinks) (hm : v.mine = []) (limit : Nat) (c : Call k) :
    Keeps LinksAway (Ends fun _ _ => True) (c.program limit) v := by
  refine keeps_call_of_new hv hr hm limit c (fun _ => linksAway_of_tables_eq rfl) (fun _ _ _ hstep _ hm => hstep.linksAway hm)
    (fun u w row items _ _ _ helsewhere hl => ?_) fun u w delta origin version items new _ _ helsewhere hnew _ hl => ?_
  · refine linksAway_of_append (fun i hi p hp => ?_) hl
    obtain rfl := List.mem_singleton.1 hi
    exact helsewhere p hp
  · refine linksAway_of_append (fun i hi p hp => ?_) hl
    obtain ⟨row, hrow, hc⟩ := Session.exists_of_forall₂ hnew hi
    rw [hc] at hp ⊢
    obtain rfl := Option.some.inj hp
    exact helsewhere row (List.mem_filter.1 hrow).1

end View

namespace Crowd

variable {limit : Nat} {c : Crowd (Call.task limit)}

/-- Everybody links new rows away, and so are all rows linked that are stored. -/
def Parted (c : Crowd (Call.task limit)) : Prop :=
  ∃ used, c.Kept (fun _ v w => v.LinksAway w) (fun _ => View.Ends fun _ _ => True) False used ∧
    View.Apart ⟨c.session, used, [], [], False⟩

theorem Parted.access (h : c.Parted) (i : Nat) (hnd : (c.access i).ids.Nodup) : (c.access i).Parted := by
  rcases access_cases c i with hc | ⟨a, q, next, ha, hrest⟩
  · rw [hc]
    exact h
  obtain ⟨used, hkept, hapart⟩ := h
  obtain ⟨hkept', hpromise, -⟩ := hkept.access ha hrest hnd
  have haway : (c.view used False a).LinksAway ((c.view used False a).asked q) := by
    rcases serve_cases q c.session with rfl | ⟨b, rfl, hf⟩ | ⟨hsame, -⟩
    · exact View.linksAway_of_tables_eq rfl
    · exact (hpromise hf).2
    · exact View.linksAway_of_tables_eq (congrArg (fun s => s.store.tables) hsame)
  have hstep := View.step_asked (hkept.good a) hpromise
  have hparted : (c.view used False a).Apart := hapart
  have hparted' : ((c.view used False a).asked q).Apart :=
    hparted.step (hkept.good a) hstep.toGrows (fun h => h) haway
  refine ⟨_, hkept', ?_⟩
  rw [access_eq ha hrest]
  exact hparted'

theorem Parted.after (h : c.Parted) (e : Event ((k : Kind) × Call k)) (hnd : (c.after e).ids.Nodup) :
    (c.after e).Parted := by
  cases e with
  | access i => exact h.access i hnd
  | start call =>
    obtain ⟨used, hkept, hapart⟩ := h
    exact ⟨used, hkept.start hnd fun v hv hr _ hm _ =>
      View.linksAway_call hv (by rw [hr]; exact fun h => h) hm limit call.2, hapart⟩
  | aside e =>
    obtain ⟨used, hkept, hapart⟩ := h
    have hgood : View.Good ⟨c.session, used, [], [], False⟩ := ⟨hkept.ordered, hkept.stored⟩
    have hlater := View.later_of_tables_eq (s := (c.after (.aside e)).session) hgood
      (Session.tables_aside c.session.world e)
    exact ⟨used, hkept.aside e, hapart.step hgood hlater.toGrows (fun h => h)
      (View.linksAway_of_tables_eq (Session.tables_aside c.session.world e))⟩

/-- **A row and the row it is linked to are of different examples**, whatever any number of clients have done over an
empty store. -/
theorem Reaches.apart {registry : Registry} {supply : Nat → BitVec 128}
    (hc : Crowd.Reaches (fun _ _ => True) { session := Session.start registry supply } c)
    (hnd : c.session.minted.Nodup) (k : Kind) : c.session.store.Apart k := by
  have hstart : Parted ({ session := Session.start registry supply } : Crowd (Call.task limit)) := by
    refine ⟨_, kept_start registry supply, fun k id p i hi _ => ?_⟩
    have hget := Store.Ordered.empty.item?_eq_some_iff.1 hi
    rw [Store.get?, Store.table_empty, Table.get?_empty] at hget
    cases hget
  obtain ⟨used, -, hapart⟩ := Reaches.keeps hstart (fun _ e h _ hnd => h.after e hnd) hc (c.ids_eq_minted ▸ hnd)
  exact fun id p i o hi hp ho => (hapart hi hp).2 o ho

end Crowd

end ExampleOverlay
