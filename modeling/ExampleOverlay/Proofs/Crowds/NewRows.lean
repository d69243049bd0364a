import ExampleOverlay.Proofs.Crowds.Calls
import ExampleOverlay.Proofs.Runs.Requests

/-!
# New rows among other clients

Whatever the others do, a call stores rows under new ids in three ways only: it appends a row that is linked to
nothing, it appends one whose parent its caller named, or it puts counterparts of an origin's rows at the end of
the list in which they were missing. So a guarantee about new rows is a guarantee of the calls if it holds of these
three (`View.keeps_call_of_new`). A new row is linked to a row of another example, and since rows keep their
examples it stays so (`View.Elsewhere`).
-/

namespace ExampleOverlay

open Chain Program

variable {k : Kind}

/-- The caller names the row that a new row is linked to. -/
def Call.LinksByHand : Call k → Prop
  | .deltaCreate _ _ (some _) _ => True
  | _ => False

namespace View

variable {v w : View} {G G' : View → View → Prop} {p : ItemId} {owner : ExampleId}

/-- A row was stored under an id, and no row of the example is. -/
def Elsewhere (v : View) (k : Kind) (p : ItemId) (owner : ExampleId) : Prop :=
  v.used k p ∧ ∀ x : Item k, v.store.item? k p = some x → x.owner ≠ owner

theorem Elsewhere.grows (h : v.Elsewhere k p owner) (hw : v.Grows w) : w.Elsewhere k p owner := by
  refine ⟨hw.used h.1, fun y hy => ?_⟩
  obtain ⟨x, hx, ho, -⟩ := hw.rows h.1 hy
  rw [ho]
  exact h.2 x hx

theorem elsewhere_of_item? (hv : v.Good) {x : Item k} (hx : v.store.item? k p = some x) (hne : x.owner ≠ owner) :
    v.Elsewhere k p owner := by
  refine ⟨hv.used (hv.ordered.item?_eq_some_iff.1 hx), fun y hy => ?_⟩
  rw [hx, Option.some.injEq] at hy
  exact hy ▸ hne

/-! ## Programs that mint nothing -/

/-- **A program that mints nothing** has no id to store a new row under: all that it does are steps of a client that
has none. -/
theorem Keeps.of_idle {α : Type} {Q : Except EngineError α → View → Prop} {p : Program α} (h : Keeps G Q p v)
    (hr : ¬ v.relinks) (hm : v.mine = []) (hp : p.Asks (· ≠ .mint))
    (hG : ∀ v w : View, v.Good → v.Step w → ¬ v.relinks → v.mine = [] → G' v w) : Keeps G' Q p v := by
  induction p generalizing v with
  | done r => exact h
  | ask q next ih =>
    intro w hw ha
    obtain ⟨hc, hn⟩ := h w hw ha
    have hr' : ¬ w.relinks := hw.relinks ▸ hr
    have hm' : w.mine = [] := hw.mine.trans hm
    refine ⟨?_, ih _ hn hr' ?_ (hp.2 _)⟩
    · cases q with
      | commit b => exact fun hf => ⟨(hc hf).1, hG _ _ hw.good (hc hf).1 hr' hm'⟩
      | mint => exact absurd rfl hp.1
      | _ => exact True.intro
    · cases q with
      | mint => exact absurd rfl hp.1
      | _ => exact hm'

/-! ## Calls -/

/-- **What calls store under new ids**, whatever the others do: a row that is linked to nothing or whose parent the
caller named, or counterparts of the rows of an origin that had none. -/
theorem keeps_call_of_new (hv : v.Good) (hr : ¬ v.relinks) (hm : v.mine = []) (limit : Nat) (c : Call k)
    (hmint : ∀ u : View, G u (u.asked .mint))
    (hidle : ∀ u w : View, u.Good → u.Step w → ¬ u.relinks → u.mine = [] → G u w)
    (hrow : ∀ (u w : View) (row : Item k) (items : List (Item k)), u.Good → ¬ u.used k row.id →
      row.parent = none ∨ c.LinksByHand → (∀ p, row.parent = some p → u.Elsewhere k p row.owner) →
      u.Lands row.owner items (link none (items ++ [row])) w → G u w)
    (hrows : ∀ (u w : View) (delta : ExampleId) (origin : Chain k) (version : Nat) (items new : List (Item k)), u.Good →
      (idsOf origin.items).Nodup → (∀ row ∈ origin.items, u.Elsewhere k row.id delta) →
      List.Forall₂ (fun row i => i = Item.counterpart i.id delta row)
        (Overlay.uncovered origin ⟨delta, version, items⟩) new →
      (∀ i ∈ new, ¬ u.used k i.id) → u.Lands delta items (link none (items ++ new)) w → G u w) :
    Keeps G (Ends fun _ _ => True) (c.program limit) v := by
  -- a row that is created has no parent
  have hcreate : ∀ (owner : ExampleId) (fields : Fields k) (w : View), w.Good → Keeps G (Ends fun _ _ => True)
      (Service.appendNew limit fun id => Item.fresh id owner fields) w := fun owner fields w hw =>
    keeps_appendNew hw limit _ (fun _ => rfl) hmint fun u z id items hu hnew hl =>
      hrow u z _ items hu.good hnew (Or.inl rfl) (fun p hp => by cases hp) hl
  by_cases hmints : c.Mints
  · cases c with
    | create owner fields => exact (ends_require _).seq hv fun _ w hw _ => hcreate owner fields w hw.good
    | deltaList delta origin =>
      refine (ends_requireOther delta origin).seq hv fun _ w hw hne => ?_
      refine (ends_chain k origin).seq hw.good fun list u hu hlist => ?_
      have helsewhere : ∀ row ∈ list.items, u.Elsewhere k row.id delta := fun row hrow =>
        elsewhere_of_item? hu.good (hlist.item?_of_mem hrow) (hlist.owned row hrow ▸ Ne.symm hne)
      have hmaterialize : Keeps G (Ends fun _ _ => True) (Service.materialize limit list delta) u :=
        keeps_materialize hu.good limit (fun i hi => (helsewhere i hi).1) delta hmint
          (fun _ _ _ => True.intro) (fun _ _ _ _ _ _ => True.intro) fun y z version items new hy hl hnew hunused =>
            ⟨hrows y z delta list version items new hy.good hlist.linked.nodup
              (fun row hrow => (helsewhere row hrow).grows hy.toGrows) hnew hunused hl, fun _ _ _ _ _ => True.intro⟩
      refine hmaterialize.seq hu.good fun _ z hz _ => ?_
      exact (ends_isVersion delta).seq hz.good fun _ _ _ _ => True.intro
    | deltaCreate delta origin parent fields =>
      refine (ends_require _).seq hv fun _ w hw _ => ?_
      cases parent with
      | none => exact hcreate delta fields w hw.good
      | some parent =>
        refine (ends_requireParent hw.good k delta origin parent).seq hw.good fun _ u hu hparent => ?_
        obtain ⟨x, hx, hne⟩ := hparent
        refine keeps_appendNew hu.good limit _ (fun _ => rfl) hmint fun y z id items hy hnew hl =>
          hrow y z _ items hy.good hnew (Or.inr True.intro) (fun p hp => ?_) hl
        obtain rfl := Option.some.inj hp
        exact (elsewhere_of_item? hu.good hx hne).grows hy
    | _ => exact hmints.elim
  · -- all other calls have no id to store a new row under
    have hasks : (c.program limit).Asks (· ≠ .mint) := by
      refine (c.asks limit).mono fun q hq hmint => ?_
      rcases hq with hq | hq
      · rw [hmint] at hq
        exact hq
      · exact hmints hq.1
    refine ((ends_call hv hr limit c).of_idle hr hm hasks hidle).mono hv fun r _ _ _ => ?_
    cases r <;> exact True.intro

end View

end ExampleOverlay
