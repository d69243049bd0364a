import ExampleOverlay.Proofs.Crowds.Calls
import ExampleOverlay.Proofs.Races.Gaps
import ExampleOverlay.Proofs.Runs.Cascades
import ExampleOverlay.Proofs.Runs.Integrity

/-!
# Deletions that overtake

Reading an overlay and creating a row with a parent look at rows of the origin once, and commit rows linked
to them later, under the version of the delta's list alone. A deletion in between removes all counterparts it
finds; those that come afterwards it cannot know of. Whatever such a call commits leaves a row that is linked
to the parent it has read (`View.Links`), so a link to the deleted row is left behind exactly when the call
commits after the deletion (`Session.reaches_linked_iff_committed`).
-/

namespace ExampleOverlay

open Chain Program

variable {k : Kind} {id : ItemId}

/-- A stored row is linked to the row `p`. -/
def Store.HasLinkTo (s : Store) (k : Kind) (p : ItemId) : Prop :=
  ∃ (j : ItemId) (i : Item k), s.item? k j = some i ∧ i.parent = some p

/-- The call makes rows that are linked to the row `id` of `origin`. -/
def Call.Derives (c : Call k) (id : ItemId) (origin : ExampleId) : Prop :=
  match c with
  | .deltaList _ owner => owner = origin
  | .deltaCreate _ owner parent _ => owner = some origin ∧ parent = some id
  | _ => False

namespace View

variable {v w : View} {α β : Type}

/-- The guarantee of what makes rows linked to `id`: after each of its commits there is one. -/
def Links (k : Kind) (id : ItemId) (v w : View) : Prop := w.store = v.store ∨ w.store.HasLinkTo k id

/-- A row of a list that was turned is linked to `id`. -/
theorem hasLinkTo_of_lands {owner : ExampleId} {items order : List (Item k)}
    (hl : v.Lands owner items (link none order) w) (h : ∃ i ∈ order, i.parent = some id) :
    w.store.HasLinkTo k id := by
  obtain ⟨i, hi, hp⟩ := h
  obtain ⟨j, hj, hji⟩ := exists_bare_mem_link none hi
  obtain ⟨-, -, hparent, -, -⟩ := Item.bare_eq_iff.1 hji
  exact ⟨j.id, j, hl.turned.turned.holds.item?_of_mem hj, hparent.trans hp⟩

/-- **Materializing** leaves a row linked to every row of the origin. -/
theorem links_materialize (hv : v.Good) (limit : Nat) {origin : Chain k}
    (horigin : ∀ i ∈ origin.items, v.used k i.id) (delta : ExampleId) {x : Item k} (hx : x ∈ origin.items) :
    Keeps (Links k x.id) (Ends fun _ _ => True) (Service.materialize limit origin delta) v :=
  keeps_materialize hv limit horigin delta (fun _ => Or.inl rfl) (fun _ _ _ => True.intro)
    (fun _ _ _ _ _ _ => True.intro) fun _ _ _ _ _ _ hl hnew _ =>
      ⟨Or.inr (hasLinkTo_of_lands hl (Session.exists_linked_of_forall₂ hx hnew)), fun _ _ _ _ _ => True.intro⟩

/-- **Appending** a new row that is linked to `id`. -/
theorem links_appendNew (hv : v.Good) (limit : Nat) {row : ItemId → Item k} (hid : ∀ i, (row i).id = i)
    (hparent : ∀ i, (row i).parent = some id) :
    Keeps (Links k id) (Ends fun _ _ => True) (Service.appendNew limit row) v :=
  keeps_appendNew hv limit row hid (fun _ => Or.inl rfl) fun _ _ i _ _ _ hl =>
    Or.inr (hasLinkTo_of_lands hl ⟨row i, by simp, hparent i⟩)

end View

namespace Session

variable {s t u : Session} {limit : Nat} {α β : Type}

/-! ## The deletion -/

/-- **A deletion that succeeds** leaves no row linked to the row deleted. -/
theorem Sane.not_hasLinkTo_delete (hs : s.Sane) {report : Cascade.Report}
    (hrun : s.run (Service.delete limit k id) = (.ok report, t)) : ¬ t.store.HasLinkTo k id := by
  cases deletes_delete hs limit k id with
  | refused e h _ =>
    rw [h] at hrun
    cases hrun
  | carried x _ u _ v report' cascaded h =>
    rw [h, Prod.mk.injEq, toResult_eq_ok_iff] at hrun
    obtain ⟨⟨rfl, hcomplete⟩, rfl⟩ := hrun
    rintro ⟨j, i, hi, hp⟩
    have hrow : v.store.bare? k j = some i.bare := Store.bare?_of_item? hi
    rw [cascaded.complete hcomplete] at hrow
    cases hy : u.store.bare? k j with
    | none =>
      rw [carried_of_none hy] at hrow
      cases hrow
    | some y =>
      by_cases hlinked : y.parent = some id
      · rw [carried_of_linked hy hlinked, Item.outlive] at hrow
        split at hrow
        · have hlost : i.bare.parent = none := by rw [← Option.some.inj hrow]
          exact absurd (hlost.symm.trans hp) (by simp)
        · cases hrow
      · rw [carried_of_not_linked hy hlinked, Option.some.injEq] at hrow
        exact hlinked (hrow ▸ hp)

/-! ## Gaps of the calls that are overtaken -/

/-- After its first access a program that reads a list has read it. -/
theorem advance_chain (hs : s.store.Ordered) {owner : ExampleId} {items : List (Item k)}
    (h : s.store.Holds owner items) (f : Chain k → Program α) (n : Nat) :
    s.advance (Program.chain k owner >>= f) (n + 1) =
      s.advance (f ⟨owner, s.store.version k owner, items⟩) n := by
  have hread := h.chain_eq hs.sound
  rw [chain_eq_ask, bind_ask, advance]
  show s.advance (.done (s.store.chain k owner) >>= f) n = _
  rw [hread]
  rfl

/-- After its first access a program that reads a row has read it. -/
theorem advance_get (hs : s.store.Ordered) {i : Item k} (h : s.store.item? k id = some i)
    (f : Item k → Program α) (n : Nat) : s.advance (Program.get k id >>= f) (n + 1) = s.advance (f i) n := by
  have hread : s.store.get? k id = some (Record.ofItem i) := by rw [hs.get?_eq, h]; rfl
  rw [Program.get, find, bind_ask, bind_ask, advance, serve_get, hread]
  simp only [Record.toItem_ofItem]
  rfl

/-- A program that is done makes no access. -/
theorem advance_done (r : Except EngineError α) : ∀ n, s.advance (.done r) n = (.done r, s)
  | 0 => rfl
  | _ + 1 => rfl

/-- A call that makes rows linked to `id` fails before it makes any access, or after its first access what is
left of it leaves a row linked to `id` with every commit. -/
theorem derives_cases (hs : s.Sane) (limit : Nat) {x : Item k} (hx : s.store.item? k id = some x) {c : Call k}
    (hc : c.Derives id x.owner) : (∃ e, c.program limit = .done (.error e)) ∨
      ∃ rest, (∀ n, s.advance (c.program limit) (n + 1) = s.advance rest n) ∧
        View.Keeps (View.Links k id) (View.Ends fun _ _ => True) rest s.view := by
  obtain rfl : x.id = id := hs.ordered.id_of_item? hx
  have hgood := View.good_view hs
  cases c with
  | deltaList delta origin =>
    obtain rfl : origin = x.owner := hc
    by_cases hsame : delta = x.owner
    · exact Or.inl ⟨_, by rw [Call.program, Service.deltaList, Service.requireOther, if_pos hsame]; rfl⟩
    obtain ⟨list, hlist⟩ := hs.ordered.lists k x.owner
    have hmaterialize : View.Keeps (View.Links k x.id) (View.Ends fun _ _ => True)
        (Service.materialize limit ⟨x.owner, s.store.version k x.owner, list⟩ delta) s.view :=
      View.links_materialize hgood limit (fun i hi => hs.minted (hlist.get?_of_mem hi)) delta
        (hlist.mem_of_item? hs.ordered hx rfl)
    refine Or.inr ⟨do
      let deltaList ← Service.materialize limit ⟨x.owner, s.store.version k x.owner, list⟩ delta
      let version ← isVersion delta
      return Overlay.compose ⟨x.owner, s.store.version k x.owner, list⟩ deltaList version, fun n => ?_, ?_⟩
    · rw [Call.program, Service.deltaList, Service.requireOther, if_neg hsame]
      exact advance_chain hs.ordered hlist _ n
    · exact hmaterialize.seq hgood fun _ w hw _ =>
        (View.ends_isVersion delta).seq hw.good fun _ _ _ _ => True.intro
  | deltaCreate delta origin parent fields =>
    obtain ⟨rfl, rfl⟩ := hc
    rw [Call.program, Service.deltaCreate_some]
    cases Fields.fault? fields with
    | some e => exact Or.inl ⟨_, rfl⟩
    | none =>
      by_cases hsame : delta = x.owner
      · exact Or.inl ⟨_, by rw [Service.requireParent, Service.requireOther, if_pos hsame]; rfl⟩
      refine Or.inr ⟨Service.appendNew limit fun i =>
        { Item.fresh i delta fields with parent := some x.id, overridden := true }, fun n => ?_,
        View.links_appendNew hgood limit (fun _ => rfl) fun _ => rfl⟩
      rw [Service.requireParent, Service.requireOther, if_neg hsame]
      refine (congrArg (fun p => s.advance p (n + 1)) (Program.bind_assoc (Program.get k x.id) _ _)).trans
        ((advance_get hs.ordered hx _ n).trans ?_)
      rw [if_pos rfl]
      rfl
  | _ => exact hc.elim

/-- **At a gap**, once it has made an access, a call that makes rows linked to `id` leaves one with every
commit. -/
theorem keeps_of_advance (hs : s.Sane) {x : Item k} (hx : s.store.item? k id = some x) {c : Call k}
    (hc : c.Derives id x.owner) {n : Nat} {q : Request} {next : q.Answer → Program c.Answer}
    (hgap : s.advance (c.program limit) (n + 1) = (.ask q next, t)) (hnd : t.minted.Nodup) :
    ∃ v : View, v.session = t ∧ s.view.Leads v ∧
      View.Keeps (View.Links k id) (View.Ends fun _ _ => True) (.ask q next) v := by
  rcases derives_cases hs limit hx hc with ⟨e, hstop⟩ | ⟨rest, hrest, hkeeps⟩
  · rw [hstop, advance_done] at hgap
    cases hgap
  · exact hkeeps.advance (View.good_view hs) (View.recorded_view s) ((hrest n).symm.trans hgap) hnd

/-- **A deletion overtakes** a call that makes rows linked to the row deleted. -/
theorem Sane.hasLinkTo_iff_committed (hs : s.Sane) {x : Item k} (hx : s.store.item? k id = some x) {c : Call k}
    (hc : c.Derives id x.owner) {n : Nat} {q : Request} {next : q.Answer → Program c.Answer}
    (hgap : s.advance (c.program limit) (n + 1) = (.ask q next, t)) {limit' : Nat} {report : Cascade.Report}
    (hdelete : t.run (Service.delete limit' k id) = (.ok report, u)) {v : Session}
    (hrest : (u.run (.ask q next)).2 = v) (hnd : v.minted.Nodup) :
    v.store.HasLinkTo k id ↔ v.store.commits ≠ u.store.commits := by
  have hu : u = (t.run (Service.delete limit' k id)).2 := by rw [hdelete]
  have hndu : u.minted.Nodup := hnd.sublist (hrest ▸ (run_minted u _).sublist)
  have hndt : t.minted.Nodup := hndu.sublist (hu ▸ (run_minted t _).sublist)
  obtain ⟨a, rfl, ha, hkeeps⟩ := keeps_of_advance hs hx hc hgap hndt
  have hrelinks : ¬ a.relinks := ha.relinks ▸ fun h => h
  have hdeletion := View.ends_call (v := ⟨a.session, a.used, [], [], a.relinks⟩) ⟨ha.good.ordered, ha.good.used⟩
    hrelinks limit' (.delete (k := k) id)
  obtain ⟨b, hb, hlater, hrecorded⟩ := View.later_of_run ha.good ha.recorded hdeletion (hu ▸ hndu)
  have hbu : b.session = u := hb.trans hu.symm
  have hfree : ¬ b.store.HasLinkTo k id := by
    rw [View.store, hbu]
    exact (ha.good.sane ha.recorded).not_hasLinkTo_delete hdelete
  obtain ⟨z, hz, -, -, hchanges⟩ := (hkeeps.later hlater).run hlater.good hrecorded
    (by rw [hbu, hrest]; exact hnd)
  rw [hbu, hrest] at hz
  subst hz hbu
  rcases hchanges with hsame | ⟨hcommits, y, y', hlt, hlinks, hlast⟩
  · exact ⟨fun h => absurd (hsame ▸ h) hfree, fun h => absurd (congrArg Store.commits hsame) h⟩
  · refine ⟨fun _ => Nat.ne_of_gt hcommits, fun _ => ?_⟩
    rcases hlinks with hsame | hlinks
    · exact absurd hlt (hsame ▸ Nat.lt_irrefl _)
    · have hlinked : z.store.HasLinkTo k id := hlast ▸ hlinks
      exact hlinked

/-- **When a deletion leaves a link behind.** In every session reached a client has read an overlay of an
example, or created a row with a parent in it, up to some access after the first, when another client deletes
that row of the example, and succeeds. However the call ends when it goes on, a stored row is linked to the
deleted row then if and only if the call has committed anything after the deletion. -/
theorem reaches_linked_iff_committed (registry : Registry) (supply : Nat → BitVec 128) (limit limit' : Nat)
    (hs : (Session.start registry supply).Reaches limit (fun _ _ => True) s) {x : Item k}
    (hx : s.store.item? k id = some x) {c : Call k} (hc : c.Derives id x.owner) {n : Nat} {q : Request}
    {next : q.Answer → Program c.Answer}
    (hgap : s.advance (c.program limit) (n + 1) = (.ask q next, t)) {report : Cascade.Report}
    (hdelete : t.run (Service.delete limit' k id) = (.ok report, u)) {v : Session}
    (hrest : (u.run (.ask q next)).2 = v) (hnd : v.minted.Nodup) :
    v.store.HasLinkTo k id ↔ v.store.commits ≠ u.store.commits := by
  refine Sane.hasLinkTo_iff_committed (hs.sane (.start registry supply) ?_) hx hc hgap hdelete hrest hnd
  have hu : u = (t.run (Service.delete limit' k id)).2 := by rw [hdelete]
  have ht : t = (s.advance (c.program limit) (n + 1)).2 := by rw [hgap]
  refine hnd.sublist ((List.IsSuffix.trans ?_ (hrest ▸ run_minted u _)).sublist)
  exact (ht ▸ advance_minted s _ _).trans (hu ▸ run_minted t _)

/-- A header of an example, before anybody has looked at it from another one. -/
def solitary : Session :=
  (start {} fun n => BitVec.ofNat 128 (n + 1)).after 3
    (.call (.create (k := .header) ⟨100⟩ (KeyValue.ofPair "Accept" "text/html")))

theorem reaches_solitary : (start {} fun n => BitVec.ofNat 128 (n + 1)).Reaches 3 (fun _ _ => True) solitary :=
  Reaches.refl.step _ True.intro

/-- A row is created with the header for its parent. The header is deleted after it was looked at, and before
the list of the delta is read. -/
theorem reaches_linked_iff_committed_created : ∃ (q : Request) (next : q.Answer → Program ItemId)
    (t u v : Session),
    solitary.advance (Service.deltaCreate (k := .header) 3 ⟨101⟩ (some ⟨100⟩) (some ⟨1⟩)
      (KeyValue.ofPair "Accept" "text/css")) 2 = (.ask q next, t) ∧
    t.run (Service.delete 3 .header ⟨1⟩) = (.ok {}, u) ∧ u.run (.ask q next) = (.ok ⟨2⟩, v) ∧
      v.store.commits ≠ u.store.commits ∧ v.store.HasLinkTo .header ⟨1⟩ := by
  refine ⟨_, _, _, _, _, rfl, rfl, rfl, by decide, ?_⟩
  exact (reaches_linked_iff_committed (k := .header) (c := .deltaCreate ⟨101⟩ (some ⟨100⟩) (some ⟨1⟩)
    (KeyValue.ofPair "Accept" "text/css")) (n := 1) {} _ 3 3 reaches_solitary rfl ⟨rfl, rfl⟩ rfl rfl rfl
    (by decide)).2 (by decide)

/-- What is left of reading an overlay of the header's example when the list of that example was read, and the
list of the delta was not. -/
def begun : Program (List (OverlayRow .header)) × Session :=
  solitary.advance (Service.deltaList 3 .header ⟨101⟩ ⟨100⟩) 1

/-- The session after the header was deleted there. -/
def overtaken : Session := (begun.2.run (Service.delete 3 .header ⟨1⟩)).2

/-- The header is deleted while the overlay is read. Both succeed, and a row of the delta stays linked to the
header that is gone. -/
theorem hasLinkTo_deleted : ∃ (t : Session) (rows : List (OverlayRow .header)),
    (start {} fun n => BitVec.ofNat 128 (n + 1)).Reaches 3 (fun _ _ => True) solitary ∧
    begun.2.run (Service.delete 3 .header ⟨1⟩) = (.ok {}, overtaken) ∧
      overtaken.run begun.1 = (.ok rows, t) ∧ t.minted = [⟨2⟩, ⟨1⟩] ∧
        t.store.get? .header ⟨1⟩ = none ∧ t.store.HasLinkTo .header ⟨1⟩ := by
  refine ⟨(overtaken.run begun.1).2, [⟨⟨2⟩, some ⟨1⟩, KeyValue.ofPair "Accept" "text/html", none, .origin⟩],
    reaches_solitary, Prod.ext (by decide +kernel) rfl, Prod.ext (by decide +kernel) rfl, by decide +kernel,
    by decide +kernel, ?_⟩
  have hlinked : ((overtaken.run begun.1).2.store.item? .header ⟨2⟩).map (·.parent) = some (some ⟨1⟩) := by
    decide +kernel
  obtain ⟨i, hi, hp⟩ := Option.map_eq_some_iff.1 hlinked
  exact ⟨⟨2⟩, i, hi, hp⟩

end Session

end ExampleOverlay
