import ExampleOverlay.Proofs.Crowds.Crowd
import ExampleOverlay.Proofs.Crowds.Edits

/-!
# Edits are serializable

Any number of clients append, remove, move and change rows of one store. An edit reads and commits in
accesses of their own, between which the others go on, but commits only under the version of the list that
it read. So the edits whose commits went through have done what they do when they are run one after another,
each at once, in the order of their commits (`Crowd.reaches_serial`).
-/

namespace ExampleOverlay

open Program

/-! ## Edits as tasks -/

/-- An edit of a list. -/
inductive Edit where
  | append {k : Kind} (item : Item k)
  | remove (k : Kind) (id : ItemId)
  | move (k : Kind) (owner : ExampleId) (id target : ItemId) (side : Side)
  | modify {k : Kind} (id : ItemId) (edit : Item k → Except EngineError (Item k × Bool))

namespace Edit

/-- An edit is run by its client; one that appends brings its id along. -/
def task (limit : Nat) : Edit → Task
  | .append item => ⟨_, Editing.append limit item, [item.id]⟩
  | .remove k id => ⟨_, Editing.remove limit k id, []⟩
  | .move k owner id target side => ⟨_, Editing.move limit k owner id target side, []⟩
  | .modify id edit => ⟨_, Editing.modify limit id edit, []⟩

/-- A row that is changed stays in its place. -/
def StaysInPlace : Edit → Prop
  | .modify _ edit => Session.InPlace edit
  | _ => True

/-- The edits were run one after another, each of them with success. -/
inductive Serially (limit : Nat) (s : Session) : List Edit → Session → Prop
  | nil : Serially limit s [] s
  | snoc {edits : List Edit} {t u : Session} {e : Edit} {a : (e.task limit).Answer} : Serially limit s edits t →
    t.run (e.task limit).program = (.ok a, u) → Serially limit s (edits ++ [e]) u

/-- The guarantee of an edit: it commits once, against the list that it scanned last, and changes what it
changes when it is run at that moment at once. -/
structure Serializes (limit : Nat) (e : Edit) (v w : View) : Prop where
  atomic : ∃ a, v.session.run (e.task limit).program = (.ok a, w.session)
  first : v.applied = 0
  planned : ∃ b owner, w.trace = ⟨.commit b, none⟩ :: v.trace ∧
    Guard.version owner (v.store.version b.kind owner) ∈ b.guards ∧
    Access.lastScan? v.trace = some (b.kind, owner, v.store.scan b.kind owner)

theorem serializes_of_lands {limit : Nat} {e : Edit} {v u w : View} {k : Kind} {owner : ExampleId}
    {items items' : List (Item k)} (ht : v.trace = []) (hu : v.Waits u) (hl : u.Lands owner items items' w)
    (hrun : ∃ a, u.session.run (e.task limit).program = (.ok a, w.session)) : e.Serializes limit u w := by
  obtain ⟨b, htrace, rfl, hguard⟩ := hl.guarded
  refine ⟨hrun, ?_, b, owner, htrace, hguard, hl.scanned⟩
  rw [hu.applied, View.applied, ht]
  rfl

/-- **Every edit keeps to its guarantee**, whatever the others do. -/
theorem honours (limit : Nat) (e : Edit) (he : e.StaysInPlace) :
    Crowd.Honours (e.Serializes limit) (e.task limit) (fun _ _ => True) True := by
  intro v hv hr ht hm hn
  cases e with
  | append item =>
    refine View.keeps_append hv limit (by rw [hm]; exact List.mem_singleton_self _)
      (hn _ _ (List.mem_singleton_self _))
      (fun _ _ _ => True.intro) fun u w items stored hu hl hrun _ => ⟨?_, True.intro⟩
    exact serializes_of_lands (e := .append item) ht hu hl hrun
  | remove k id =>
    refine View.keeps_remove hv limit id (fun _ _ _ => True.intro)
      fun u w items x removed hu _ hl hrun _ => ⟨?_, True.intro⟩
    exact serializes_of_lands (e := .remove k id) ht hu hl hrun
  | move k owner id target side =>
    refine View.keeps_move hv limit owner id target side (fun _ _ _ => True.intro) (fun _ _ => True.intro)
      fun u w items order hu _ hl hrun => ⟨?_, True.intro⟩
    exact serializes_of_lands (e := .move k owner id target side) ht hu hl hrun
  | modify id edit =>
    refine View.keeps_modify hv limit id he (Or.inl (by rw [hr]; exact True.intro)) (fun _ _ _ => True.intro)
      (fun _ _ _ _ _ _ => True.intro) fun u w items x edited hu _ _ hl hrun => ⟨?_, True.intro⟩
    exact serializes_of_lands (e := .modify id edit) ht hu hl hrun

end Edit

namespace Crowd

variable {limit : Nat} {c : Crowd (Edit.task limit)}

/-- Only edits in place are started, and nothing changes beside the clients. -/
def EditsOnly (_ : Crowd (Edit.task limit)) : Event Edit → Prop
  | .start e => e.StaysInPlace
  | .access _ => True
  | .aside _ => False

/-- What holds of a crowd of edits: each client has committed at most once, and what is stored is what the
edits that committed leave when they are run one after another. -/
structure Serialized (s : Session) (c : Crowd (Edit.task limit)) : Prop where
  kept : ∃ used, c.Kept (Edit.Serializes limit) (fun _ _ _ => True) True used
  once : c.accepted.Nodup
  counted : c.Counted
  serial : ∃ edits, c.accepted.map c.op? = edits.map some ∧ Edit.Serially limit s edits c.session

theorem Serialized.access {s : Session} (h : c.Serialized s) (i : Nat) (hnd : (c.access i).ids.Nodup) :
    (c.access i).Serialized s := by
  rcases access_cases c i with hc | ⟨a, q, next, ha, hrest⟩
  · rw [hc]
    exact h
  obtain ⟨used, hkept⟩ := h.kept
  obtain ⟨edits, hmap, hserial⟩ := h.serial
  obtain ⟨hkept', hpromise, -⟩ := hkept.access ha hrest hnd
  have hmap' : c.accepted.map (c.access i).op? = edits.map some := map_op?_after hmap (.access i)
  rcases serve_cases q c.session with rfl | ⟨b, rfl, hf⟩ | ⟨hsame, hquiet⟩
  · -- edits mint nothing
    obtain ⟨b, owner, htrace, -⟩ := (hpromise : Edit.Serializes limit a.op _ _).planned
    cases htrace
  · obtain ⟨-, hG⟩ := hpromise hf
    obtain ⟨r, hrun⟩ := hG.atomic
    have haccepted := accepted_access ha hrest hf
    have hnew : i ∉ c.accepted := h.counted.not_mem ha hG.first
    have hop : (c.access i).op? i = some a.op := by
      rw [op?, getElem?_access ha hrest, if_pos rfl]
      rfl
    refine ⟨⟨_, hkept'⟩, ?_, h.counted.access i, edits ++ [a.op], ?_, ?_⟩
    · rw [haccepted, ← List.concat_eq_append]
      exact h.once.concat hnew
    · rw [haccepted, List.map_append, List.map_append, hmap', List.map_singleton, List.map_singleton, hop]
    · rw [access_eq ha hrest]
      exact hserial.snoc hrun
  · have haccepted : (c.access i).accepted = c.accepted := by rw [access_eq ha hrest, hquiet]; rfl
    have hsession : (c.access i).session = c.session := by rw [access_eq ha hrest]; exact hsame
    refine ⟨⟨_, hkept'⟩, ?_, h.counted.access i, edits, ?_, ?_⟩
    · rw [haccepted]; exact h.once
    · rw [haccepted]; exact hmap'
    · rw [hsession]; exact hserial

theorem Serialized.start {s : Session} (h : c.Serialized s) (e : Edit) (he : e.StaysInPlace)
    (hnd : (c.after (.start e)).ids.Nodup) : (c.after (.start e)).Serialized s := by
  obtain ⟨used, hkept⟩ := h.kept
  obtain ⟨edits, hmap, hserial⟩ := h.serial
  exact ⟨⟨used, hkept.start hnd (Edit.honours limit e he)⟩, h.once, h.counted.start e, edits,
    map_op?_after hmap _, hserial⟩

theorem Serialized.after {s : Session} (h : c.Serialized s) (e : Event Edit) (he : c.EditsOnly e)
    (hnd : (c.after e).ids.Nodup) : (c.after e).Serialized s := by
  cases e with
  | start e => exact h.start e he hnd
  | access i => exact h.access i hnd
  | aside e => exact he.elim

/-- **Edits are serializable.** Any number of clients start any edits over an empty store and make their
accesses in any order, the rows to append having ids of their own. Then at any time every list is one chain
of exactly its rows; no client has committed twice; what is stored is what the edits that committed leave
when they are run one after another, each at once and with success, in the order of their commits; and a
commit that is about to go through is made under the version of a list whose rows are still those of the
client's last scan. -/
theorem reaches_serial (registry : Registry) (supply : Nat → BitVec 128) (limit : Nat)
    {c : Crowd (Edit.task limit)}
    (hc : Crowd.Reaches EditsOnly { session := Session.start registry supply } c) (hnd : c.ids.Nodup) :
    c.session.store.Intact ∧ c.accepted.Nodup ∧
    (∃ edits, c.accepted.map c.op? = edits.map some ∧
      Edit.Serially limit (Session.start registry supply) edits c.session) ∧
    ∀ (i : Nat) (a : Agent (Edit.task limit)) b next, c.agents[i]? = some a →
      a.rest = .ask (.commit b) next → c.session.store.fault? b = none →
      ∃ owner, Guard.version owner (c.session.store.version b.kind owner) ∈ b.guards ∧
        Access.lastScan? a.trace = some (b.kind, owner, c.session.store.scan b.kind owner) := by
  have hstart : Serialized (c := ({ session := Session.start registry supply } : Crowd (Edit.task limit)))
      (Session.start registry supply) :=
    ⟨⟨_, kept_start registry supply⟩, List.nodup_nil, fun _ hi => absurd hi List.not_mem_nil, [], rfl, .nil⟩
  have h := Reaches.keeps hstart (fun _ e h he hnd => h.after e he hnd) hc hnd
  obtain ⟨used, hkept⟩ := h.kept
  refine ⟨hkept.ordered.intact, h.once, h.serial, fun i a b next ha hrest hf => ?_⟩
  have hv := hkept.good a
  obtain ⟨-, hG⟩ := (hkept.keeps ha _ next hrest _ (.refl hv) True.intro).1 hf
  obtain ⟨b', owner, htrace, hguard, hscan⟩ := hG.planned
  have hrequest : Request.commit b = .commit b' := congrArg Access.request (List.cons.inj htrace).1
  cases hrequest
  exact ⟨owner, hguard, hscan⟩

/-- Two clients append to one list and both scan it before either commits: the second commit is refused and
planned again. -/
theorem reaches_serial_contended : ∃ c : Crowd (Edit.task 2), c.session.store.Intact ∧ c.accepted = [0, 1] ∧
    (∃ edits, c.accepted.map c.op? = edits.map some ∧
      Edit.Serially 2 (Session.start {} fun n => BitVec.ofNat 128 n) edits c.session) ∧
    c.session.store.version .header ⟨100⟩ = 2 := by
  have hone : Crowd.Reaches EditsOnly
      ({ session := Session.start {} fun n => BitVec.ofNat 128 n } : Crowd (Edit.task 2)) _ :=
    .step (.start (Edit.append (k := .header) (Item.fresh ⟨1⟩ ⟨100⟩ (KeyValue.ofPair "a" "b"))))
      .refl True.intro
  have hstart := hone.step
    (.start (Edit.append (k := .header) (Item.fresh ⟨2⟩ ⟨100⟩ (KeyValue.ofPair "c" "d")))) True.intro
  have h := reaches_serial {} (fun n => BitVec.ofNat 128 n) 2
    ((((((hstart.step (.access 0) True.intro).step (.access 1) True.intro).step (.access 0) True.intro).step
      (.access 1) True.intro).step (.access 1) True.intro).step (.access 1) True.intro) (by decide)
  exact ⟨_, h.1, by decide, h.2.2.1, by decide⟩

end Crowd

end ExampleOverlay
