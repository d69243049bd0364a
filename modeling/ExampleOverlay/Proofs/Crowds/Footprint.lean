import ExampleOverlay.Proofs.Crowds.Customized
import ExampleOverlay.Proofs.Runs.Once

/-!
# How far a call reaches

A client that for a while has a store to itself, whatever any number of clients have done there before, makes
calls. One that fails leaves nothing behind: the store is what it was, rows, indexes, versions and the count
of commits, unless a cascade was left incomplete (`Crowd.reaches_untouched`). Those that work on the list of
one example leave the lists of all other examples alone, with their order and their versions, and of that
example the lists of kinds that were not served (`Crowd.reaches_confined`).
-/

namespace ExampleOverlay

open Program

namespace Session

variable {limit : Nat} {serves : Kind → Prop} {delta owner : ExampleId} {k : Kind} {s t : Session}

/-- Ids that were minted stay recorded over a run. -/
theorem Reaches.minted {allowed : Session → Event → Prop} (h : s.Reaches limit allowed t) :
    s.minted <:+ t.minted := by
  induction h with
  | refl => exact List.suffix_rfl
  | step e _ _ ih => exact ih.trans (minted_after _ e)

/-- Only calls that work on the list of one example are made, and for kinds that are served. -/
def WorkingOn (serves : Kind → Prop) (delta : ExampleId) (s : Session) : Event → Prop
  | .call (k := k) c => serves k ∧ c.WorksOn s.store delta
  | .aside _ => True

/-- A call that works on one list leaves the others alone, whether it succeeds or fails. -/
theorem scan_call (hs : s.Sane) (limit : Nat) {l : Kind} {c : Call l} (hc : c.WorksOn s.store delta)
    (hnd : (s.run (c.program limit)).2.minted.Nodup) (hother : k ≠ l ∨ owner ≠ delta) :
    (s.run (c.program limit)).2.store.scan k owner = s.store.scan k owner := by
  cases once_call hs limit hc hnd with
  | nothing h => rw [h]
  | list holds turned => exact turned.scan_eq hs.ordered.sound holds hother

theorem scan_after (hs : s.Sane) {e : Event} (he : WorkingOn serves delta s e)
    (hnd : (s.after limit e).minted.Nodup) (hother : owner ≠ delta ∨ ¬ serves k) :
    (s.after limit e).store.scan k owner = s.store.scan k owner := by
  cases e with
  | aside a =>
    have htables : (s.after limit (.aside a)).store.tables = s.store.tables := tables_aside s.world a
    rw [Store.scan, Store.table, htables]
    rfl
  | @call l c =>
    obtain ⟨hserved, hc⟩ := he
    refine scan_call hs limit hc hnd (hother.symm.imp_left ?_)
    rintro hk rfl
    exact hk hserved

/-- **Work on one list leaves the others alone** over a whole run. -/
theorem Reaches.scan_eq (hs : s.Sane) (h : s.Reaches limit (WorkingOn serves delta) t) (hnd : t.minted.Nodup)
    (hother : owner ≠ delta ∨ ¬ serves k) : t.Sane ∧ t.store.scan k owner = s.store.scan k owner := by
  refine Reaches.keeps (P := fun u => u.Sane ∧ u.store.scan k owner = s.store.scan k owner) ⟨hs, rfl⟩
    (fun u e hu he hnd' => ?_) h hnd
  exact ⟨hu.1.after e hnd', (scan_after hu.1 he hnd' hother).trans hu.2⟩

end Session

namespace Crowd

variable {limit : Nat} {c : Crowd (Call.task limit)}

/-- Clients that call the service bring no ids along. -/
theorem ids_eq_minted (c : Crowd (Call.task limit)) : c.ids = c.session.minted := by
  have hown : c.agents.flatMap (fun a => (Call.task limit a.op).own) = [] :=
    List.flatMap_eq_nil_iff.2 fun _ _ => rfl
  rw [ids, hown, List.nil_append]

/-- What clients have done is sane for the next one. -/
theorem Reaches.sane {registry : Registry} {supply : Nat → BitVec 128}
    (hc : Crowd.Reaches (fun _ _ => True) { session := Session.start registry supply } c)
    (hnd : c.session.minted.Nodup) : c.session.Sane := by
  obtain ⟨used, hkept⟩ := hc.respectful ⟨_, kept_start registry supply⟩ (c.ids_eq_minted ▸ hnd)
  exact ⟨hkept.ordered, fun hr => c.ids_eq_minted ▸ hkept.seen (hkept.stored hr)⟩

/-- **Calls that fail leave the store as it was.** Whatever any number of clients have done over an empty store,
with calls still in progress and any rows made to fail, a call that a client then makes alone and that fails
has left every row, both indexes, every version and the count of commits as they were; an update or a deletion,
unless it tells of an incomplete cascade. -/
theorem reaches_untouched (registry : Registry) (supply : Nat → BitVec 128) (limit : Nat)
    {c : Crowd (Call.task limit)}
    (hc : Crowd.Reaches (fun _ _ => True) { session := Session.start registry supply } c) {k : Kind}
    (call : Call k) (hnd : (c.session.run (call.program limit)).2.minted.Nodup) {e : EngineError}
    (he : (c.session.run (call.program limit)).1 = .error e)
    (hcascade : call.Cascades → ∀ report, e ≠ .cascadeIncomplete report) :
    (c.session.run (call.program limit)).2.store = c.session.store := by
  have hs := hc.sane (hnd.sublist (Session.run_minted c.session _).sublist)
  refine (Session.store_eq_of_call hs limit call hnd he).resolve_left ?_
  rintro ⟨hcall, report, hreport⟩
  exact hcascade hcall report hreport

/-- A header that has a counterpart was made to fail, while another client is about to delete it. -/
def stalled : Crowd (Call.task 2) := [
    .start ⟨.header, .create ⟨100⟩ (KeyValue.ofPair "Accept" "text/html")⟩, .access 0, .access 0, .access 0,
    .start ⟨.header, .deltaList ⟨101⟩ ⟨100⟩⟩, .access 1, .access 1, .access 1, .access 1, .access 1, .access 1,
    .start ⟨.header, .delete ⟨1⟩⟩, .access 2, .access 2, .aside (.failWrites ⟨1⟩)].foldl after
  { session := Session.start {} fun n => BitVec.ofNat 128 (n + 1) }

/-- An update is refused at its first commit. -/
theorem reaches_untouched_refused : stalled.session.store.rowCount .header = 2 ∧
    ∃ detail, (stalled.session.run (Service.update (k := .header) 2 ⟨1⟩ { value := some "text/plain" })).1 =
      .error (.store (.backend detail)) ∧
    (stalled.session.run (Service.update (k := .header) 2 ⟨1⟩ { value := some "text/plain" })).2.store =
      stalled.session.store :=
  ⟨by decide, _, rfl, reaches_untouched {} (fun n => BitVec.ofNat 128 (n + 1)) 2
    (.foldl _ .refl fun _ _ _ => True.intro) (.update (k := .header) ⟨1⟩ { value := some "text/plain" })
    (by decide) rfl (by simp)⟩

/-- **Work on one example does not reach the others.** After whatever any number of clients have done over an
empty store, a client makes calls that work on the list of one example, for some kinds, whether they succeed
or fail. Every other example then has the same rows in the same order at the same version, and so has this
example for the kinds that were not served. -/
theorem reaches_confined (registry : Registry) (supply : Nat → BitVec 128) (limit : Nat)
    {c : Crowd (Call.task limit)}
    (hc : Crowd.Reaches (fun _ _ => True) { session := Session.start registry supply } c)
    {serves : Kind → Prop} {delta : ExampleId} {t : Session}
    (ht : c.session.Reaches limit (Session.WorkingOn serves delta) t) (hnd : t.minted.Nodup) {k : Kind}
    {owner : ExampleId} (hother : owner ≠ delta ∨ ¬ serves k) :
    (∀ r : Record, t.store.get? k r.id = some r ∧ r.owner = owner ↔
      c.session.store.get? k r.id = some r ∧ r.owner = owner) ∧
    t.store.chain k owner = c.session.store.chain k owner ∧
    t.store.version k owner = c.session.store.version k owner := by
  have hs := hc.sane (hnd.sublist ht.minted.sublist)
  obtain ⟨hs', hscan⟩ := ht.scan_eq hs hnd hother
  refine ⟨fun r => ?_, ?_, congrArg Scan.version hscan⟩
  · have hrows : r ∈ (t.store.scan k owner).records ↔ r ∈ (c.session.store.scan k owner).records := by
      rw [hscan]
    exact ((hs'.ordered.sound k).mem_ofOwner.symm.trans hrows).trans (hs.ordered.sound k).mem_ofOwner
  · rw [Store.chain, Store.chain, hscan]

/-- Two headers of an example. -/
def paired : Crowd (Call.task 2) := [
    .start ⟨.header, .create ⟨100⟩ (KeyValue.ofPair "Accept" "text/html")⟩, .access 0, .access 0, .access 0,
    .start ⟨.header, .create ⟨100⟩ (KeyValue.ofPair "Host" "a")⟩, .access 1, .access 1, .access 1].foldl after
  { session := Session.start {} fun n => BitVec.ofNat 128 (n + 1) }

/-- Their overlay is read, customized, put into another order, given rows of the origin as arguments in vain,
and cut short. -/
def reworked : Session :=
  ((((paired.session.after 2
    (.call (.deltaList (k := .header) ⟨101⟩ ⟨100⟩))).after 2
    (.call (.deltaUpdate (k := .header) ⟨3⟩ { value := some "text/plain" }))).after 2
    (.call (.deltaMove (k := .header) ⟨101⟩ ⟨4⟩ ⟨3⟩ .before))).after 2
    (.call (.deltaMove (k := .header) ⟨101⟩ ⟨1⟩ ⟨2⟩ .after))).after 2
    (.call (.deltaDelete (k := .header) ⟨4⟩))

theorem reaches_reworked :
    paired.session.Reaches 2 (Session.WorkingOn (· = .header) ⟨101⟩) reworked := by
  have hrow : ∀ {st : Store} {id : ItemId}, (st.get? .header id).map (·.owner) = some ⟨101⟩ →
      ∀ r, st.get? .header id = some r → r.owner = ⟨101⟩ := fun h r hr => by
    rw [hr] at h
    exact Option.some.inj h
  have hstart : paired.session.Reaches 2 (Session.WorkingOn (· = .header) ⟨101⟩) paired.session := .refl
  have hread := hstart.step (.call (.deltaList (k := .header) ⟨101⟩ ⟨100⟩)) ⟨rfl, rfl⟩
  have hcustomized := hread.step (.call (.deltaUpdate (k := .header) ⟨3⟩ { value := some "text/plain" }))
    ⟨rfl, hrow (by decide +kernel)⟩
  have hmoved := hcustomized.step (.call (.deltaMove (k := .header) ⟨101⟩ ⟨4⟩ ⟨3⟩ .before)) ⟨rfl, rfl⟩
  have hrefused := hmoved.step (.call (.deltaMove (k := .header) ⟨101⟩ ⟨1⟩ ⟨2⟩ .after)) ⟨rfl, rfl⟩
  exact hrefused.step (.call (.deltaDelete (k := .header) ⟨4⟩)) ⟨rfl, hrow (by decide +kernel)⟩

theorem reaches_confined_reworked : reworked.store.rowCount .header = 3 ∧
    reworked.store.version .header ⟨101⟩ = 4 ∧
    reworked.store.chain .header ⟨100⟩ = paired.session.store.chain .header ⟨100⟩ ∧
    reworked.store.version .header ⟨100⟩ = paired.session.store.version .header ⟨100⟩ ∧
    reworked.store.version .query ⟨101⟩ = paired.session.store.version .query ⟨101⟩ := by
  have hheader := reaches_confined {} (fun n => BitVec.ofNat 128 (n + 1)) 2
    (.foldl _ .refl fun _ _ _ => True.intro) reaches_reworked (by decide +kernel)
    (show (⟨100⟩ : ExampleId) ≠ ⟨101⟩ ∨ ¬ Kind.header = .header from Or.inl (by decide))
  have hquery := reaches_confined {} (fun n => BitVec.ofNat 128 (n + 1)) 2
    (.foldl _ .refl fun _ _ _ => True.intro) reaches_reworked (by decide +kernel)
    (show (⟨101⟩ : ExampleId) ≠ ⟨101⟩ ∨ ¬ Kind.query = .header from Or.inr (by decide))
  exact ⟨by decide +kernel, by decide +kernel, hheader.2.1, hheader.2.2, hquery.2.2⟩

end Crowd

end ExampleOverlay
