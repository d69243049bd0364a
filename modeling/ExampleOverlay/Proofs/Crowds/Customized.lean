import ExampleOverlay.Proofs.Crowds.Calls

/-!
# Customization is never lost

Among any number of clients that call the service, with calls in progress and writes made to fail at any
time, a linked row is customized. Once that call has returned, the row stays in its example with its link, is
overridden, and has the fields that were returned, as long as nobody names it or deletes its parent
(`Crowd.reaches_customized`).
-/

namespace ExampleOverlay

open Program

namespace Call

variable {k : Kind}

/-- A call of any kind is run by its client. -/
def task (limit : Nat) (c : (k : Kind) × Call k) : Task := ⟨_, c.2.program limit, []⟩

/-- The call does not name the row `r` and does not delete its parent `p`. -/
def Spares (c : Call k) (k' : Kind) (r p : ItemId) : Prop := ¬ c.Unlinks k' r p ∧ ¬ c.Revises k' r

theorem honours (limit : Nat) (c : (k : Kind) × Call k) :
    Crowd.Honours (View.Respects c.2) (task limit c) (View.Ends (View.Results c.2)) False :=
  fun _ hv hr _ _ _ => View.ends_call hv (by rw [hr]; exact fun h => h) limit c.2

end Call

namespace Crowd

variable {limit : Nat} {c : Crowd (Call.task limit)} {k : Kind} {r p : ItemId} {owner : ExampleId}
  {patch : Patch k} {n i : Nat}

/-- Calls that are started spare the row. -/
def SparesRow (k : Kind) (r p : ItemId) (_ : Crowd (Call.task limit)) : Event ((k : Kind) × Call k) → Prop
  | .start call => call.2.Spares k r p
  | _ => True

/-- Everyone respects linked rows. -/
def Respectful (c : Crowd (Call.task limit)) : Prop :=
  ∃ used, c.Kept (fun call => View.Respects call.2) (fun call => View.Ends (View.Results call.2)) False used

theorem Respectful.after (h : c.Respectful) (e : Event ((k : Kind) × Call k)) (hnd : (c.after e).ids.Nodup) :
    (c.after e).Respectful := by
  obtain ⟨used, hkept⟩ := h
  exact hkept.after e hnd fun call _ => Call.honours limit call

theorem Reaches.respectful {d : Crowd (Call.task limit)}
    {allowed : Crowd (Call.task limit) → Event ((k : Kind) × Call k) → Prop} (hc : c.Respectful)
    (h : c.Reaches allowed d) (hnd : d.ids.Nodup) : d.Respectful :=
  Reaches.keeps hc (fun _ e h _ hnd => h.after e hnd) h hnd

/-- While client `n` customizes the row `r`, the row stays in its example and linked to `p`, and once the
client is done the row is overridden and has the fields returned. The others spare the row. -/
structure Customizing (k : Kind) (r p : ItemId) (owner : ExampleId) (patch : Patch k) (n : Nat)
    (c : Crowd (Call.task limit)) : Prop where
  respectful : c.Respectful
  agent : ∃ rest trace, c.agents[n]? = some ⟨⟨k, .deltaUpdate r patch⟩, rest, trace⟩
  row : ∃ y : Item k, c.session.store.item? k r = some y ∧ y.owner = owner ∧ y.parent = some p ∧
    ∀ a trace, c.agents[n]? = some ⟨⟨k, .deltaUpdate r patch⟩, .done (.ok a), trace⟩ →
      y.overridden = true ∧ y.fields = a.fields
  others : ∀ {j : Nat} {b : Agent (Call.task limit)}, c.agents[j]? = some b → j ≠ n →
    ∀ q next, b.rest = .ask q next →
    b.op.2.Spares k r p

theorem Customizing.start (h : c.Customizing k r p owner patch n) (call : (k : Kind) × Call k)
    (hcall : call.2.Spares k r p) (hnd : (c.after (.start call)).ids.Nodup) :
    (c.after (.start call)).Customizing k r p owner patch n := by
  obtain ⟨rest, trace, hagent⟩ := h.agent
  have hagent' := getElem?_start_of_some hagent call
  refine ⟨h.respectful.after _ hnd, ⟨rest, trace, hagent'⟩, ?_, fun {j b} hb hj q next hrest => ?_⟩
  · rw [hagent', ← hagent]
    exact h.row
  · rcases getElem?_start hb with hb | ⟨-, rfl⟩
    · exact h.others hb hj q next hrest
    · exact hcall

theorem Customizing.aside (h : c.Customizing k r p owner patch n) (e : Aside)
    (hnd : (c.after (.aside e)).ids.Nodup) :
    (c.after (.aside e)).Customizing k r p owner patch n := by
  refine ⟨h.respectful.after _ hnd, h.agent, ?_, h.others⟩
  have htables : (c.after (.aside e)).session.store.tables = c.session.store.tables := Session.tables_aside _ e
  have hitem : (c.after (.aside e)).session.store.item? k r = c.session.store.item? k r := by
    rw [Store.item?, Store.get?, Store.table, htables]
    rfl
  rw [hitem]
  exact h.row

/-- What a client does in one access respects linked rows. -/
theorem respects_access {a : Agent (Call.task limit)} {q : Request} {v : View}
    (h : View.Promises (View.Respects a.op.2) v q) : View.Respects a.op.2 v (v.asked q) := by
  rcases serve_cases q v.session with rfl | ⟨b, rfl, hf⟩ | ⟨hsame, -⟩
  · exact h
  · exact (h hf).2
  · exact View.respects_of_store_eq (congrArg Session.store hsame)

/-- A linked row that a customization has returned is overridden and has the fields that were returned. -/
theorem customized_of_results {v : View} {y a : Item k} (h : View.Results (.deltaUpdate r patch) a v)
    (hy : v.store.item? k r = some y) (hp : y.parent = some p) : y.overridden = true ∧ y.fields = a.fields := by
  obtain ⟨ha, hov⟩ := h
  rw [ha, Option.some.injEq] at hy
  subst hy
  exact ⟨hov (by rw [hp]; rfl), rfl⟩

theorem Customizing.access (h : c.Customizing k r p owner patch n) (i : Nat) (hnd : (c.access i).ids.Nodup) :
    (c.access i).Customizing k r p owner patch n := by
  rcases access_cases c i with hc | ⟨a, q, next, ha, hrest⟩
  · rw [hc]
    exact h
  obtain ⟨used, hkept⟩ := h.respectful
  obtain ⟨rest, trace, hagent⟩ := h.agent
  obtain ⟨y, hy, howner, hparent, hdone⟩ := h.row
  obtain ⟨hkept', hpromise, hresult⟩ := hkept.access ha hrest hnd
  have hget := getElem?_access ha hrest
  have hsession : (c.access i).session = (Session.serve q c.session).2 := by rw [access_eq ha hrest]
  have hrespects := respects_access hpromise
  have hothers : ∀ {j : Nat} {b : Agent (Call.task limit)}, (c.access i).agents[j]? = some b → j ≠ n →
      ∀ q next, b.rest = .ask q next → b.op.2.Spares k r p := by
    intro j b hb hj q' next' hrest'
    rw [hget] at hb
    split at hb
    next hij =>
      cases hb
      have hspares := h.others ha (hij ▸ hj) q next hrest
      exact hspares
    · exact h.others hb hj q' next' hrest'
  by_cases hin : i = n
  · subst hin
    obtain rfl := Option.some.inj (ha.symm.trans hagent)
    obtain ⟨y', hy', howner', hparent', -⟩ := hrespects hy hparent fun h => h
    refine ⟨⟨_, hkept'⟩, ⟨_, _, (hget i).trans (if_pos rfl)⟩,
      ⟨y', ?_, howner'.trans howner, hparent', ?_⟩, hothers⟩
    · rw [hsession]
      exact hy'
    · intro a' trace' hd
      rw [hget, if_pos rfl, Option.some.injEq] at hd
      injection hd with _ hrest' _
      exact customized_of_results (hresult _ hrest') hy' hparent'
  · obtain ⟨hunlinks, hrevises⟩ := h.others ha hin q next hrest
    obtain ⟨y', hy', howner', hparent', hsay⟩ := hrespects hy hparent hunlinks
    have hagent' : (c.access i).agents[n]? = c.agents[n]? := by rw [hget, if_neg hin]
    refine ⟨⟨_, hkept'⟩, ⟨rest, trace, hagent'.trans hagent⟩,
      ⟨y', ?_, howner'.trans howner, hparent', ?_⟩, hothers⟩
    · rw [hsession]
      exact hy'
    · intro a' trace' hd
      obtain ⟨hov, hf⟩ := hdone a' trace' (hagent'.symm.trans hd)
      obtain ⟨hov', hf'⟩ := hsay hrevises hov
      exact ⟨hov', hf'.trans hf⟩

theorem Customizing.after (h : c.Customizing k r p owner patch n) (e : Event ((k : Kind) × Call k))
    (he : c.SparesRow k r p e) (hnd : (c.after e).ids.Nodup) : (c.after e).Customizing k r p owner patch n := by
  cases e with
  | start call => exact h.start call he hnd
  | access i => exact h.access i hnd
  | aside e => exact h.aside e hnd

/-- **Customization is never lost.** Take any crowd that called the service over an empty store, with any calls
still in progress and anything made to fail or registered in between, and any row of it that is linked to a
parent. A client starts to customize that row; calls that are in progress or start later spare it. Whenever
the client is done with a value, the row is stored in its example with its link, is overridden, and has
exactly the fields of that value, whatever else has happened since. -/
theorem reaches_customized (registry : Registry) (supply : Nat → BitVec 128) (limit : Nat)
    {c d : Crowd (Call.task limit)}
    (hc : Crowd.Reaches (fun _ _ => True) { session := Session.start registry supply } c) {k : Kind}
    {r p : ItemId} {x : Item k} (hx : c.session.store.get? k r = some (Record.ofItem x))
    (hp : x.parent = some p)
    (hbusy : ∀ a ∈ c.agents, ∀ q next, a.rest = .ask q next → a.op.2.Spares k r p) (patch : Patch k)
    (hd : (c.after (.start ⟨k, .deltaUpdate r patch⟩)).Reaches (SparesRow k r p) d) (hnd : d.ids.Nodup)
    {a : Item k} {trace : List Access}
    (hdone : d.agents[c.agents.length]? = some ⟨⟨k, .deltaUpdate r patch⟩, .done (.ok a), trace⟩) :
    ∃ y : Item k, d.session.store.get? k r = some (Record.ofItem y) ∧ y.owner = x.owner ∧ y.parent = some p ∧
      y.overridden = true ∧ y.fields = a.fields := by
  have hnd' := hnd.sublist hd.ids_sublist
  have hstart : Respectful ({ session := Session.start registry supply } : Crowd (Call.task limit)) :=
    ⟨_, kept_start registry supply⟩
  have hrespectful := hc.respectful hstart (hnd'.sublist (ids_after c _))
  obtain ⟨used, hkept⟩ := hrespectful
  have hrow := hkept.ordered.item?_eq_some_iff.2 hx
  have hagent : (c.after (.start ⟨k, .deltaUpdate r patch⟩)).agents[c.agents.length]? =
      some ⟨⟨k, .deltaUpdate r patch⟩, Service.deltaUpdate limit r patch, []⟩ := List.getElem?_concat_length
  have hbegin :
      (c.after (.start ⟨k, .deltaUpdate r patch⟩)).Customizing k r p x.owner patch c.agents.length := by
    refine ⟨Respectful.after ⟨used, hkept⟩ _ hnd', ⟨_, _, hagent⟩, ⟨x, hrow, rfl, hp, fun a' trace' hd' => ?_⟩,
      fun {j b} hb hj q next hrest => ?_⟩
    · rw [hagent, Option.some.injEq] at hd'
      injection hd' with _ hprogram _
      have hcall := View.ends_call (v := ⟨c.session, used, [], [], False⟩) ⟨hkept.ordered, hkept.stored⟩
        (fun h => h) limit
        (.deltaUpdate r patch)
      rw [show (Call.deltaUpdate r patch).program limit = .done (.ok a') from hprogram] at hcall
      exact customized_of_results hcall hrow hp
    · rcases getElem?_start hb with hb | ⟨hj', -⟩
      · exact hbusy b (List.mem_of_getElem? hb) q next hrest
      · exact absurd hj' hj
  have hend := Reaches.keeps hbegin (fun _ e h he hnd => h.after e he hnd) hd hnd
  obtain ⟨_, hkept'⟩ := hend.respectful
  obtain ⟨y, hy, ho, hp', hov⟩ := hend.row
  exact ⟨y, hkept'.ordered.item?_eq_some_iff.1 hy, ho, hp', hov a trace hdone⟩

/-- An update of the parent has looked at the row, has found it pristine and has the values to write, when
the row is customized; then it goes on. -/
theorem reaches_customized_overtaken : ∃ (d : Crowd (Call.task 2)) (y : Item .header), d.agents.length = 4 ∧
    d.session.store.get? .header ⟨2⟩ = some (Record.ofItem y) ∧ y.owner = ⟨101⟩ ∧ y.parent = some ⟨1⟩ ∧
      y.overridden = true ∧ y.fields = KeyValue.ofPair "Accept" "text/html; q=1" := by
  have hc : Crowd.Reaches (fun _ _ => True)
      ({ session := Session.start {} fun n => BitVec.ofNat 128 (n + 1) } : Crowd (Call.task 2)) _ :=
    Reaches.refl.foldl [
      .start ⟨.header, .create ⟨100⟩ (KeyValue.ofPair "Accept" "text/html")⟩, .access 0, .access 0, .access 0,
      .start ⟨.header, .deltaList ⟨101⟩ ⟨100⟩⟩, .access 1, .access 1, .access 1, .access 1, .access 1, .access 1,
      .start ⟨.header, .update ⟨1⟩ { value := some "text/plain" }⟩, .access 2, .access 2, .access 2, .access 2,
      .access 2, .access 2, .access 2] fun _ _ _ => True.intro
  have hspares : ∀ op ∈ ([⟨.header, .create ⟨100⟩ (KeyValue.ofPair "Accept" "text/html")⟩,
      ⟨.header, .deltaList ⟨101⟩ ⟨100⟩⟩, ⟨.header, .update ⟨1⟩ { value := some "text/plain" }⟩] :
        List ((k : Kind) × Call k)), op.2.Spares .header ⟨2⟩ ⟨1⟩ := by
    simp [Call.Spares, Call.Unlinks, Call.Revises]
  obtain ⟨y, hy, ho, hp, hov, hf⟩ := reaches_customized {} (fun n => BitVec.ofNat 128 (n + 1)) 2 hc
    (show Store.get? _ .header ⟨2⟩ = some _ from rfl) (show _ = some ⟨1⟩ from rfl)
    (fun a ha _ _ _ => hspares a.op (List.mem_map_of_mem (f := Agent.op) ha)) { value := some "text/html; q=1" }
    (.foldl [.access 3, .access 3, .access 3, .access 2, .access 2] .refl (by simp [SparesRow]))
      (by decide +kernel) rfl
  exact ⟨_, y, by decide +kernel, hy, ho, hp, hov, hf⟩

end Crowd

end ExampleOverlay
