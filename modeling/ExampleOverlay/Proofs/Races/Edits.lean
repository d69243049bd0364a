import ExampleOverlay.Proofs.Races.Gaps
import ExampleOverlay.Proofs.Runs.Cascades

/-!
# Changes of rows that are overtaken

A row is changed in its place while another client changes rows. If the change goes through in the end, it is
as if it had begun after the other client was done: the commit is under the version of the list that was read,
so either the list is still what it was, or the change is planned anew (`Session.throughout_modify`).
-/

namespace ExampleOverlay

open Chain Program

/-- The request is an access to the row `id` or to the list of `owner`, and writes no other row. -/
def Request.Touches (k : Kind) (id : ItemId) (owner : ExampleId) : Request → Prop
  | .get kind id' => kind = k ∧ id' = id
  | .scan kind owner' => kind = k ∧ owner' = owner
  | .commit b => b.kind = k ∧ ∀ w ∈ b.writes, w.id = id
  | _ => False

/-- The request is about the row `id` of `owner`, the rows linked to it or the list it is in, or it asks for no
row at all. -/
def Request.Heeds (k : Kind) (id : ItemId) (owner : ExampleId) : Request → Prop
  | .get kind id' => kind = k ∧ id' = id
  | .scan kind owner' => kind = k ∧ owner' = owner
  | .children kind parent => kind = k ∧ parent = id
  | .commit b => b.kind = k ∧ ∃ w ∈ b.writes, w.id = id
  | .versionOf _ | .mint => True

variable {k : Kind} {α β : Type}

theorem Request.Touches.not_heeds {q : Request} {id id' : ItemId} {owner owner' : ExampleId}
    (h : q.Touches k id' owner') (hid : id' ≠ id) (ho : owner' ≠ owner) : ¬ q.Heeds k id owner := by
  cases q with
  | get kind i => exact fun hh => hid (h.2.symm.trans hh.2)
  | scan kind o => exact fun hh => ho (h.2.symm.trans hh.2)
  | commit b => exact fun ⟨_, w, hw, hh⟩ => hid ((h.2 w hw).symm.trans hh)
  | _ => exact h.elim

namespace Session

variable {s t u v : Session}

/-! ## Reading -/

theorem throughout_get {R : Program (Item k) → Session → Prop} {id : ItemId} (h : R (Program.get k id) s) :
    Throughout R (Program.get k id) s := by
  refine ⟨h, ?_⟩
  rw [serve_get]
  cases s.store.get? k id with
  | none => exact True.intro
  | some r =>
    dsimp only
    cases r.toItem k <;> exact True.intro

theorem throughout_chain {R : Program (Chain k) → Session → Prop} {owner : ExampleId}
    (h : R (Program.chain k owner) s) : Throughout R (Program.chain k owner) s := by
  rw [chain_eq_ask] at h ⊢
  exact ⟨h, True.intro⟩

theorem throughout_children {R : Program (List (Item k)) → Session → Prop} {parent : ItemId}
    (h : R (Program.children k parent) s) : Throughout R (Program.children k parent) s := by
  refine ⟨h, ?_⟩
  rw [serve_children]
  dsimp only
  cases Record.toItems k (s.store.children k parent) <;> exact True.intro

theorem throughout_commit {R : Program Unit → Session → Prop} {d : Draft k} (h : R (Program.commit d) s) :
    Throughout R (Program.commit d) s := by
  refine ⟨h, ?_⟩
  cases (serve (.commit d.toBatch) s).1 <;> exact True.intro

/-! ## Attempts -/

/-- What an attempt ends with decides what comes after it. -/
def settle (operation : Operation) (limit left : Nat) (p : Program α) : Except EngineError α → Program α
  | .ok a => return a
  | .error e => if e.isConflict then retry.again operation limit p left else fail e

theorem again_succ (operation : Operation) (limit left : Nat) (p : Program α) :
    retry.again operation limit p (left + 1) = p.outcome >>= settle operation limit left p := rfl

/-- An attempt that succeeds is the last. -/
theorem run_again_of_ok {p : Program α} {a : α} (h : s.run p = (.ok a, t)) (operation : Operation)
    (limit left : Nat) : s.run (retry.again operation limit p (left + 1)) = (.ok a, t) := by
  rw [again_succ, run_bind_ok (run_outcome s p), h]
  rfl

/-- What succeeds with one attempt succeeds with the attempt. -/
theorem run_of_retry_one {operation : Operation} {p : Program α} {a : α}
    (h : s.run (retry operation 1 p) = (.ok a, t)) : s.run p = (.ok a, t) := by
  have hretry : retry operation 1 p = p.outcome >>= settle operation 1 0 p := again_succ operation 1 0 p
  rw [hretry, run_bind_ok (run_outcome s p)] at h
  generalize s.run p = ended at h ⊢
  obtain ⟨e | b, u⟩ := ended
  · simp only [settle] at h
    cases hc : e.isConflict <;> simp only [hc] at h <;> cases h
  · exact h

/-- Before each access of an attempt that ends in no conflict. -/
theorem Throughout.retry {R : Program α → Session → Prop} {p : Program α} (operation : Operation) (limit : Nat)
    (hp : ∀ left, Program.retry operation limit p = p.outcome >>= settle operation limit left p →
      Throughout (fun p' t => R (p'.outcome >>= settle operation limit left p) t) p s)
    (hend : ∀ e, (s.run p).1 = .error e → e.isConflict = false) :
    Throughout R (Program.retry operation limit p) s := by
  obtain ⟨left, hleft⟩ : ∃ left, max limit 1 = left + 1 := ⟨max limit 1 - 1, by omega⟩
  have hretry : Program.retry operation limit p = p.outcome >>= settle operation limit left p := by
    rw [Program.retry, hleft, again_succ]
  rw [hretry]
  refine Throughout.bind (Throughout.outcome (hp left hretry)) fun r t hr => ?_
  rw [run_outcome, Prod.mk.injEq, Except.ok.injEq] at hr
  cases hrun : (s.run p).1 with
  | ok a =>
    rw [← hr.1, hrun]
    exact True.intro
  | error e =>
    rw [← hr.1, hrun, settle, hend e hrun]
    exact True.intro

/-! ## A row that is changed -/

/-- Another client has brought the session `s` to `t`: nothing is made to fail, and a list whose version stands
still is as it was. -/
structure Passes (s t : Session) : Prop where
  sane : t.Sane
  calm : t.store.failing = ∅
  scans : ∀ {k owner}, t.store.version k owner = s.store.version k owner →
    t.store.scan k owner = s.store.scan k owner

/-- The attempt to change a row. -/
def change (id : ItemId) (edit : Item k → Except EngineError (Item k × Bool)) : Program (Item k) := do
  let current ← Program.get k id
  let list ← Program.chain k current.owner
  match list.get? id with
  | none => fail (.notFound k id)
  | some item =>
    let (edited, store) ← ofExcept (edit item)
    if store then
      Program.commit { versions := [(list.owner, list.version)], present := [id], puts := [edited] : Draft k }
    return edited

theorem modify_eq (limit : Nat) (id : ItemId) (edit : Item k → Except EngineError (Item k × Bool)) :
    Editing.modify limit id edit = retry .modify limit (change id edit) := rfl

variable {id : ItemId} {x : Item k} {edit : Item k → Except EngineError (Item k × Bool)}

theorem run_change (hs : s.Sane) (hcalm : s.store.failing = ∅) (hedit : Sure edit)
    (hx : s.store.item? k id = some x) : ∃ a t, s.run (change id edit) = (.ok a, t) := by
  obtain ⟨⟨edited, store⟩, he⟩ := hedit.total x
  rcases outcome_modify hs 1 hedit hx he with ⟨-, hfail, -⟩ | ⟨-, t, hrun, -⟩
  · exact absurd hcalm (Std.ExtTreeSet.ne_empty_of_mem hfail)
  · exact ⟨edited, t, run_of_retry_one hrun⟩

/-- Attempts that run alike are settled alike. -/
theorem run_outcome_congr {p p' : Program α} (h : s.run p' = s.run p) (f : Except EngineError α → Program β) :
    s.run (p'.outcome >>= f) = s.run (p.outcome >>= f) := by
  rw [run_bind_ok (run_outcome s p'), run_bind_ok (run_outcome s p), h]

/-- A commit planned on a list that has changed meanwhile is refused, and the row is changed anew. -/
theorem run_settle_of_stale (hs : s.Sane) (hcalm : s.store.failing = ∅) (hedit : Sure edit)
    (hx : s.store.item? k id = some x) {owner : ExampleId} {version : Nat} {edited : Item k}
    (hstale : s.store.version k owner ≠ version) {limit left : Nat} {a : Item k}
    (hrun : s.run ((do
      Program.commit (Store.draftOf { puts := [edited] } owner version [id])
      return edited).outcome >>= settle .modify limit left (change id edit)) = (.ok a, t)) :
    s.run (Editing.modify limit id edit) = (.ok a, t) := by
  have hrefused : s.run (do
      Program.commit (Store.draftOf { puts := [edited] } owner version [id])
      return edited) = (.error (.store (.conflict k owner version (s.store.version k owner))), s) := by
    refine run_bind_error ?_ _
    rw [run_commit, Store.commit_eq, Store.fault?_of_stale hstale,
      Store.injected?_of_not_blocked (Store.Blocked.of_failing_empty hcalm)]
    rfl
  rw [run_bind_ok (run_outcome s _), hrefused] at hrun
  have hagain : s.run (retry.again .modify limit (change id edit) left) = (.ok a, t) := hrun
  cases left with
  | zero => cases hagain
  | succ left =>
    obtain ⟨b, u, hchange⟩ := run_change hs hcalm hedit hx
    rw [run_again_of_ok hchange] at hagain
    obtain ⟨n, hn⟩ : ∃ n, max limit 1 = n + 1 := ⟨max limit 1 - 1, by omega⟩
    rw [modify_eq, Program.retry, hn, run_again_of_ok hchange]
    exact hagain

/-- **A change of a row that is overtaken** and goes through in the end does what it does when it is made after
the other client is done. -/
theorem throughout_modify (hs : s.Sane) (hcalm : s.store.failing = ∅) (limit : Nat) (hedit : Sure edit)
    (hx : s.store.item? k id = some x) :
    Throughout (fun p t => t = s ∧ (∃ q next, p = .ask q next ∧ q.Touches k id x.owner) ∧
      ∀ u, s.Passes u → (∃ y : Item k, u.store.item? k id = some y ∧ y.owner = x.owner) →
        ∀ a v, u.run p = (.ok a, v) → u.run (Editing.modify limit id edit) = (.ok a, v))
      (Editing.modify limit id edit) s := by
  obtain ⟨b, t, hchange⟩ := run_change hs hcalm hedit hx
  obtain ⟨items, h⟩ := hs.ordered.lists k x.owner
  rw [modify_eq]
  refine Throughout.retry .modify limit (fun left hleft => ?_) fun e he => by rw [hchange] at he; cases he
  -- an attempt that has come as far as it comes anyway
  have hsame : ∀ {p : Program (Item k)} {u v : Session} {a : Item k}, u.run p = u.run (change id edit) →
      u.run (p.outcome >>= settle .modify limit left (change id edit)) = (.ok a, v) →
        u.run (retry .modify limit (change id edit)) = (.ok a, v) := by
    intro p u v a hp hrun
    rw [hleft, ← run_outcome_congr hp]
    exact hrun
  refine Throughout.bind (throughout_get ⟨rfl, ⟨_, _, rfl, rfl, rfl⟩, fun u _ _ a v hrun => hsame rfl hrun⟩)
    fun current t' hget => ?_
  rw [run_get_of_some hs.ordered hx] at hget
  obtain ⟨rfl, rfl⟩ := hget
  refine Throughout.bind (throughout_chain ⟨rfl, ⟨_, _, rfl, rfl, rfl⟩, fun u hu ⟨y, hy, ho⟩ a v hrun => ?_⟩)
    fun list t' hlist => ?_
  · refine hsame ?_ hrun
    rw [← ho]
    refine Eq.symm ?_
    exact run_bind_ok (run_get_of_some hu.sane.ordered hy) _
  rw [run_chain_of_holds hs.ordered h] at hlist
  obtain ⟨rfl, rfl⟩ := hlist
  obtain ⟨⟨edited, store⟩, he⟩ := hedit.total x
  simp only [get?_of_item? hs.ordered hx h, he, Program.ofExcept, bind_done_ok]
  cases store with
  | false => exact True.intro
  | true =>
    have hid := hs.ordered.id_of_item? hx
    refine Throughout.bind (throughout_commit ⟨rfl, ⟨_, _, rfl, rfl, fun w hw => ?_⟩,
      fun u hu ⟨y, hy, _⟩ a v hrun => ?_⟩) fun _ _ _ => True.intro
    · obtain rfl : w = .put (Record.ofItem edited) := by simpa [Draft.toBatch] using hw
      exact (hedit.inPlace x edited he).1.trans hid
    by_cases hv : u.store.version k x.owner = s.store.version k x.owner
    · have hholds := h.of_scan_eq hs.ordered.sound hu.sane.ordered.sound (hu.scans hv)
      have hstored : u.store.item? k id = some x :=
        hid ▸ hholds.item?_of_mem (h.mem_of_item? hs.ordered hx rfl)
      refine hsame (Eq.symm ?_) hrun
      refine (run_bind_ok (run_get_of_some hu.sane.ordered hstored) _).trans
        ((run_bind_ok (run_chain_of_holds hu.sane.ordered hholds) _).trans ?_)
      simp only [get?_of_item? hu.sane.ordered hstored hholds, he, Program.ofExcept, bind_done_ok, hv]
      rfl
    · exact run_settle_of_stale hu.sane hu.calm hedit hy hv hrun

end Session

end ExampleOverlay
