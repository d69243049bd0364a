import ExampleOverlay.Proofs.Runs.NewRows
import ExampleOverlay.Proofs.Runs.Integrity

/-!
# Calls that commit once

Apart from a cascade, a call writes at most once: it turns the list of one example and then succeeds, or it
leaves the store as it was (`Session.Once`). Whatever it has to check it checks before that commit, and what
it does afterwards cannot fail. A call that cascades begins with such a step, and carries what it did to the
counterparts only after that.
-/

namespace ExampleOverlay

open Chain Program

variable {k : Kind}

/-- The call writes the list of one example only, and this is the example. -/
def Call.WorksOn (st : Store) (owner : ExampleId) : Call k → Prop
  | .create own _ | .move own .. | .deltaList own _ | .deltaCreate own .. | .deltaMove own .. => own = owner
  | .deltaUpdate id _ | .deltaDelete id | .deltaReset id => ∀ r, st.get? k id = some r → r.owner = owner
  | .update .. | .delete _ => False

/-- The call is carried to counterparts in other examples. -/
def Call.Cascades : Call k → Prop
  | .update .. | .delete _ => True
  | _ => False

/-- A cascade did not reach every counterpart. -/
def EngineError.IsIncomplete (e : EngineError) : Prop := ∃ report, e = .cascadeIncomplete report

/-- A row that is stored belongs to some example. -/
theorem Store.exists_owner (st : Store) (k : Kind) (id : ItemId) :
    ∃ owner, ∀ r, st.get? k id = some r → r.owner = owner := by
  cases hr : st.get? k id with
  | none => exact ⟨⟨0⟩, fun r h => by cases h⟩
  | some r => exact ⟨r.owner, fun r' h => by rw [Option.some.inj h]⟩

/-- Any call that does not cascade works on the list of some example. -/
theorem Call.exists_worksOn (st : Store) {c : Call k} (hc : ¬ c.Cascades) : ∃ owner, c.WorksOn st owner := by
  cases c with
  | create | move | deltaList | deltaCreate | deltaMove => exact ⟨_, rfl⟩
  | deltaUpdate id | deltaDelete id | deltaReset id => exact st.exists_owner k id
  | update | delete => exact absurd True.intro hc

namespace Session

variable {s t : Session} {owner : ExampleId} {α β : Type} {p : Program α}

/-! ## One commit at most -/

/-- The store was left as it was, or the list of an example was turned and the result is a value. -/
inductive Touches (k : Kind) (owner : ExampleId) (s : Session) (r : Except EngineError α × Session) : Prop
  | nothing (h : r.2.store = s.store)
  | list {items items' : List (Item k)} (holds : s.store.Holds owner items)
    (turned : s.store.Turned r.2.store owner items items') (a : α) (ok : r.1 = .ok a)

/-- The run of a program commits once at most, to the list of one example, and if it does it succeeds. -/
def Once (k : Kind) (owner : ExampleId) (s : Session) (p : Program α) : Prop :=
  (s.run p).2.minted.Nodup → Touches k owner s (s.run p)

theorem Touches.of_store_eq {r : Except EngineError α × Session} (h : t.store = s.store)
    (ht : Touches k owner t r) : Touches k owner s r := by
  cases ht with
  | nothing hr => exact .nothing (hr.trans h)
  | list holds turned a ok => exact .list (h ▸ holds) (h ▸ turned) a ok

theorem Once.of_run_eq {q : Program α} (h : s.run p = s.run q) (hq : s.Once k owner q) : s.Once k owner p := by
  rwa [Once, h]

theorem Once.of_store_eq (h : (s.run p).2.store = s.store) : s.Once k owner p := fun _ => .nothing h

theorem Once.of_commits {a : α} {items items' : List (Item k)} {sp : Splice k} {present : List ItemId}
    (h : s.Commits p a owner items sp present items') : s.Once k owner p := by
  intro _
  rcases h with ⟨-, e, hrun⟩ | ⟨-, hrun, ht⟩
  · exact .nothing (by rw [hrun])
  · rw [hrun]
    exact .list ht.holds ht.turned a rfl

/-- What is read before does not matter. -/
theorem Once.reading {f : α → Program β} (hp : (s.run p).2 = s) (hf : ∀ a, s.Once k owner (f a)) :
    s.Once k owner (p >>= f) := by
  unfold Once
  rw [run_bind]
  rcases hrun : s.run p with ⟨e | a, t⟩ <;> rw [hrun] at hp
  · exact fun _ => .nothing (congrArg Session.store hp)
  · obtain rfl : t = s := hp
    exact hf a

/-- A commit can be followed by what neither fails nor changes the session. -/
theorem Once.returning {f : α → Program β} (hp : s.Once k owner p)
    (hf : ∀ a t, ∃ b, Session.run t (f a) = (.ok b, t)) : s.Once k owner (p >>= f) := by
  unfold Once at hp ⊢
  rw [run_bind]
  rcases hrun : s.run p with ⟨e | a, t⟩ <;> rw [hrun] at hp
  · intro hnd
    cases hp hnd with
    | nothing h => exact .nothing h
    | list _ _ a ok => cases ok
  · obtain ⟨b, hb⟩ := hf a t
    dsimp only
    rw [hb]
    intro hnd
    cases hp hnd with
    | nothing h => exact .nothing h
    | list holds turned => exact .list holds turned b rfl

/-! ## Reading -/

theorem session_run_get (hs : s.store.Ordered) (id : ItemId) : (s.run (Program.get k id)).2 = s := by
  cases h : s.store.item? k id with
  | none => rw [run_get_of_none hs h]
  | some i => rw [run_get_of_some hs h]

theorem session_run_require (s : Session) (fault : Option FieldError) :
    (s.run (Service.require fault)).2 = s := by
  cases fault <;> rfl

/-! ## Edits -/

theorem once_remove (hs : s.store.Ordered) (limit : Nat) {id : ItemId}
    (h : ∀ r, s.store.get? k id = some r → r.owner = owner) : s.Once k owner (Editing.remove limit k id) := by
  cases hx : s.store.item? k id with
  | none => exact .of_store_eq (by rw [run_remove_of_none hs limit hx])
  | some x =>
    obtain rfl : x.owner = owner := h _ (hs.item?_eq_some_iff.1 hx)
    obtain ⟨items, hl⟩ := hs.lists k x.owner
    obtain ⟨sp, -, -, hc⟩ := commits_remove hs limit hx hl
    exact .of_commits hc

theorem once_move (hs : s.store.Ordered) (limit : Nat) (k : Kind) (owner : ExampleId) (id target : ItemId)
    (side : Side) : s.Once k owner (Editing.move limit k owner id target side) := by
  obtain ⟨items, hl⟩ := hs.lists k owner
  cases moves_move hs limit hl id target side with
  | refused e hrun => exact .of_store_eq (by rw [hrun])
  | inPlace hrun => exact .of_store_eq (by rw [hrun])
  | relinked order perm hc => exact .of_commits hc

theorem once_modify (hs : s.store.Ordered) (limit : Nat) {id : ItemId}
    {edit : Item k → Except EngineError (Item k × Bool)} (hedit : Sure edit)
    (h : ∀ r, s.store.get? k id = some r → r.owner = owner) : s.Once k owner (Editing.modify limit id edit) := by
  cases hx : s.store.item? k id with
  | none => exact .of_store_eq (by rw [run_modify_of_none hs limit hx])
  | some x =>
    obtain rfl : x.owner = owner := h _ (hs.item?_eq_some_iff.1 hx)
    obtain ⟨⟨edited, store⟩, he⟩ := hedit.total x
    cases store with
    | false => exact .of_store_eq (by rw [run_modify_of_same hs limit hx he])
    | true =>
      obtain ⟨items, hl⟩ := hs.lists k x.owner
      exact .of_commits (commits_modify hs limit hedit.inPlace hx he (hedit.selfless hs hx he) hl)

theorem once_patchRow (hs : s.store.Ordered) (limit : Nat) {id : ItemId} (patch : Patch k) (customize : Bool)
    (h : ∀ r, s.store.get? k id = some r → r.owner = owner) :
    s.Once k owner (Service.patchRow limit id patch customize) :=
  .reading (session_run_require s _) fun _ => once_modify hs limit (sure_applyPatch patch customize) h

/-! ## New rows -/

/-- A new row, up to its link to a row stored already. -/
theorem once_appendNew (hs : s.Sane) (limit : Nat) {row : ItemId → Item k} (hid : ∀ id, (row id).id = id)
    (howner : ∀ id, (row id).owner = owner) (hparent : ∀ id, ∀ p ∈ (row id).parent, p ∈ s.minted) :
    s.Once k owner (Service.appendNew limit row) := by
  intro hnd
  obtain ⟨id, t, hmint, ht⟩ := run_mint s
  unfold Service.appendNew at hnd ⊢
  rw [run_bind_ok hmint] at hnd ⊢
  have hnew := ht.not_mem (hnd.sublist (run_minted t _).sublist)
  have hself : (row id).parent ≠ some (row id).id := fun hp => hnew (hparent id id (by rw [hp, hid]; rfl))
  have hord := (hs.of_minted ht).ordered
  obtain ⟨items, hl⟩ := hord.lists k (row id).owner
  obtain ⟨stored, -, hc⟩ := commits_append hord limit hl hself
    (by rw [hid, ht.store]; exact hs.get?_eq_none hnew k)
  rw [howner] at hc
  exact ((Once.of_commits hc).returning (fun item _ => ⟨item.id, rfl⟩) hnd).of_store_eq ht.store

theorem once_materialize (hs : s.Sane) (limit : Nat) (origin : Chain k) (delta : ExampleId)
    (horigin : ∀ i ∈ origin.items, i.id ∈ s.minted) :
    s.Once k delta (Service.materialize limit origin delta) := by
  intro hnd
  obtain ⟨items, hl⟩ := hs.ordered.lists k delta
  cases materializes hs limit origin hl horigin hnd with
  | covered _ hrun => exact .nothing (by rw [hrun])
  | refused t ids ht e hrun => exact .nothing (by rw [hrun]; exact ht.store)
  | filled new t u ht _ hu hrun =>
    rw [hrun]
    exact .list (ht.store ▸ hu.holds) (ht.store ▸ hu.turned) _ rfl

theorem once_deltaList (hs : s.Sane) (limit : Nat) (delta origin : ExampleId) :
    s.Once k delta (Service.deltaList limit k delta origin) := by
  by_cases hne : delta = origin
  · refine .of_store_eq ?_
    unfold Service.deltaList Service.requireOther
    rw [if_pos hne]
    rfl
  obtain ⟨list, hlist⟩ := hs.ordered.lists k origin
  refine .of_run_eq (run_deltaList hs.ordered limit hne hlist) ?_
  exact (once_materialize hs limit _ delta fun i hi => hs.minted (hlist.get?_of_mem hi)).returning
    fun _ _ => ⟨_, rfl⟩

theorem once_deltaCreate (hs : s.Sane) (limit : Nat) (delta : ExampleId) (origin : Option ExampleId)
    (parent : Option ItemId) (fields : Fields k) :
    s.Once k delta (Service.deltaCreate limit delta origin parent fields) := by
  cases parent with
  | none =>
    rw [Service.deltaCreate_none]
    exact .reading (session_run_require s _) fun _ =>
      once_appendNew hs limit (fun _ => rfl) (fun _ => rfl) (by simp [Item.fresh])
  | some parent =>
    rw [Service.deltaCreate_some]
    refine .reading (session_run_require s _) fun _ => ?_
    rcases run_requireParent hs.ordered k delta origin parent with ⟨e, hcheck⟩ | ⟨hcheck, x, hx, -, -⟩
    · exact .of_store_eq (by rw [run_bind_error hcheck])
    refine .of_run_eq (run_bind_ok hcheck _) (once_appendNew hs limit (fun _ => rfl) (fun _ => rfl) ?_)
    intro id p hp
    obtain rfl := Option.mem_some_iff.1 hp
    exact hs.minted (hs.ordered.item?_eq_some_iff.1 hx)

/-! ## Calls -/

/-- **A call that does not cascade commits once at most**, to the list that it works on. -/
theorem once_call (hs : s.Sane) (limit : Nat) {c : Call k} (h : c.WorksOn s.store owner) :
    s.Once k owner (c.program limit) := by
  cases c with
  | create own fields =>
    obtain rfl : own = owner := h
    rw [Call.program, Service.create_eq]
    exact .reading (session_run_require s _) fun _ =>
      once_appendNew hs limit (fun _ => rfl) (fun _ => rfl) (by simp [Item.fresh])
  | move own id target side | deltaMove own id target side =>
    obtain rfl : own = owner := h
    exact once_move hs.ordered limit k own id target side
  | deltaList own origin =>
    obtain rfl : own = owner := h
    exact once_deltaList hs limit own origin
  | deltaCreate own origin parent fields =>
    obtain rfl : own = owner := h
    exact once_deltaCreate hs limit own origin parent fields
  | deltaUpdate id patch => exact once_patchRow hs.ordered limit patch true h
  | deltaDelete id => exact (once_remove hs.ordered limit h).returning fun _ _ => ⟨(), rfl⟩
  | deltaReset id =>
    refine .reading (session_run_get hs.ordered id) fun row => ?_
    have hmodify : ∀ fields : Fields k, s.Once k owner (Editing.modify limit id (Cascade.restore fields)) :=
      fun fields => once_modify hs.ordered limit (sure_restore fields) h
    cases row.parent with
    | none => exact hmodify _
    | some parent =>
      refine .reading ?_ hmodify
      show (s.run (Program.get k parent >>= fun i => pure i.fields)).2 = s
      have hread := session_run_get (k := k) hs.ordered parent
      rw [run_bind]
      rcases hrun : s.run (Program.get k parent) with ⟨e | a, t⟩ <;> rw [hrun] at hread <;> exact hread
  | update | delete => exact h.elim

/-! ## Cascades -/

/-- A program that commits once at most and then goes on with `f` has left the store as it was when it fails,
unless it is `f` that failed. -/
theorem Once.store_eq_or {E E' : EngineError → Prop} {f : α → Program β} (hp : s.Once k owner p)
    (hsane : s.Safe p (fun _ _ => True) E')
    (hf : ∀ a (t : Session), t.Sane → t.Safe (f a) (fun _ _ => True) E)
    (hnd : (s.run (p >>= f)).2.minted.Nodup) {e : EngineError} (he : (s.run (p >>= f)).1 = .error e) :
    E e ∨ (s.run (p >>= f)).2.store = s.store := by
  have hnd' := hnd.sublist (run_minted_bind s p f).sublist
  have hfirst := hp hnd'
  have ht := (hsane hnd').1
  rw [run_bind] at hnd he ⊢
  rcases hrun : s.run p with ⟨e' | a, t⟩ <;> rw [hrun] at hnd he hfirst ht
  · cases hfirst with
    | nothing h => exact Or.inr h
    | list _ _ a ok => cases ok
  · have hrest := (hf a t ht hnd).2
    dsimp only at he
    rw [he] at hrest
    exact Or.inl hrest

/-- What a cascade reports is given, or told to be incomplete. -/
theorem safe_reported {report : Program Cascade.Report}
    (h : s.Safe report (fun r _ => r.OnlyInjected) fun _ => False) :
    s.Safe (do ofExcept (← report).toResult) (fun _ _ => True) EngineError.IsIncomplete := by
  refine (h.mono (fun _ _ h => h) fun _ h => h.elim).bind fun r t ht _ _ => ?_
  unfold Cascade.Report.toResult
  split
  · exact .of_run_ok rfl ht True.intro
  · exact .of_run_error rfl ht ⟨r, rfl⟩

theorem store_eq_of_update (hs : s.Sane) (limit : Nat) (id : ItemId) (patch : Patch k)
    (hnd : (s.run (Service.update limit id patch)).2.minted.Nodup) {e : EngineError}
    (he : (s.run (Service.update limit id patch)).1 = .error e) :
    e.IsIncomplete ∨ (s.run (Service.update limit id patch)).2.store = s.store := by
  unfold Service.update at hnd he ⊢
  cases hx : s.store.item? k id with
  | none => exact Or.inr (by rw [run_bind_error (run_get_of_none hs.ordered hx)])
  | some before =>
    rw [run_bind_ok (run_get_of_some hs.ordered hx)] at hnd he ⊢
    obtain ⟨owner, howner⟩ := s.store.exists_owner k id
    refine (once_patchRow hs.ordered limit patch false howner).store_eq_or
      (safe_patchRow hs limit id patch false) (fun after t ht => ?_) hnd he
    split
    · exact .of_run_ok rfl ht True.intro
    · exact safe_reported (safe_cascade_update ht limit before after)

theorem store_eq_of_delete (hs : s.Sane) (limit : Nat) (id : ItemId)
    (hnd : (s.run (Service.delete limit k id)).2.minted.Nodup) {e : EngineError}
    (he : (s.run (Service.delete limit k id)).1 = .error e) :
    e.IsIncomplete ∨ (s.run (Service.delete limit k id)).2.store = s.store := by
  obtain ⟨owner, howner⟩ := s.store.exists_owner k id
  exact (once_remove hs.ordered limit howner).store_eq_or (safe_remove hs limit id)
    (fun removed t ht => safe_reported (safe_cascade_delete ht limit removed)) hnd he

/-- **A call that fails leaves the store as it was**, unless it tells of an incomplete cascade. -/
theorem store_eq_of_call (hs : s.Sane) (limit : Nat) (c : Call k)
    (hnd : (s.run (c.program limit)).2.minted.Nodup) {e : EngineError}
    (he : (s.run (c.program limit)).1 = .error e) :
    (c.Cascades ∧ e.IsIncomplete) ∨ (s.run (c.program limit)).2.store = s.store := by
  by_cases hc : c.Cascades
  · cases c with
    | update id patch => exact (store_eq_of_update hs limit id patch hnd he).imp_left fun h => ⟨hc, h⟩
    | delete id => exact (store_eq_of_delete hs limit id hnd he).imp_left fun h => ⟨hc, h⟩
    | _ => exact hc.elim
  · obtain ⟨owner, howner⟩ := c.exists_worksOn s.store hc
    cases once_call hs limit howner hnd with
    | nothing h => exact Or.inr h
    | list _ _ a ok => rw [ok] at he; cases he

end Session

end ExampleOverlay
