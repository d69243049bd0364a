import ExampleOverlay.Proofs.Runs.Editing

/-!
# Lists stay intact

No sequence of calls breaks a list, whatever is made to fail and whatever is registered in between:
every example keeps one chain of exactly its rows, and no call finds a list corrupt, gives up, or is
refused by the store except where a write was made to fail.

Calls are composed of steps that are `Session.Safe`: from a sane session they lead to a sane one, and
they fail with errors of a given class alone. The ids that a step mints must be new, so what is promised
of a step is promised as long as no two ids minted so far are equal.
-/

namespace ExampleOverlay

open Chain Program

variable {k : Kind}

/-! ## Errors of sound lists -/

namespace EngineError

/-- A row that is gone, or one that was made to fail. -/
def IsLapse (e : EngineError) : Prop := (∃ k id, e = .notFound k id) ∨ ∃ detail, e = .store (.backend detail)

end EngineError

/-- Every counterpart that failed was made to fail. -/
def Cascade.Report.OnlyInjected (r : Cascade.Report) : Prop :=
  ∀ f ∈ r.failed, ∃ detail, f.error = (EngineError.store (.backend detail)).message

/-- An error that does not speak of a broken list or of another client: the store fails as it was told to
or not at all. -/
def EngineError.IsBenign : EngineError → Prop
  | .corruptList .. | .retriesExhausted .. => False
  | .store e => ∃ detail, e = .backend detail
  | .cascadeIncomplete report => report.OnlyInjected
  | _ => True

theorem EngineError.IsLapse.isBenign {e : EngineError} (h : e.IsLapse) : e.IsBenign := by
  rcases h with ⟨k, id, rfl⟩ | ⟨detail, rfl⟩
  · exact True.intro
  · exact ⟨detail, rfl⟩

/-- What is wrong with a request is no fault of the store. -/
theorem EngineError.isBenign_of_status {e : EngineError} (h : e.status = .invalidArgument) : e.IsBenign := by
  cases e with
  | store e => cases e <;> simp [EngineError.status] at h
  | corruptList | retriesExhausted | cascadeIncomplete => simp [EngineError.status] at h
  | _ => exact True.intro

namespace Session

/-! ## Safe steps -/

/-- A program keeps the session sane, and ends with a value of `Q` or an error of `E`. -/
def Safe {α : Type} (s : Session) (p : Program α) (Q : α → Session → Prop) (E : EngineError → Prop) : Prop :=
  (s.run p).2.minted.Nodup → (s.run p).2.Sane ∧ match (s.run p).1 with
    | .ok a => Q a (s.run p).2
    | .error e => E e

variable {α β : Type} {s : Session} {p : Program α} {Q : α → Session → Prop} {E : EngineError → Prop}

theorem Safe.of_run_ok {t : Session} {a : α} (hrun : s.run p = (.ok a, t)) (ht : t.Sane) (hQ : Q a t) :
    s.Safe p Q E := by
  intro _
  rw [hrun]
  exact ⟨ht, hQ⟩

theorem Safe.of_run_error {t : Session} {e : EngineError} (hrun : s.run p = (.error e, t)) (ht : t.Sane)
    (hE : E e) :
    s.Safe p Q E := by
  intro _
  rw [hrun]
  exact ⟨ht, hE⟩

theorem Safe.mono {Q' : α → Session → Prop} {E' : EngineError → Prop} (h : s.Safe p Q E)
    (hQ : ∀ a t, Q a t → Q' a t) (hE : ∀ e, E e → E' e) : s.Safe p Q' E' := by
  intro hnd
  have h := h hnd
  refine ⟨h.1, ?_⟩
  cases hr : (s.run p).1 with
  | ok a => rw [hr] at h; exact hQ _ _ h.2
  | error e => rw [hr] at h; exact hE _ h.2

theorem Safe.benign (h : s.Safe p Q EngineError.IsLapse) : s.Safe p Q EngineError.IsBenign :=
  h.mono (fun _ _ h => h) fun _ h => h.isBenign

/-- Safe steps in sequence. -/
theorem Safe.bind {Q' : β → Session → Prop} {f : α → Program β} (hp : s.Safe p Q E)
    (hf : ∀ a t, t.Sane → t.minted.Nodup → Q a t → t.Safe (f a) Q' E) : s.Safe (p >>= f) Q' E := by
  unfold Safe at hp ⊢
  rw [run_bind]
  rcases hrun : s.run p with ⟨e | a, t⟩
  · rw [hrun] at hp
    exact hp
  · rw [hrun] at hp
    intro hnd
    have hnd' : t.minted.Nodup := hnd.sublist (run_minted t (f a)).sublist
    obtain ⟨ht, hQ⟩ := hp hnd'
    exact hf a t ht hnd' hQ hnd

/-- Running for the outcome never fails. -/
theorem Safe.outcome {E' : EngineError → Prop} (h : s.Safe p Q E) :
    s.Safe p.outcome (fun r t => match r with | .ok a => Q a t | .error e => E e) E' := by
  unfold Safe at h ⊢
  rw [run_outcome]
  exact h

/-- A commit on the list held is safe, if the ids of the new list were minted. -/
theorem Safe.of_commits {a : α} {owner : ExampleId} {items items' : List (Item k)} {sp : Splice k}
    (hs : s.Sane) {present : List ItemId} (h : s.Commits p a owner items sp present items')
    (hids : ∀ id ∈ idsOf items', id ∈ idsOf items ∨ id ∈ s.minted) :
    s.Safe p (fun _ _ => True) EngineError.IsLapse := by
  rcases h with ⟨-, e, hrun⟩ | ⟨-, hrun, ht⟩
  · exact .of_run_error hrun hs (Or.inr ⟨e, rfl⟩)
  · exact .of_run_ok hrun (ht.sane hs hids) True.intro

/-! ## Reading -/

theorem safe_get (hs : s.Sane) (id : ItemId) : s.Safe (Program.get k id)
    (fun i t => t = s ∧ s.store.item? k id = some i) EngineError.IsLapse := by
  cases h : s.store.item? k id with
  | none => exact .of_run_error (run_get_of_none hs.ordered h) hs (Or.inl ⟨k, id, rfl⟩)
  | some i => exact .of_run_ok (run_get_of_some hs.ordered h) hs ⟨rfl, rfl⟩

theorem safe_chain (hs : s.Sane) (k : Kind) (owner : ExampleId) : s.Safe (Program.chain k owner)
    (fun c t => t = s ∧ s.store.Holds c.owner c.items ∧ c.owner = owner ∧
      c.version = s.store.version k owner) E := by
  obtain ⟨items, h⟩ := hs.ordered.lists k owner
  exact .of_run_ok (run_chain_of_holds hs.ordered h) hs ⟨rfl, h, rfl, rfl⟩

/-! ## Edits -/

theorem safe_append (hs : s.Sane) (limit : Nat) {item : Item k} (hself : item.parent ≠ some item.id)
    (hid : item.id ∈ s.minted) (hnew : s.store.get? k item.id = none) :
    s.Safe (Editing.append limit item) (fun _ _ => True) EngineError.IsLapse := by
  obtain ⟨items, h⟩ := hs.ordered.lists k item.owner
  obtain ⟨stored, -, hc⟩ := commits_append hs.ordered limit h hself hnew
  refine .of_commits hs hc fun id hmem => ?_
  rw [idsOf_link, idsOf, List.map_append, List.mem_append] at hmem
  exact hmem.imp (fun h => h) fun h => by rw [List.mem_singleton.1 h]; exact hid

theorem safe_remove (hs : s.Sane) (limit : Nat) (id : ItemId) :
    s.Safe (Editing.remove limit k id) (fun _ _ => True) EngineError.IsLapse := by
  cases hitem : s.store.item? k id with
  | none => exact .of_run_error (run_remove_of_none hs.ordered limit hitem) hs (Or.inl ⟨k, id, rfl⟩)
  | some item =>
    obtain ⟨items, h⟩ := hs.ordered.lists k item.owner
    obtain ⟨sp, -, -, hc⟩ := commits_remove hs.ordered limit hitem h
    refine .of_commits hs hc fun id' hmem => Or.inl ?_
    rw [idsOf_link] at hmem
    exact (List.filter_sublist.map _).subset hmem

theorem safe_move (hs : s.Sane) (limit : Nat) (k : Kind) (owner : ExampleId) (id target : ItemId)
    (side : Side) :
    s.Safe (Editing.move limit k owner id target side) (fun _ _ => True) EngineError.IsBenign := by
  obtain ⟨items, h⟩ := hs.ordered.lists k owner
  cases moves_move hs.ordered limit h id target side with
  | refused e hrun hstatus =>
    refine .of_run_error hrun hs ?_
    rcases hstatus with hstatus | ⟨id, rfl⟩
    · exact EngineError.isBenign_of_status hstatus
    · exact True.intro
  | inPlace hrun => exact .of_run_ok hrun hs True.intro
  | relinked order perm hc =>
    refine (Safe.of_commits hs hc fun id' hmem => Or.inl ?_).benign
    rw [idsOf_link] at hmem
    exact (perm.map _).subset hmem

theorem safe_modify (hs : s.Sane) (limit : Nat) (id : ItemId)
    {edit : Item k → Except EngineError (Item k × Bool)} (hedit : Sure edit) :
    s.Safe (Editing.modify limit id edit) (fun _ _ => True) EngineError.IsLapse := by
  cases hx : s.store.item? k id with
  | none => exact .of_run_error (run_modify_of_none hs.ordered limit hx) hs (Or.inl ⟨k, id, rfl⟩)
  | some x =>
    obtain ⟨⟨edited, store⟩, he⟩ := hedit.total x
    cases store with
    | false => exact .of_run_ok (run_modify_of_same hs.ordered limit hx he) hs True.intro
    | true =>
      obtain ⟨items, h⟩ := hs.ordered.lists k x.owner
      have hself := hedit.selfless hs.ordered hx he
      have hc := commits_modify hs.ordered limit hedit.inPlace hx he hself h
      refine .of_commits hs hc fun id' hmem => Or.inl ?_
      rwa [idsOf_replaced] at hmem

/-! ## Cascades -/

/-- A change is carried to counterparts one after another, and those that fail were made to fail. -/
theorem safe_carry {each : Item k → Program Cascade.Outcome}
    (heach : ∀ row (t : Session), t.Sane → t.Safe (each row) (fun _ _ => True) EngineError.IsLapse) :
    ∀ (rows : List (Item k)) (report : Cascade.Report) (s : Session), s.Sane → report.OnlyInjected →
      s.Safe (Cascade.carry each report rows) (fun r _ => r.OnlyInjected) E
  | [], _, _, hs, hr => .of_run_ok rfl hs hr
  | row :: rest, report, s, hs, hr => by
    refine (heach row s hs).outcome.bind fun r t ht _ hrow => ?_
    cases r with
    | ok outcome =>
      refine safe_carry heach rest _ t ht ?_
      cases outcome <;> exact hr
    | error e =>
      rcases hrow with ⟨k', id, rfl⟩ | ⟨detail, rfl⟩
      · exact safe_carry heach rest _ t ht hr
      · refine safe_carry heach rest _ t ht fun f hf => ?_
        rcases List.mem_append.1 hf with hf | hf
        · exact hr f hf
        · rw [List.mem_singleton.1 hf]
          exact ⟨detail, rfl⟩

theorem safe_updateOne (hs : s.Sane) (limit : Nat) (before after : Item k) (version : Bool) (row : Item k) :
    s.Safe (Cascade.updateOne limit before after version row) (fun _ _ => True) EngineError.IsLapse := by
  unfold Cascade.updateOne
  split
  · exact .of_run_ok rfl hs True.intro
  refine (safe_get hs before.id).outcome.bind fun r t ht _ hr => ?_
  have hmodify : ∀ fields : Fields k, t.Safe (do
      let row ← Editing.modify limit row.id (Cascade.takeFields before.id fields)
      return if row.parent = some before.id ∧ row.overridden = false then Cascade.Outcome.updated else .skipped)
      (fun _ _ => True) EngineError.IsLapse := fun fields =>
    (safe_modify ht limit row.id (sure_takeFields before.id fields)).bind fun _ _ hu _ _ =>
      .of_run_ok rfl hu True.intro
  cases r with
  | ok parent => exact hmodify parent.fields
  | error e =>
    rcases hr with ⟨k', id, rfl⟩ | ⟨detail, rfl⟩
    · exact hmodify after.fields
    · exact .of_run_error rfl ht (Or.inr ⟨detail, rfl⟩)

theorem safe_deleteOne (hs : s.Sane) (limit : Nat) (origin : Item k) (version : Bool) (row : Item k) :
    s.Safe (Cascade.deleteOne limit origin version row) (fun _ _ => True) EngineError.IsLapse := by
  have hremove : s.Safe (do
      let _ ← Editing.remove limit k row.id
      return Cascade.Outcome.deleted) (fun _ _ => True) EngineError.IsLapse :=
    (safe_remove hs limit row.id).bind fun _ _ ht _ _ => .of_run_ok rfl ht True.intro
  unfold Cascade.deleteOne
  cases Source.resolve row (some origin) version with
  | origin | mixed => exact hremove
  | delta =>
    exact (safe_modify hs limit row.id (sure_clearLink origin.id)).bind fun _ _ ht _ _ =>
      .of_run_ok rfl ht True.intro

theorem safe_cascade_update (hs : s.Sane) (limit : Nat) (before after : Item k) :
    s.Safe (Cascade.update limit before after) (fun r _ => r.OnlyInjected) E := by
  obtain ⟨rows, hrun, -, -⟩ := run_children hs.ordered (k := k) before.id
  refine (Safe.of_run_ok hrun hs (Q := fun _ t => t = s) rfl).bind fun rows t ht _ _ => ?_
  refine (Safe.of_run_ok (run_versions t rows) ht (Q := fun _ _ => True) True.intro).bind
    fun versions u hu _ _ => ?_
  exact safe_carry (fun row t ht => safe_updateOne ht limit before after _ row) rows {} u hu
    (by simp [Cascade.Report.OnlyInjected])

theorem safe_cascade_delete (hs : s.Sane) (limit : Nat) (origin : Item k) :
    s.Safe (Cascade.delete limit origin) (fun r _ => r.OnlyInjected) E := by
  obtain ⟨rows, hrun, -, -⟩ := run_children hs.ordered (k := k) origin.id
  refine (Safe.of_run_ok hrun hs (Q := fun _ t => t = s) rfl).bind fun rows t ht _ _ => ?_
  refine (Safe.of_run_ok (run_versions t rows) ht (Q := fun _ _ => True) True.intro).bind
    fun versions u hu _ _ => ?_
  exact safe_carry (fun row t ht => safe_deleteOne ht limit origin _ row) rows {} u hu
    (by simp [Cascade.Report.OnlyInjected])

theorem safe_toResult (hs : s.Sane) {report : Cascade.Report} (h : report.OnlyInjected) :
    s.Safe (Program.ofExcept report.toResult) (fun _ _ => True) EngineError.IsBenign := by
  unfold Cascade.Report.toResult
  split
  · exact .of_run_ok rfl hs True.intro
  · exact .of_run_error rfl hs h

/-! ## Calls -/

theorem safe_require (hs : s.Sane) (fault : Option FieldError) :
    s.Safe (Service.require fault) (fun _ t => t = s) EngineError.IsBenign := by
  cases fault with
  | none => exact .of_run_ok rfl hs rfl
  | some e => exact .of_run_error rfl hs True.intro

theorem safe_requireOther (hs : s.Sane) (delta origin : ExampleId) :
    s.Safe (Service.requireOther delta origin) (fun _ t => t = s) EngineError.IsBenign := by
  unfold Service.requireOther
  split
  · exact .of_run_error rfl hs True.intro
  · exact .of_run_ok rfl hs rfl

/-- A row that is new, up to its link to a row stored already, is appended. -/
theorem safe_appendNew (hs : s.Sane) (limit : Nat) (row : ItemId → Item k) (hid : ∀ id, (row id).id = id)
    (hparent : ∀ id, ∀ p ∈ (row id).parent, p ∈ s.minted) :
    s.Safe (Service.appendNew limit row) (fun _ _ => True) EngineError.IsLapse := by
  obtain ⟨id, t, hrun, ht⟩ := run_mint s
  refine (Safe.of_run_ok hrun (hs.of_minted ht) (Q := fun i t => s.Minted t [i]) ht).bind
    fun id t ht' hnd ht => ?_
  have hnew := ht.not_mem hnd
  have hself : (row id).parent ≠ some (row id).id := fun hp => hnew (hid id ▸ hparent id _ hp)
  refine (safe_append ht' limit hself ?_ ?_).bind fun _ _ hu _ _ => .of_run_ok rfl hu True.intro
  · rw [hid, ht.minted]; exact List.mem_append_left _ (List.mem_singleton_self _)
  · rw [hid, ht.store]; exact hs.get?_eq_none hnew k

theorem safe_patchRow (hs : s.Sane) (limit : Nat) (id : ItemId) (patch : Patch k) (customize : Bool) :
    s.Safe (Service.patchRow limit id patch customize) (fun _ _ => True) EngineError.IsBenign :=
  (safe_require hs _).bind fun _ _ ht _ _ =>
    (safe_modify ht limit id (sure_applyPatch patch customize)).benign

theorem safe_materialize (hs : s.Sane) (limit : Nat) (origin : Chain k) (delta : ExampleId)
    (horigin : ∀ i ∈ origin.items, i.id ∈ s.minted) :
    s.Safe (Service.materialize limit origin delta) (fun _ _ => True) EngineError.IsLapse := by
  intro hnd
  obtain ⟨items, h⟩ := hs.ordered.lists k delta
  cases materializes hs limit origin h horigin hnd with
  | covered _ hrun => exact Safe.of_run_ok (Q := fun _ _ => True) hrun hs True.intro hnd
  | refused t ids ht e hrun _ =>
    exact Safe.of_run_error (Q := fun _ _ => True) (E := EngineError.IsLapse) hrun (hs.of_minted ht)
      (Or.inr ⟨e, rfl⟩) hnd
  | filled new t u ht _ hu hrun =>
    refine Safe.of_run_ok (Q := fun _ _ => True) hrun
      (hu.sane (hs.of_minted ht) fun id hid => ?_) True.intro hnd
    rw [idsOf_link, idsOf, List.map_append, List.mem_append] at hid
    refine hid.imp (fun h => h) fun hn => ?_
    rw [ht.minted]
    exact List.mem_append_left _ (List.mem_reverse.2 hn)

/-- A parent that passes is stored. -/
theorem safe_requireParent (hs : s.Sane) (k : Kind) (delta : ExampleId) (origin : Option ExampleId)
    (parent : ItemId) :
    s.Safe (Service.requireParent k delta origin parent)
      (fun _ t => t = s ∧ parent ∈ s.minted) EngineError.IsBenign := by
  cases origin with
  | none => exact .of_run_error rfl hs True.intro
  | some origin =>
    refine (safe_requireOther hs delta origin).bind fun _ t ht _ hst => ?_
    subst hst
    refine (safe_get (k := k) ht parent).benign.bind fun row u hu _ hrow => ?_
    obtain ⟨rfl, hrow⟩ := hrow
    split
    · exact .of_run_ok rfl hu ⟨rfl, hu.minted (hu.ordered.item?_eq_some_iff.1 hrow)⟩
    · exact .of_run_error rfl hu True.intro

/-- **Every call is safe.** -/
theorem safe_call (hs : s.Sane) (limit : Nat) (c : Call k) :
    s.Safe (c.program limit) (fun _ _ => True) EngineError.IsBenign := by
  cases c with
  | create owner fields =>
    refine (safe_require hs _).bind fun _ t ht _ _ => ?_
    exact (safe_appendNew ht limit _ (fun _ => rfl) (by simp [Item.fresh])).benign
  | update id patch =>
    refine (safe_get (k := k) hs id).benign.bind fun before t ht _ _ => ?_
    refine (safe_patchRow ht limit id patch false).bind fun after u hu _ _ => ?_
    split
    · exact .of_run_ok rfl hu True.intro
    · exact (safe_cascade_update hu limit before after).bind fun report v hv _ hr => safe_toResult hv hr
  | delete id =>
    refine (safe_remove (k := k) hs limit id).benign.bind fun removed t ht _ _ => ?_
    exact (safe_cascade_delete ht limit removed).bind fun report u hu _ hr => safe_toResult hu hr
  | move owner id target side | deltaMove owner id target side =>
    exact safe_move hs limit k owner id target side
  | deltaList delta origin =>
    refine (safe_requireOther hs delta origin).bind fun _ t ht _ _ => ?_
    refine (safe_chain ht k origin).bind fun list u hu _ hl => ?_
    obtain ⟨rfl, hl, -, -⟩ := hl
    refine (safe_materialize hu limit list delta fun i hi => hu.minted (hl.get?_of_mem hi)).benign.bind
      fun _ v hv _ _ => ?_
    exact .of_run_ok rfl hv True.intro
  | deltaCreate delta origin parent fields =>
    refine (safe_require hs _).bind fun _ t ht _ _ => ?_
    cases parent with
    | none => exact (safe_appendNew ht limit _ (fun _ => rfl) (by simp)).benign
    | some parent =>
      refine (safe_requireParent ht k delta origin parent).bind fun _ u hu _ hp => ?_
      obtain ⟨rfl, hp⟩ := hp
      refine (safe_appendNew hu limit _ (fun _ => rfl) fun _ p hmem => ?_).benign
      rw [← Option.mem_some_iff.1 hmem]
      exact hp
  | deltaUpdate id patch => exact safe_patchRow hs limit id patch true
  | deltaDelete id =>
    exact (safe_remove hs limit id).benign.bind fun _ t ht _ _ =>
      .of_run_ok rfl ht True.intro
  | deltaReset id =>
    refine (safe_get (k := k) hs id).benign.bind fun row t ht _ _ => ?_
    have hmodify : ∀ (u : Session) (fields : Fields k), u.Sane →
        u.Safe (Editing.modify limit id (Cascade.restore fields))
          (fun _ _ => True) EngineError.IsBenign := fun u fields hu =>
      (safe_modify hu limit id (sure_restore fields)).benign
    cases row.parent with
    | none => exact hmodify t (Fields.cleared k) ht
    | some parent =>
      have hfields : t.Safe ((·.fields) <$> Program.get k parent) (fun _ _ => True) EngineError.IsBenign :=
        (safe_get ht parent).benign.bind fun _ u hu _ _ => .of_run_ok rfl hu True.intro
      exact hfields.bind fun fields u hu _ _ => hmodify u fields hu

/-! ## Runs -/

variable {limit : Nat} {allowed : Session → Event → Prop}

theorem Sane.start (registry : Registry) (supply : Nat → BitVec 128) :
    (Session.start registry supply).Sane where
  ordered := Store.Ordered.empty
  minted hr := by
    rw [show (Session.start registry supply).store.get? _ _ = Store.get? {} _ _ from rfl, Store.get?,
      Store.table_empty,
      Table.get?_empty] at hr
    cases hr

theorem minted_after (s : Session) (e : Event) : s.minted <:+ (s.after limit e).minted := by
  cases e with
  | call c => exact run_minted s _
  | aside a => exact List.suffix_rfl

/-- **What every event keeps** holds of all that is reached, as long as no id is minted twice. -/
theorem Reaches.keeps {P : Session → Prop} {t : Session} (hs : P s)
    (hstep : ∀ u e, P u → allowed u e → (u.after limit e).minted.Nodup → P (u.after limit e))
    (h : s.Reaches limit allowed t) (hnd : t.minted.Nodup) : P t := by
  induction h with
  | refl => exact hs
  | step e _ he ih => exact hstep _ e (ih (hnd.sublist (minted_after _ e).sublist)) he hnd

/-- No row says anything else after an event outside the service. -/
theorem bare?_aside (s : Session) (limit : Nat) (a : Aside) (k : Kind) :
    (s.after limit (.aside a)).store.bare? k = s.store.bare? k := by
  have htables : (s.after limit (.aside a)).store.tables = s.store.tables := tables_aside s.world a
  funext id
  rw [Store.bare?, Store.item?, Store.get?, Store.table, htables]
  rfl

/-- One event keeps a session sane, as long as no id is minted twice. -/
theorem Sane.after (hs : s.Sane) (e : Event) (hnd : (s.after limit e).minted.Nodup) :
    (s.after limit e).Sane := by
  cases e with
  | call c => exact (safe_call hs limit c hnd).1
  | aside a =>
    have htables : (s.after limit (.aside a)).store.tables = s.store.tables := tables_aside s.world a
    exact hs.of_tables_eq htables rfl

theorem Reaches.sane (hs : s.Sane) {t : Session} (h : s.Reaches limit allowed t) (hnd : t.minted.Nodup) :
    t.Sane := Reaches.keeps hs (fun _ e h _ hnd => h.after e hnd) h hnd

/-- **Lists stay intact.** Whatever calls a client makes one after another, and whatever is made to fail or
registered in between, in every session reached without an id minted twice each example has one chain of
exactly its rows, and whatever is called next fails, if it fails, with an error that is benign. -/
theorem reaches_intact (registry : Registry) (supply : Nat → BitVec 128) (limit : Nat) {s : Session}
    (hs : (Session.start registry supply).Reaches limit (fun _ _ => True) s) (hnd : s.minted.Nodup) :
    s.store.Intact ∧ ∀ {k : Kind} (c : Call k), (s.run (c.program limit)).2.minted.Nodup →
      ∀ e, (s.run (c.program limit)).1 = .error e → e.IsBenign := by
  have hsane := hs.sane (.start registry supply) hnd
  refine ⟨hsane.ordered.intact, fun c hc e he => ?_⟩
  have h := (safe_call hsane limit c hc).2
  rw [he] at h
  exact h

/-- A header is created and seen from another example; its deletion does not reach the counterpart, which
is made to fail and stays behind alone. -/
theorem reaches_intact_interrupted : ∃ s : Session, s.minted = [⟨2⟩, ⟨1⟩] ∧ s.store.rowCount .header = 1 ∧
    s.store.Intact ∧ ∀ e, (s.run (Service.delete 3 .header ⟨2⟩)).1 = .error e → e.IsBenign := by
  have hs : (Session.start {} fun n => BitVec.ofNat 128 (n + 1)).Reaches 3 (fun _ _ => True) _ :=
    (((Reaches.refl.step
      (.call (.create (k := .header) ⟨100⟩ (KeyValue.ofPair "Accept" "text/html"))) True.intro).step
      (.call (.deltaList (k := .header) ⟨101⟩ ⟨100⟩)) True.intro).step
      (.aside (.failWrites ⟨2⟩)) True.intro).step
      (.call (.delete (k := .header) ⟨1⟩)) True.intro
  have h := reaches_intact {} (fun n => BitVec.ofNat 128 (n + 1)) 3 hs (by decide)
  exact ⟨_, by decide, by decide, h.1, h.2 (.delete ⟨2⟩) (by decide)⟩

end Session

end ExampleOverlay
