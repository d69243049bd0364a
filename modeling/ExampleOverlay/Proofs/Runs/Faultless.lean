import ExampleOverlay.Proofs.Chain.Stored
import ExampleOverlay.Proofs.Races.Gaps
import ExampleOverlay.Proofs.Runs.Requests
import ExampleOverlay.Proofs.Store.History

/-!
# Rows without fault

Fields are judged where they enter: those of a new row as a whole, a patch by the members that it sets. Nothing
that is read from the store is judged again, and the rows that are made of it are not judged at all: counterparts,
neighbours with new links, rows that take their parent's fields. A program *upholds* the rules if it commits
only rows without fault whenever it is shown only such rows (`Program.Upholds`). Every call does but one: the reset
of a row that is linked to nothing clears the row, and cleared fields are faulty.
-/

namespace ExampleOverlay

open Chain Program

variable {k : Kind}

/-! ## Faultless rows -/

/-- The fields of the row break no rule. -/
def Item.Faultless (i : Item k) : Prop := Fields.fault? i.fields = none

/-- The record is that of a row of the kind, and the row is without fault. -/
def Record.Faultless (k : Kind) (r : Record) : Prop := ∃ i : Item k, Record.ofItem i = r ∧ i.Faultless

/-- The rows are without fault. -/
def Chain.Faultless (c : Chain k) : Prop := ∀ i ∈ c.items, i.Faultless

/-- Every row that is stored is without fault. -/
def Store.Faultless (s : Store) : Prop := ∀ ⦃k id r⦄, s.get? k id = some r → Record.Faultless k r

/-- A row is judged by what it says, wherever it stands. -/
theorem Item.Faultless.of_bare_mem {items : List (Item k)} (h : ∀ j ∈ items, j.Faultless) {i : Item k}
    (hi : i.bare ∈ items.map Item.bare) : i.Faultless := by
  obtain ⟨j, hj, hji⟩ := List.mem_map.1 hi
  obtain ⟨-, -, -, hfields, -⟩ := Item.bare_eq_iff.1 hji
  rw [Item.Faultless, ← hfields]
  exact h j hj

theorem Record.Faultless.ofItem {i : Item k} (h : (Record.ofItem i).Faultless k) : i.Faultless := by
  obtain ⟨j, hj, hfaultless⟩ := h
  exact Record.ofItem_injective hj ▸ hfaultless

/-- Records of faultless rows are read as faultless rows. -/
theorem Record.exists_faultless {rs : List Record} (h : ∀ r ∈ rs, r.Faultless k) :
    ∃ rows : List (Item k), Record.toItems k rs = .ok rows ∧ ∀ i ∈ rows, i.Faultless := by
  obtain ⟨rows, rfl⟩ := Record.exists_map_ofItem fun r hr => (h r hr).imp fun _ h => h.1
  exact ⟨rows, Record.toItems_map_ofItem rows, fun i hi => (h _ (List.mem_map_of_mem hi)).ofItem⟩

/-! ## What programs are shown and what they commit -/

namespace Request

/-- Only rows without fault are to be stored. -/
def Faultless : Request → Prop
  | .commit b => ∀ r, Write.put r ∈ b.writes → r.Faultless b.kind
  | _ => True

/-- Only rows without fault are shown. -/
def ShowsFaultless : (q : Request) → q.Answer → Prop
  | .get kind _, answer => ∀ r, answer = some r → r.Faultless kind
  | .scan kind _, answer => ∀ r ∈ answer.records, r.Faultless kind
  | .children kind _, answer => ∀ r ∈ answer, r.Faultless kind
  | _, _ => True

end Request

namespace Program

variable {α β : Type} {P Q : α → Prop} {R : β → Prop} {p : Program α}

/-- As long as it is shown only rows without fault, a program commits no others, and its result, if it ends with
one, has the property `Q`. -/
def Upholds {α : Type} (Q : α → Prop) : Program α → Prop
  | .done r => ∀ a, r = .ok a → Q a
  | .ask q next => q.Faultless ∧ ∀ answer, q.ShowsFaultless answer → (next answer).Upholds Q

/-! ## Putting programs together -/

theorem upholds_pure {a : α} (h : Q a) : (pure a : Program α).Upholds Q := by
  rintro _ ⟨⟩
  exact h

theorem upholds_fail (e : EngineError) : (fail e : Program α).Upholds Q := by
  rintro _ ⟨⟩

theorem Upholds.mono (h : p.Upholds P) (hPQ : ∀ a, P a → Q a) : p.Upholds Q := by
  induction p with
  | done r => exact fun a ha => hPQ a (h a ha)
  | ask q next ih => exact ⟨h.1, fun answer hshows => ih answer (h.2 answer hshows)⟩

theorem Upholds.bind {f : α → Program β} (hp : p.Upholds P) (hf : ∀ a, P a → (f a).Upholds R) :
    (p >>= f).Upholds R := by
  induction p with
  | done r =>
    cases r with
    | ok a => exact hf a (hp a rfl)
    | error e => exact upholds_fail e
  | ask q next ih => exact ⟨hp.1, fun answer hshows => ih answer (hp.2 answer hshows)⟩

theorem Upholds.outcome (hp : p.Upholds Q) : p.outcome.Upholds fun r => ∀ a, r = .ok a → Q a := by
  induction p with
  | done r => exact upholds_pure hp
  | ask q next ih => exact ⟨hp.1, fun answer hshows => ih answer (hp.2 answer hshows)⟩

theorem Upholds.retry (operation : Operation) (limit : Nat) (hp : p.Upholds Q) :
    (Program.retry operation limit p).Upholds Q := by
  suffices h : ∀ n, (Program.retry.again operation limit p n).Upholds Q from h _
  intro n
  induction n with
  | zero => exact upholds_fail _
  | succ n ih =>
    refine hp.outcome.bind fun r hr => ?_
    cases r with
    | ok a => exact upholds_pure (hr a rfl)
    | error e =>
      dsimp only
      split
      · exact ih
      · exact upholds_fail e

theorem upholds_ofExcept {r : Except EngineError α} (h : ∀ a, r = .ok a → Q a) : (ofExcept r).Upholds Q := h

theorem upholds_collect {f : α → Program β} : ∀ {as : List α}, (∀ a ∈ as, (f a).Upholds R) →
    (collect f as).Upholds fun bs => ∀ b ∈ bs, R b
  | [], _ => upholds_pure (by simp)
  | a :: as, h => by
    refine (h a List.mem_cons_self).bind fun b hb => ?_
    refine (upholds_collect fun c hc => h c (List.mem_cons_of_mem _ hc)).bind fun bs hbs => ?_
    exact upholds_pure (List.forall_mem_cons.2 ⟨hb, hbs⟩)

/-! ## Accesses -/

theorem upholds_get (id : ItemId) : (Program.get k id).Upholds Item.Faultless := by
  have hfind : (find k id).Upholds fun item => ∀ i, item = some i → i.Faultless := by
    refine ⟨True.intro, fun answer hshows => ?_⟩
    cases answer with
    | none => exact upholds_pure (by simp)
    | some record =>
      obtain ⟨i, rfl, hi⟩ := hshows record rfl
      simp only [Record.toItem_ofItem]
      exact upholds_pure (by rintro _ ⟨⟩; exact hi)
  refine hfind.bind fun item hitem => ?_
  cases item with
  | none => exact upholds_fail _
  | some i => exact upholds_pure (hitem i rfl)

theorem upholds_chain (owner : ExampleId) : (chain k owner).Upholds Chain.Faultless := by
  rw [Session.chain_eq_ask]
  refine ⟨True.intro, fun scan hshows c hc => ?_⟩
  obtain ⟨rows, hrows, hfaultless⟩ := Record.exists_faultless hshows
  rw [hrows] at hc
  dsimp only at hc
  split at hc
  · cases hc
  next hfound =>
    cases hc
    obtain ⟨-, -, hperm, -, -⟩ := linked_of_ofRows hfound
    exact fun i hi => hfaultless i (hperm.subset hi)

theorem upholds_children (parent : ItemId) :
    (children k parent).Upholds fun rows => ∀ i ∈ rows, i.Faultless := by
  refine ⟨True.intro, fun records hshows => ?_⟩
  obtain ⟨rows, hrows, hfaultless⟩ := Record.exists_faultless hshows
  dsimp only
  rw [hrows]
  exact upholds_pure hfaultless

theorem upholds_commit {d : Draft k} (h : ∀ i ∈ d.puts, i.Faultless) : (commit d).Upholds fun _ => True := by
  refine ⟨fun r hr => ?_, fun answer _ => ?_⟩
  · obtain ⟨i, hi, rfl⟩ : ∃ i ∈ d.puts, Record.ofItem i = r := by simpa [Draft.toBatch] using hr
    exact ⟨i, rfl, h i hi⟩
  · cases answer with
    | none => exact upholds_pure True.intro
    | some e => exact upholds_fail _

theorem upholds_isVersion (owner : ExampleId) : (isVersion owner).Upholds fun _ => True :=
  ⟨True.intro, fun _ _ => upholds_pure True.intro⟩

theorem upholds_mint : mint.Upholds fun _ => True := ⟨True.intro, fun _ _ => upholds_pure True.intro⟩

end Program

/-! ## Edits -/

namespace Editing

theorem upholds_append (limit : Nat) {item : Item k} (h : item.Faultless) :
    (append limit item).Upholds fun _ => True := by
  refine Upholds.retry _ _ <| (upholds_chain _).bind fun list hlist => ?_
  refine (upholds_commit fun i hi => ?_).bind fun _ _ => upholds_pure True.intro
  refine .of_bare_mem (fun j hj => ?_) (bare_mem_appendAll hi)
  rcases List.mem_append.1 hj with hj | hj
  · exact hlist j hj
  · exact List.mem_singleton.1 hj ▸ h

theorem upholds_remove (limit : Nat) (id : ItemId) : (remove limit k id).Upholds Item.Faultless := by
  refine Upholds.retry _ _ <| (upholds_get _).bind fun item hitem => (upholds_chain _).bind fun list hlist => ?_
  cases hsplice : list.remove? id with
  | none => exact upholds_fail _
  | some splice =>
    exact (upholds_commit fun i hi => .of_bare_mem hlist (bare_mem_remove? hsplice hi)).bind fun _ _ =>
      upholds_pure hitem

theorem upholds_move (limit : Nat) (owner : ExampleId) (id target : ItemId) (side : Side) :
    (move limit k owner id target side).Upholds fun _ => True := by
  unfold move
  split
  · exact upholds_fail _
  refine Upholds.retry _ _ <| (upholds_chain _).bind fun list hlist => ?_
  split
  · exact (upholds_get _).bind fun _ _ => upholds_fail _
  refine (upholds_ofExcept fun splice hsplice => hsplice).bind fun splice hsplice => ?_
  split
  · exact upholds_pure True.intro
  exact (upholds_commit fun i hi => .of_bare_mem hlist (bare_mem_move hsplice hi)).bind fun _ _ =>
    upholds_pure True.intro

theorem upholds_modify (limit : Nat) (id : ItemId) {edit : Item k → Except EngineError (Item k × Bool)}
    (hedit : ∀ x r, x.Faultless → edit x = .ok r → r.1.Faultless) :
    (modify limit id edit).Upholds Item.Faultless := by
  refine Upholds.retry _ _ <| (upholds_get _).bind fun _ _ => (upholds_chain _).bind fun list hlist => ?_
  cases hfound : list.get? id with
  | none => exact upholds_fail _
  | some item =>
    have hitem : item.Faultless := hlist item (List.mem_of_find?_eq_some hfound)
    refine (upholds_ofExcept fun r hr => hedit item r hitem hr).bind fun r hr => ?_
    dsimp only
    split
    · exact (upholds_commit (by simpa using hr)).bind fun _ _ => upholds_pure hr
    · exact upholds_pure hr

/-- The edits keep a row without fault if what they make of it is. -/
theorem faultless_of_alters {edit : Item k → Except EngineError (Item k × Bool)} {f : Item k → Item k}
    (h : Session.Alters edit f) (hf : ∀ x : Item k, x.Faultless → (f x).Faultless) :
    ∀ x r, x.Faultless → edit x = .ok r → r.1.Faultless := by
  intro x r hx hr
  rcases h x with hsame | hchanged
  · obtain rfl := Except.ok.inj (hsame.symm.trans hr)
    exact hx
  · obtain rfl := Except.ok.inj (hchanged.symm.trans hr)
    exact hf x hx

end Editing

/-! ## Cascades -/

namespace Cascade

theorem upholds_versions (rows : List (Item k)) : (versions rows).Upholds fun _ => True :=
  (upholds_collect (R := fun _ => True) fun _ _ => (upholds_isVersion _).bind fun _ _ =>
    upholds_pure True.intro).mono fun _ _ => True.intro

theorem upholds_carry {each : Item k → Program Outcome} (heach : ∀ row, (each row).Upholds fun _ => True) :
    ∀ (report : Report) (rows : List (Item k)), (carry each report rows).Upholds fun _ => True
  | _, [] => upholds_pure True.intro
  | report, row :: rest => by
    refine (heach row).outcome.bind fun r _ => ?_
    cases r with
    | ok outcome => exact upholds_carry heach _ rest
    | error e =>
      dsimp only
      split
      · exact upholds_carry heach _ rest
      · exact upholds_carry heach _ rest

/-- A counterpart takes the fields that its parent has by now, or those that the update gave it. -/
theorem upholds_updateOne (limit : Nat) (before : Item k) {after : Item k} (hafter : after.Faultless)
    (version : Bool) (row : Item k) : (updateOne limit before after version row).Upholds fun _ => True := by
  unfold updateOne
  split
  · exact upholds_pure True.intro
  refine (upholds_get _).outcome.bind fun r hr => ?_
  have hmodify : ∀ fields : Fields k, Fields.fault? fields = none → (do
      let row ← Editing.modify limit row.id (takeFields before.id fields)
      return if row.parent = some before.id ∧ row.overridden = false then Outcome.updated
        else .skipped : Program Outcome).Upholds fun _ => True := fun fields hfields =>
    (Editing.upholds_modify _ _ (Editing.faultless_of_alters (Session.alters_takeFields _ _) fun _ _ =>
      hfields)).bind fun _ _ => upholds_pure True.intro
  cases r with
  | ok parent => exact hmodify parent.fields (hr parent rfl)
  | error e =>
    dsimp only
    split
    · exact hmodify after.fields hafter
    · exact upholds_fail e

theorem upholds_update (limit : Nat) (before : Item k) {after : Item k} (hafter : after.Faultless) :
    (update limit before after).Upholds fun _ => True :=
  (upholds_children _).bind fun rows _ => (upholds_versions rows).bind fun _ _ =>
    upholds_carry (fun _ => upholds_updateOne _ _ hafter _ _) _ rows

theorem upholds_deleteOne (limit : Nat) (origin : Item k) (version : Bool) (row : Item k) :
    (deleteOne limit origin version row).Upholds fun _ => True := by
  unfold deleteOne
  cases Source.resolve row (some origin) version with
  | delta =>
    have hclear := Editing.faultless_of_alters (Session.alters_clearLink (k := k) origin.id) fun _ h => h
    exact (Editing.upholds_modify _ _ hclear).bind fun _ _ => upholds_pure True.intro
  | origin | mixed => exact (Editing.upholds_remove _ _).bind fun _ _ => upholds_pure True.intro

theorem upholds_delete (limit : Nat) (origin : Item k) : (delete limit origin).Upholds fun _ => True :=
  (upholds_children _).bind fun rows _ => (upholds_versions rows).bind fun _ _ =>
    upholds_carry (fun _ => upholds_deleteOne _ _ _ _) _ rows

/-- A row that is found linked to a parent is reset to fields without fault. -/
theorem exists_reset_eq_ask (limit : Nat) (k : Kind) (id : ItemId) : ∃ next, reset limit k id = .ask (.get k id) next ∧
    ∀ answer : Option Record, (∀ r, answer = some r → r.Faultless k ∧ r.parent ≠ none) →
      (next answer).Upholds Item.Faultless := by
  refine ⟨_, rfl, fun answer hanswer => ?_⟩
  cases answer with
  | none => exact upholds_fail (.notFound k id)
  | some r =>
    obtain ⟨⟨row, rfl, -⟩, hlinked⟩ := hanswer r rfl
    obtain ⟨parent, hparent⟩ : ∃ parent, row.parent = some parent := Option.ne_none_iff_exists'.1 hlinked
    have hfields : (Item.fields <$> Program.get k parent).Upholds fun fields => Fields.fault? fields = none :=
      (upholds_get parent).bind fun _ h => upholds_pure h
    have hrestore : (do
        let fields ← Item.fields <$> Program.get k parent
        Editing.modify limit id (restore fields)).Upholds Item.Faultless :=
      hfields.bind fun fields h =>
        Editing.upholds_modify _ _ (Editing.faultless_of_alters (Session.alters_restore fields) fun _ _ => h)
    simp only [Record.toItem_ofItem]
    cases row
    subst hparent
    exact hrestore

end Cascade

/-! ## Calls -/

namespace Service

theorem upholds_require (fault : Option FieldError) : (require fault).Upholds fun _ => fault = none := by
  cases fault with
  | none => exact upholds_pure rfl
  | some e => exact upholds_fail _

/-- Sound fields stay sound though a patch is judged by the members that it sets alone. -/
theorem upholds_patchRow (limit : Nat) (id : ItemId) (patch : Patch k) (customize : Bool) :
    (patchRow limit id patch customize).Upholds Item.Faultless :=
  (upholds_require _).bind fun _ hpatch => Editing.upholds_modify _ _ <|
    Editing.faultless_of_alters (Session.alters_applyPatch patch customize) fun _ h => Fields.fault?_patch h hpatch

theorem upholds_requireOther (delta origin : ExampleId) : (requireOther delta origin).Upholds fun _ => True := by
  unfold requireOther
  split
  · exact upholds_fail _
  · exact upholds_pure True.intro

theorem upholds_requireParent (k : Kind) (delta : ExampleId) (origin : Option ExampleId) (parent : ItemId) :
    (requireParent k delta origin parent).Upholds fun _ => True := by
  cases origin with
  | none => exact upholds_fail _
  | some origin =>
    refine (upholds_requireOther delta origin).bind fun _ _ => (upholds_get parent).bind fun row _ => ?_
    split
    · exact upholds_pure True.intro
    · exact upholds_fail _

theorem upholds_appendNew (limit : Nat) {row : ItemId → Item k} (hrow : ∀ id, (row id).Faultless) :
    (appendNew limit row).Upholds fun _ => True :=
  upholds_mint.bind fun id _ => (Editing.upholds_append limit (hrow id)).bind fun _ _ =>
    upholds_pure True.intro

theorem upholds_materialize (limit : Nat) {origin : Chain k} (horigin : origin.Faultless) (delta : ExampleId) :
    (materialize limit origin delta).Upholds Chain.Faultless := by
  refine Upholds.retry _ _ <| (upholds_chain delta).bind fun current hcurrent => ?_
  dsimp only
  split
  · exact upholds_pure hcurrent
  refine (upholds_collect (R := Item.Faultless) fun row hrow => ?_).bind fun rows hrows => ?_
  · exact upholds_mint.bind fun id _ => upholds_pure (horigin row (List.mem_of_mem_filter hrow))
  refine (upholds_commit fun i hi => ?_).bind fun _ _ => upholds_chain delta
  refine .of_bare_mem (fun j hj => ?_) (bare_mem_appendAll hi)
  exact (List.mem_append.1 hj).elim (hcurrent j) (hrows j)

end Service

open Service in
/-- **Every call upholds the rules** except a reset, which clears a row that has no parent. -/
theorem Call.upholds (limit : Nat) (c : Call k) (hreset : ∀ id, c ≠ .deltaReset id) :
    (c.program limit).Upholds fun _ => True := by
  cases c with
  | create owner fields =>
    rw [Call.program, create_eq]
    exact (upholds_require _).bind fun _ hfields => upholds_appendNew limit fun _ => hfields
  | update id patch =>
    refine (upholds_get id).bind fun before _ => (upholds_patchRow limit id patch false).bind fun after hafter => ?_
    split
    · exact upholds_pure True.intro
    · exact (Cascade.upholds_update limit before hafter).bind fun _ _ => upholds_ofExcept fun _ _ => True.intro
  | delete id =>
    exact (Editing.upholds_remove limit id).bind fun removed _ => (Cascade.upholds_delete limit removed).bind
      fun _ _ => upholds_ofExcept fun _ _ => True.intro
  | move owner id target side => exact Editing.upholds_move limit owner id target side
  | deltaList delta origin =>
    refine (upholds_requireOther _ _).bind fun _ _ => (upholds_chain origin).bind fun list hlist => ?_
    refine (upholds_materialize limit hlist delta).bind fun _ _ => ?_
    exact (upholds_isVersion delta).bind fun _ _ => upholds_pure True.intro
  | deltaCreate delta origin parent fields =>
    cases parent with
    | none =>
      rw [Call.program, deltaCreate_none]
      exact (upholds_require _).bind fun _ hfields => upholds_appendNew limit fun _ => hfields
    | some parent =>
      rw [Call.program, deltaCreate_some]
      exact (upholds_require _).bind fun _ hfields => (upholds_requireParent k delta origin parent).bind fun _ _ =>
        upholds_appendNew limit fun _ => hfields
  | deltaUpdate id patch => exact (upholds_patchRow limit id patch true).mono fun _ _ => True.intro
  | deltaDelete id => exact (Editing.upholds_remove limit id).bind fun _ _ => upholds_pure True.intro
  | deltaReset id => exact absurd rfl (hreset id)
  | deltaMove delta id target side => exact Editing.upholds_move limit delta id target side

/-! ## Stores -/

namespace Store

variable {s : Store}

theorem Faultless.of_tables_eq {t : Store} (hs : s.Faultless) (h : t.tables = s.tables) : t.Faultless := by
  intro k id r hr
  rw [get?, table_of_tables_eq h] at hr
  exact hs hr

theorem Faultless.empty : Faultless {} := by
  intro k id r hr
  rw [get?, table_empty, Table.get?_empty] at hr
  cases hr

/-- What is stored after a batch was accepted was put by it, or stored before. -/
theorem Faultless.accept (hs : s.Faultless) {b : Batch} (hb : Request.Faultless (.commit b)) :
    (s.accept b).Faultless := by
  intro k id r hr
  rw [get?, table_accept] at hr
  split at hr
  next hk =>
    subst hk
    rw [Table.get?_apply] at hr
    rcases put_mem_or_of_written hr with hput | hold
    · exact hb r hput
    · exact hs hold
  · exact hs hr

end Store

/-! ## Sessions -/

namespace Session

variable {α : Type} {s : Session} {p : Program α} {Q : α → Prop}

theorem serve_faultless (hs : s.store.Faultless) {q : Request} (hq : q.Faultless) :
    q.ShowsFaultless (serve q s).1 ∧ (serve q s).2.store.Faultless := by
  have hrows : ∀ (kind : Kind) (ids : List ItemId), ∀ r ∈ ids.filterMap (s.store.table kind).get?,
      r.Faultless kind := by
    intro kind ids r hr
    obtain ⟨id, -, hr⟩ := List.mem_filterMap.1 hr
    exact hs hr
  cases q with
  | get kind id => exact ⟨fun r hr => hs hr, hs⟩
  | scan kind owner => exact ⟨hrows kind _, hs⟩
  | children kind parent => exact ⟨hrows kind _, hs⟩
  | commit b =>
    refine ⟨True.intro, ?_⟩
    rw [serve_commit, Store.commit_eq]
    cases s.store.fault? b with
    | some e => exact hs
    | none => exact hs.accept hq
  | versionOf owner => exact ⟨True.intro, hs⟩
  | mint => exact ⟨True.intro, hs⟩

/-- **A program that upholds the rules** never leaves a faulty row behind where it found none. -/
theorem advance_faultless (hp : p.Upholds Q) (hs : s.store.Faultless) (n : Nat) :
    (s.advance p n).2.store.Faultless := by
  induction n generalizing p s with
  | zero => exact hs
  | succ n ih =>
    cases p with
    | done r => exact hs
    | ask q next =>
      obtain ⟨hshows, hstore⟩ := serve_faultless hs hp.1
      exact ih (hp.2 _ hshows) hstore

/-- If the event resets a row, the row is linked to a parent. -/
def Event.ResetsLinked (s : Session) : Event → Prop
  | .call (k := k) c => ∀ id, c = .deltaReset id → ∀ r, s.store.get? k id = some r → r.parent ≠ none
  | .aside _ => True

theorem advance_call_faultless (hs : s.store.Faultless) (limit : Nat) {c : Call k}
    (hc : (Event.call c).ResetsLinked s) (n : Nat) : (s.advance (c.program limit) n).2.store.Faultless := by
  by_cases hreset : ∃ id, c = .deltaReset id
  · obtain ⟨id, rfl⟩ := hreset
    obtain ⟨next, hnext, hupholds⟩ := Cascade.exists_reset_eq_ask limit k id
    cases n with
    | zero => exact hs
    | succ n =>
      rw [Call.program, Service.deltaReset, hnext]
      exact advance_faultless (hupholds _ fun r hr => ⟨hs hr, hc id rfl r hr⟩) hs n
  · exact advance_faultless (Call.upholds limit c fun id hid => hreset ⟨id, hid⟩) hs n

theorem after_faultless (hs : s.store.Faultless) (limit : Nat) {e : Event} (he : e.ResetsLinked s) :
    (s.after limit e).store.Faultless := by
  cases e with
  | call c =>
    obtain ⟨n, hn⟩ := exists_advance_eq_done s (c.program limit)
    have h := advance_call_faultless hs limit he n
    rwa [hn] at h
  | aside a => exact hs.of_tables_eq (tables_aside s.world a)

/-- **Stored fields stay sound.** Whatever calls a client makes one after another, and whatever is made to fail in
between, as long as it resets no row that is linked to nothing, every row that is stored is without fault. So it
is while a call is under way, however far it has come. -/
theorem reaches_faultless (registry : Registry) (supply : Nat → BitVec 128) (limit : Nat)
    (hs : (Session.start registry supply).Reaches limit (fun t e => e.ResetsLinked t) s) :
    s.store.Faultless ∧ ∀ {k : Kind} (c : Call k), (Event.call c).ResetsLinked s →
      ∀ n, (s.advance (c.program limit) n).2.store.Faultless := by
  have hfaultless : s.store.Faultless := by
    induction hs with
    | refl => exact Store.Faultless.empty
    | step e _ he ih => exact after_faultless ih limit he
  exact ⟨hfaultless, fun c hc => advance_call_faultless hfaultless limit hc⟩

/-- A row that is linked to nothing has a blank key after a reset. -/
example : (((start {} fun n => BitVec.ofNat 128 (n + 1)).after 3
    (.call (.create (k := .header) ⟨100⟩ (KeyValue.ofPair "Accept" "text/html")))).run
    (Service.deltaReset 3 .header ⟨1⟩)).1.map (fun i => Fields.fault? i.fields) = .ok (some .emptyKey) := by
  decide +kernel

/-- A header changes while its counterpart cannot be written; the counterpart is then customized by itself. -/
def drifted : Session :=
  [Event.call (.create (k := .header) ⟨100⟩ (KeyValue.ofPair "Accept" "text/html")),
    .call (.deltaList (k := .header) ⟨101⟩ ⟨100⟩),
    .aside (.failWrites ⟨2⟩),
    .call (.update (k := .header) ⟨1⟩ { value := some "text/plain" }),
    .aside .clearFailures,
    .call (.deltaUpdate (k := .header) ⟨2⟩ { key := some "Accept-Language" })].foldl (after 3)
    (start {} fun n => BitVec.ofNat 128 (n + 1))

/-- The counterpart is reset: it takes the value that had not reached it. -/
theorem reaches_faultless_drifted : drifted.store.Faultless ∧
    (drifted.store.item? .header ⟨2⟩).map (·.fields) = some (KeyValue.ofPair "Accept-Language" "text/html") ∧
    (∀ n, (drifted.advance (Service.deltaReset 3 .header ⟨2⟩) n).2.store.Faultless) ∧
    ((drifted.run (Service.deltaReset 3 .header ⟨2⟩)).2.store.item? .header ⟨2⟩).map (·.fields) =
      some (KeyValue.ofPair "Accept" "text/plain") := by
  have hs : (start {} fun n => BitVec.ofNat 128 (n + 1)).Reaches 3 (fun t e => e.ResetsLinked t) drifted :=
    (((((Reaches.refl.step (.call _) nofun).step (.call _) nofun).step (.aside _) True.intro).step
      (.call _) nofun).step (.aside _) True.intro).step (.call _) nofun
  obtain ⟨hfaultless, hcall⟩ := reaches_faultless {} (fun n => BitVec.ofNat 128 (n + 1)) 3 hs
  have hlinked : (drifted.store.get? .header ⟨2⟩).bind (·.parent) = some ⟨1⟩ := by decide +kernel
  refine ⟨hfaultless, by decide +kernel, hcall (.deltaReset ⟨2⟩) ?_, by decide +kernel⟩
  rintro _ ⟨⟩ r hr hp
  rw [hr, Option.bind_some, hp] at hlinked
  cases hlinked

end Session

end ExampleOverlay
