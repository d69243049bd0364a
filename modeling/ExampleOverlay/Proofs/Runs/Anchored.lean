import ExampleOverlay.Proofs.Runs.Cascades
import ExampleOverlay.Proofs.Runs.Integrity
import ExampleOverlay.Proofs.Runs.NewRows

/-!
# Links that lead somewhere

Rows are linked to rows that are stored for other examples. Any example may be the origin of another, a delta
too, so a counterpart can have counterparts of its own. What takes rows away does not look that far: a row of
a delta is removed without a look at what is linked to it, and a cascade removes the counterparts of a row,
but not theirs. Such a removal strands the rows that were linked to what is gone (`Call.Strands`). No other
call does: as long as none strands a row, every link leads to a stored row of another example
(`Session.reaches_anchored`).
-/

namespace ExampleOverlay

open Program

variable {k : Kind}

/-- Every link leads to a row of another example. -/
def Anchored (rows : ItemId → Option (Item k)) : Prop :=
  ∀ ⦃j : ItemId⦄ ⦃i : Item k⦄ ⦃p : ItemId⦄, rows j = some i → i.parent = some p →
    ∃ o, rows p = some o ∧ o.owner ≠ i.owner

namespace Anchored

variable {rows rows' : ItemId → Option (Item k)} {id : ItemId}

/-- Rows are added that are linked, if at all, to rows of other examples. -/
theorem extend (h : Anchored rows) (hold : ∀ {id x}, rows id = some x → rows' id = some x)
    (hnew : ∀ {id i}, rows' id = some i → rows id = none → ∀ p, i.parent = some p →
      ∃ o, rows p = some o ∧ o.owner ≠ i.owner) : Anchored rows' := by
  intro j i p hi hp
  have hparent : ∃ o, rows p = some o ∧ o.owner ≠ i.owner := by
    cases hj : rows j with
    | none => exact hnew hi hj p hp
    | some x =>
      obtain rfl := Option.some.inj ((hold hj).symm.trans hi)
      exact h hj hp
  obtain ⟨o, ho, hne⟩ := hparent
  exact ⟨o, hold ho, hne⟩

/-- Rows that keep their examples and their links stay anchored. -/
theorem of_same (h : Anchored rows) (hsome : ∀ j i', rows' j = some i' → ∃ i, rows j = some i ∧
      i'.owner = i.owner ∧ i'.parent = i.parent)
    (hkeep : ∀ j i, rows j = some i → ∃ i', rows' j = some i' ∧ i'.owner = i.owner) : Anchored rows' := by
  intro j i' p hi' hp
  obtain ⟨i, hi, ho, hparent⟩ := hsome j i' hi'
  obtain ⟨o, hrow, hne⟩ := h hi (hparent ▸ hp)
  obtain ⟨o', hrow', ho'⟩ := hkeep p o hrow
  exact ⟨o', hrow', by rwa [ho', ho]⟩

/-- A row is replaced by one of the same example with the same link. -/
theorem replace (h : Anchored rows) {x edited : Item k} (hx : rows id = some x) (ho : edited.owner = x.owner)
    (hp : edited.parent = x.parent) : Anchored (Function.update rows id (some edited)) := by
  refine h.of_same (fun j i' hi' => ?_) fun j i hi => ?_
  · rw [Function.update_apply] at hi'
    split at hi'
    next he =>
      obtain rfl := Option.some.inj hi'
      exact ⟨x, he ▸ hx, ho, hp⟩
    · exact ⟨i', hi', rfl, rfl⟩
  · rw [Function.update_apply]
    split
    next he =>
      rw [he, hx, Option.some.injEq] at hi
      exact ⟨edited, rfl, hi ▸ ho⟩
    · exact ⟨i, hi, rfl⟩

/-- Counterparts follow their parents, and stay where they are. -/
theorem follow (h : Anchored rows) (version : ExampleId → Bool) (fields : Fields k) (parent : ItemId) :
    Anchored (carried parent (Item.follow version fields) rows) := by
  have hfollow : ∀ i : Item k, ∃ i', i.follow version fields = some i' ∧ i'.owner = i.owner ∧
      i'.parent = i.parent := fun i => ⟨_, rfl, by split <;> rfl, by split <;> rfl⟩
  have hkeep : ∀ j i, rows j = some i → ∃ i', carried parent (Item.follow version fields) rows j = some i' ∧
      i'.owner = i.owner ∧ i'.parent = i.parent := by
    intro j i hi
    by_cases hp : i.parent = some parent
    · rw [carried_of_linked hi hp]
      exact hfollow i
    · exact ⟨i, carried_of_not_linked hi hp, rfl, rfl⟩
  refine h.of_same (fun j i' hi' => ?_) fun j i hi => (hkeep j i hi).imp fun _ h => ⟨h.1, h.2.1⟩
  cases hj : rows j with
  | none =>
    rw [carried_of_none hj] at hi'
    cases hi'
  | some i =>
    obtain ⟨x, hx, ho, hp⟩ := hkeep j i hj
    obtain rfl := Option.some.inj (hx.symm.trans hi')
    exact ⟨i, rfl, ho, hp⟩

/-- A row is removed that nothing is linked to. -/
theorem remove (h : Anchored rows) (hfree : ∀ j i, rows j = some i → i.parent ≠ some id) :
    Anchored (Function.update rows id none) := by
  intro j i p hi hp
  rw [Function.update_apply] at hi
  split at hi
  · cases hi
  · obtain ⟨o, ho, hne⟩ := h hi hp
    refine ⟨o, ?_, hne⟩
    rw [Function.update_of_ne, ho]
    rintro rfl
    exact hfree j i hi hp

/-- A row is removed and its counterparts outlive it or go with it; nothing is linked to those that go. -/
theorem outlive (h : Anchored rows) {version : ExampleId → Bool}
    (hfree : ∀ j i p x, rows j = some i → j ≠ id → i.parent = some p → rows p = some x → x.parent = some id →
      version x.owner = true) :
    Anchored (carried id (Item.outlive version) (Function.update rows id none)) := by
  -- what is left of the rows that were stored
  have hleft : ∀ j i', carried id (Item.outlive version) (Function.update rows id none) j = some i' →
      j ≠ id ∧ ∃ i, rows j = some i ∧ i'.owner = i.owner ∧
        (i'.parent = none ∨ i.parent ≠ some id ∧ i'.parent = i.parent) := by
    intro j i' hi'
    by_cases hj : j = id
    · rw [hj, carried_of_none (Function.update_self ..)] at hi'
      cases hi'
    refine ⟨hj, ?_⟩
    cases hrow : rows j with
    | none =>
      rw [carried_of_none (by rw [Function.update_of_ne hj, hrow])] at hi'
      cases hi'
    | some i =>
      have hrow' : Function.update rows id none j = some i := by rw [Function.update_of_ne hj, hrow]
      by_cases hp : i.parent = some id
      · rw [carried_of_linked hrow' hp, Item.outlive] at hi'
        split at hi'
        · obtain rfl := Option.some.inj hi'
          exact ⟨i, rfl, rfl, Or.inl rfl⟩
        · cases hi'
      · rw [carried_of_not_linked hrow' hp, Option.some.injEq] at hi'
        subst hi'
        exact ⟨_, rfl, rfl, Or.inr ⟨hp, rfl⟩⟩
  intro j i' p hi' hp
  obtain ⟨hj, i, hi, ho, hlost | ⟨hne, hparent⟩⟩ := hleft j i' hi'
  · rw [hlost] at hp
    cases hp
  rw [hparent] at hp
  obtain ⟨x, hx, hxo⟩ := h hi hp
  have hx' : Function.update rows id none p = some x := by
    rw [Function.update_of_ne, hx]
    rintro rfl
    exact hne hp
  by_cases hxp : x.parent = some id
  · refine ⟨{ x with parent := none }, ?_, by rwa [ho]⟩
    rw [carried_of_linked hx' hxp]
    exact if_pos (hfree j i p x hi hj hp hx hxp)
  · exact ⟨x, carried_of_not_linked hx' hxp, by rwa [ho]⟩

end Anchored

/-- The call takes away what the row is linked to, and leaves the row: it removes a row of a delta, or a row
with counterparts in plain examples. -/
def Call.Strands (c : Call k) (s : Session) (i : Item k) : Prop :=
  match c with
  | .deltaDelete id => i.parent = some id
  | .delete id => i.id ≠ id ∧ ∃ p, ∃ x : Item k, i.parent = some p ∧ s.store.item? k p = some x ∧
      x.parent = some id ∧ s.versions x.owner = false
  | _ => False

namespace Session

/-- No row is made to fail. -/
def Event.Calm : Event → Prop
  | .aside (.failWrites _) => False
  | _ => True

/-- A stored row is stranded. -/
def Event.Strands (s : Session) : Event → Prop
  | .call (k := k) c => ∃ j, ∃ i : Item k, s.store.item? k j = some i ∧ c.Strands s i
  | .aside _ => False

variable {s t : Session}

/-- No row is made to fail, and every link leads to a row of another example. -/
structure Moored (s : Session) : Prop where
  sane : s.Sane
  calm : s.store.failing = ∅
  anchored : ∀ k : Kind, Anchored (s.store.bare? k)

theorem Moored.rewrites (h : s.Moored) {rows : ItemId → Option (Item k)} (ht : s.Rewrites t rows)
    (hrows : Anchored rows) : t.Moored where
  sane := ht.sane
  calm := ht.failing.trans h.calm
  anchored k' := by
    by_cases hk : k' = k
    · subst hk
      rwa [ht.rows]
    · rw [ht.kinds hk]
      exact h.anchored k'

theorem Moored.of_minted (h : s.Moored) {ids : List ItemId} (ht : s.Minted t ids) : t.Moored where
  sane := h.sane.of_minted ht
  calm := by rw [ht.store]; exact h.calm
  anchored k := by rw [ht.store]; exact h.anchored k

/-! ## Calls -/

variable {limit : Nat} {id : ItemId}

theorem Moored.added (h : s.Moored) {i : Item k} (hi : s.Adds t i)
    (hparent : ∀ p ∈ i.parent, ∃ o : Item k, s.store.item? k p = some o ∧ o.owner ≠ i.owner) : t.Moored := by
  obtain ⟨hfresh, u, hu, ht⟩ := hi
  refine (h.of_minted hu).rewrites ht ((h.anchored k).extend (fun {j x} hx => ?_) fun {j y} hy hj p hp => ?_)
  · rw [Function.update_of_ne, hx]
    rintro rfl
    rw [hfresh] at hx
    cases hx
  · rw [Function.update_apply] at hy
    split at hy
    · obtain rfl := Option.some.inj hy
      obtain ⟨o, ho, hne⟩ := hparent p hp
      exact ⟨o.bare, Store.bare?_of_item? ho, hne⟩
    · rw [hj] at hy
      cases hy

theorem Moored.filled (h : s.Moored) {delta origin : ExampleId} (ht : Fills k s t delta origin) : t.Moored := by
  cases ht with
  | same ht => rwa [ht]
  | filled new u hu fresh counterparts ht =>
    refine (h.of_minted hu).rewrites ht ((h.anchored k).extend (fun {j x} hx => filled_of_stored fresh hx)
      fun {j y} hy hnone p hp => ?_)
    obtain ⟨i, hi, rfl, rfl⟩ := exists_of_filled hy hnone
    obtain ⟨row, hrow, howner, hne, hc⟩ := counterparts i hi
    rw [hc] at hp ⊢
    obtain rfl := Option.some.inj hp
    exact ⟨row.bare, Store.bare?_of_item? hrow, by rw [Item.bare_owner, howner]; exact hne⟩

/-- An edit of a row that keeps its link. -/
theorem Moored.modify (h : s.Moored) (limit : Nat) (id : ItemId)
    {edit : Item k → Except EngineError (Item k × Bool)} {f : Item k → Item k} (hedit : Sure edit)
    (halters : Alters edit f) (hlink : ∀ x, (f x).parent = x.parent) :
    (s.run (Editing.modify limit id edit)).2.Moored := by
  cases hx : s.store.item? k id with
  | none =>
    rw [run_modify_of_none h.sane.ordered limit hx]
    exact h
  | some x =>
    rcases halters x with he | he
    · rw [run_modify_of_same h.sane.ordered limit hx he]
      exact h
    · obtain ⟨t, hrun, ht⟩ := rewrites_modify h.sane h.calm limit hedit hx he
      rw [hrun]
      exact h.rewrites ht ((h.anchored k).replace (Store.bare?_of_item? hx)
        (hedit.inPlace x _ he).2.1 (hlink x))

theorem Moored.update (h : s.Moored) (limit : Nat) (id : ItemId) (patch : Patch k) :
    (s.run (Service.update limit id patch)).2.Moored := by
  cases updates_update h.sane limit id patch with
  | refused e hrun _ | same x _ _ hrun =>
    rw [hrun]
    exact h
  | carried x hx _ u hu t report ht hrun =>
    have hu' := h.rewrites hu ((h.anchored k).replace (Store.bare?_of_item? hx) rfl rfl)
    have hrows := ht.rewrites
    rw [ht.complete (ht.calm hu'.calm)] at hrows
    rw [hrun]
    exact hu'.rewrites hrows ((hu'.anchored k).follow _ _ _)

theorem Moored.deltaDelete (h : s.Moored) (limit : Nat) (id : ItemId)
    (hfree : ∀ j, ∀ i : Item k, s.store.item? k j = some i → i.parent ≠ some id) :
    (s.run (Service.deltaDelete limit k id)).2.Moored := by
  unfold Service.deltaDelete
  cases hx : s.store.item? k id with
  | none =>
    rw [run_bind_error (run_remove_of_none h.sane.ordered limit hx)]
    exact h
  | some x =>
    obtain ⟨t, hrun, ht⟩ := rewrites_remove h.sane h.calm limit hx
    rw [run_bind_ok hrun]
    refine h.rewrites ht ((h.anchored k).remove fun j i hi => ?_)
    obtain ⟨y, hy, rfl⟩ := Store.bare?_eq_some_iff.1 hi
    exact hfree j y hy

theorem Moored.delete (h : s.Moored) (limit : Nat) (id : ItemId)
    (hfree : ∀ j, ∀ i : Item k, s.store.item? k j = some i → ¬ (Call.delete id).Strands s i) :
    (s.run (Service.delete limit k id)).2.Moored := by
  cases deletes_delete h.sane limit k id with
  | refused e hrun _ =>
    rw [hrun]
    exact h
  | carried x hx u hu t report ht hrun =>
    have hrows := hu.trans ht.rewrites
    rw [ht.complete (ht.calm (hu.failing.trans h.calm)), hu.rows] at hrows
    rw [hrun]
    refine h.rewrites hrows ((h.anchored k).outlive fun j i' p o hi hj hp ho hop => ?_)
    obtain ⟨i, hitem, rfl⟩ := Store.bare?_eq_some_iff.1 hi
    obtain ⟨y, hparent, rfl⟩ := Store.bare?_eq_some_iff.1 ho
    by_contra hv
    refine hfree j i hitem ⟨?_, p, y, hp, hparent, hop, by simpa using hv⟩
    rwa [h.sane.ordered.id_of_item? hitem]

theorem Moored.reset (h : s.Moored) (limit : Nat) (id : ItemId) :
    (s.run (Service.deltaReset limit k id)).2.Moored := by
  have hord := h.sane.ordered
  have hmodify : ∀ fields : Fields k, (s.run (Editing.modify limit id (Cascade.restore fields))).2.Moored :=
    fun fields => h.modify limit id (sure_restore fields) (alters_restore fields) fun _ => rfl
  unfold Service.deltaReset Cascade.reset
  cases hx : s.store.item? k id with
  | none =>
    rw [run_bind_error (run_get_of_none hord hx)]
    exact h
  | some x =>
    rw [run_bind_ok (run_get_of_some hord hx)]
    cases hp : x.parent with
    | none => exact hmodify (Fields.cleared k)
    | some p =>
      dsimp only
      cases hparent : s.store.item? k p with
      | none =>
        have hread : s.run ((·.fields) <$> Program.get k p) = (.error (.notFound k p), s) :=
          run_bind_error (run_get_of_none hord hparent) _
        rw [run_bind_error hread]
        exact h
      | some parent =>
        have hread : s.run ((·.fields) <$> Program.get k p) = (.ok parent.fields, s) :=
          run_bind_ok (run_get_of_some hord hparent) _
        rw [run_bind_ok hread]
        exact hmodify parent.fields

/-- **A call that strands no row keeps all rows anchored.** -/
theorem Moored.call (h : s.Moored) (limit : Nat) (c : Call k)
    (hc : ∀ j, ∀ i : Item k, s.store.item? k j = some i → ¬ c.Strands s i)
    (hnd : (s.run (c.program limit)).2.minted.Nodup) : (s.run (c.program limit)).2.Moored := by
  cases c with
  | create owner fields =>
    rcases adds_create h.sane h.calm limit owner fields hnd with ⟨e, hrun⟩ | ⟨id, u, hrun, hu⟩
    · rw [Call.program, hrun]
      exact h
    · rw [Call.program, hrun]
      exact h.added hu (by simp [Item.fresh])
  | update id patch => exact h.update limit id patch
  | delete id => exact h.delete limit id hc
  | move owner id target side | deltaMove owner id target side =>
    obtain ⟨r, t, hrun, ht⟩ := rewrites_move h.sane h.calm limit k owner id target side
    rw [Call.program, hrun]
    exact h.rewrites ht (h.anchored k)
  | deltaList delta origin => exact h.filled (fills_deltaList h.sane h.calm limit delta origin hnd)
  | deltaCreate delta origin parent fields =>
    rcases adds_deltaCreate h.sane h.calm limit delta origin parent fields hnd with
      ⟨e, hrun⟩ | ⟨hparent, id, u, hrun, hu⟩
    · rw [Call.program, hrun]
      exact h
    · rw [Call.program, hrun]
      refine h.added hu fun p hp => ?_
      obtain ⟨x, hx, -, hne⟩ := hparent p hp
      exact ⟨x, hx, hne⟩
  | deltaUpdate id patch =>
    show (s.run (Service.patchRow limit id patch true)).2.Moored
    cases hvalid : Patch.fault? patch with
    | some e =>
      rw [run_patchRow_of_fault hvalid]
      exact h
    | none =>
      rw [patchRow_of_valid hvalid]
      exact h.modify limit id (sure_applyPatch patch true) (alters_applyPatch patch true) fun _ => rfl
  | deltaDelete id => exact h.deltaDelete limit id hc
  | deltaReset id => exact h.reset limit id

/-- **A call that strands a row leaves it without its parent**, unless the call is refused. -/
theorem Moored.not_anchored (h : s.Moored) (limit : Nat) {c : Call k} {j : ItemId} {i : Item k}
    (hi : s.store.item? k j = some i) (hc : c.Strands s i) {a : c.Answer}
    (hrun : s.run (c.program limit) = (.ok a, t)) : ¬ Anchored (t.store.bare? k) := by
  obtain rfl : i.id = j := h.sane.ordered.id_of_item? hi
  have hbare : s.store.bare? k i.id = some i.bare := Store.bare?_of_item? hi
  intro hanchored
  cases c with
  | deltaDelete id =>
    have hp : i.parent = some id := hc
    have hne : i.id ≠ id := fun he => h.sane.ordered.selfless hi (he ▸ hp)
    obtain ⟨o, ho, -⟩ := h.anchored k hbare hp
    obtain ⟨x, hx, -⟩ := Store.bare?_eq_some_iff.1 ho
    obtain ⟨u, hremove, hu⟩ := rewrites_remove h.sane h.calm limit hx
    have hdelete : s.run (Service.deltaDelete limit k id) = (.ok (), u) := run_bind_ok hremove _
    obtain rfl : u = t := congrArg Prod.snd (hdelete.symm.trans hrun)
    rw [hu.rows] at hanchored
    obtain ⟨y, hy, -⟩ := hanchored (i := i.bare) (by rw [Function.update_of_ne hne, hbare]) hp
    rw [Function.update_self] at hy
    cases hy
  | delete id =>
    obtain ⟨hne, p, x, hp, hx, hxp, hv⟩ := hc
    cases deletes_delete h.sane limit k id with
    | refused e hrefused _ => cases hrefused.symm.trans hrun
    | carried y hy u hu v report hv' hdelete =>
      obtain rfl : v = t := congrArg Prod.snd (hdelete.symm.trans hrun)
      rw [hv'.complete (hv'.calm (hu.failing.trans h.calm)), hu.rows] at hanchored
      have hpid : p ≠ id := fun he => h.sane.ordered.selfless (he ▸ hx) hxp
      obtain ⟨z, hz, -⟩ := hanchored (i := i.bare) (carried_of_not_linked (by rw [Function.update_of_ne hne, hbare])
        (by rw [Item.bare_parent, hp]; simpa using hpid)) hp
      rw [carried_of_linked (i := x.bare) (by rw [Function.update_of_ne hpid, Store.bare?, hx]; rfl) hxp] at hz
      simp [Item.outlive, hv] at hz
  | _ => exact hc

/-! ## Runs -/

theorem Moored.aside (h : s.Moored) {a : Aside} (ha : (Event.aside a).Calm) (limit : Nat) :
    (s.after limit (.aside a)).Moored := by
  have htables : (s.after limit (.aside a)).store.tables = s.store.tables := tables_aside s.world a
  refine ⟨h.sane.of_tables_eq htables rfl, ?_, fun k => ?_⟩
  · cases a with
    | failWrites id => exact ha.elim
    | clearFailures => rfl
    | _ => exact h.calm
  · rw [bare?_aside]
    exact h.anchored k

theorem Moored.start (registry : Registry) (supply : Nat → BitVec 128) :
    (Session.start registry supply).Moored := by
  refine ⟨.start registry supply, rfl, fun k j i p hi => ?_⟩
  have hnone := (Sane.start registry supply).get?_eq_none (List.not_mem_nil (a := j)) k
  rw [Store.bare?_eq_none_iff.2 ((Sane.start registry supply).ordered.get?_eq_none_iff.1 hnone)] at hi
  cases hi

theorem Reaches.moored (hs : s.Moored)
    (h : s.Reaches limit (fun t e => e.Calm ∧ ¬ e.Strands t) t) (hnd : t.minted.Nodup) : t.Moored := by
  refine Reaches.keeps hs (fun u e hu he hnd => ?_) h hnd
  cases e with
  | call c => exact hu.call limit c (fun j i hi hstrands => he.2 ⟨j, i, hi, hstrands⟩) hnd
  | aside a => exact hu.aside he.1 limit

/-- **Links lead to stored rows of other examples** in every session reached without rows made to fail or
stranded, whichever examples serve as origins and as deltas. -/
theorem reaches_anchored (registry : Registry) (supply : Nat → BitVec 128)
    (hs : (Session.start registry supply).Reaches limit (fun t e => e.Calm ∧ ¬ e.Strands t) s)
    (hnd : s.minted.Nodup) {r : Record} {p : ItemId} (hr : s.store.get? k id = some r) (hp : r.parent = some p) :
    ∃ o, s.store.get? k p = some o ∧ o.kind = k ∧ o.owner ≠ r.owner := by
  have h := hs.moored (.start registry supply) hnd
  have hord := h.sane.ordered
  obtain ⟨i, rfl, -⟩ := hord.exists_item hr
  obtain ⟨o, ho, hne⟩ := h.anchored k (Store.bare?_of_item? (Store.item?_of_get? hr)) hp
  obtain ⟨x, hx, rfl⟩ := Store.bare?_eq_some_iff.1 ho
  exact ⟨Record.ofItem x, hord.item?_eq_some_iff.1 hx, rfl, hne⟩

/-- A header, its counterpart in a delta, and the counterpart of that in a delta of the delta. -/
def nested : Session :=
  (((start {} fun n => BitVec.ofNat 128 (n + 1)).after 3
    (.call (.create (k := .header) ⟨100⟩ (KeyValue.ofPair "Accept" "text/html")))).after 3
    (.call (.deltaList (k := .header) ⟨101⟩ ⟨100⟩))).after 3
    (.call (.deltaList (k := .header) ⟨102⟩ ⟨101⟩))

theorem reaches_nested : (start {} fun n => BitVec.ofNat 128 (n + 1)).Reaches 3
    (fun t e => e.Calm ∧ ¬ e.Strands t) nested :=
  ((Reaches.refl.step (.call _) ⟨True.intro, fun ⟨_, _, _, h⟩ => h⟩).step (.call _)
    ⟨True.intro, fun ⟨_, _, _, h⟩ => h⟩).step (.call _) ⟨True.intro, fun ⟨_, _, _, h⟩ => h⟩

/-- The last row is removed, since nothing is linked to it, and made anew. -/
theorem reaches_anchored_nested : ∃ (s : Session) (r o : Record), s.minted = [⟨4⟩, ⟨3⟩, ⟨2⟩, ⟨1⟩] ∧
    s.store.get? .header ⟨4⟩ = some r ∧ r.parent = some ⟨2⟩ ∧ s.store.get? .header ⟨2⟩ = some o ∧
      o.kind = .header ∧ o.owner ≠ r.owner := by
  have hfree : ∀ j, ∀ i : Item .header, nested.store.item? .header j = some i → i.parent ≠ some ⟨3⟩ := by
    intro j i hi hp
    have hs := (reaches_nested.moored (.start ..) (by decide +kernel)).sane.ordered
    obtain rfl := hs.id_of_item? hi
    have hmem : Record.ofItem i ∈ nested.store.children .header ⟨3⟩ :=
      (hs.sound .header).mem_ofParent.2 ⟨hs.item?_eq_some_iff.1 hi, hp⟩
    rw [show nested.store.children .header ⟨3⟩ = [] by decide +kernel] at hmem
    cases hmem
  have hs := (reaches_nested.step (.call (.deltaDelete (k := .header) ⟨3⟩))
    ⟨True.intro, fun ⟨j, i, hi, h⟩ => hfree j i hi h⟩).step (.call (.deltaList (k := .header) ⟨102⟩ ⟨101⟩))
    ⟨True.intro, fun ⟨_, _, _, h⟩ => h⟩
  generalize hlast : Session.after 3 _ _ = last at hs
  have hlink : (last.store.get? .header ⟨4⟩).bind (·.parent) = some ⟨2⟩ := by subst hlast; decide +kernel
  have hminted : last.minted = [⟨4⟩, ⟨3⟩, ⟨2⟩, ⟨1⟩] := by subst hlast; decide +kernel
  obtain ⟨r, hr, hp⟩ := Option.bind_eq_some_iff.1 hlink
  obtain ⟨o, ho, hk, hne⟩ := reaches_anchored {} (fun n => BitVec.ofNat 128 (n + 1)) hs
    (by rw [hminted]; decide) hr hp
  exact ⟨last, r, o, hminted, hr, hp, ho, hk, hne⟩

/-- The row `id` is stored and linked to `p`, which is not stored. -/
abbrev Dangles (s : Session) (k : Kind) (id p : ItemId) : Prop :=
  (s.store.get? k id).bind (·.parent) = some p ∧ s.store.get? k p = none

/-- The row that is deleted is the parent of the second, which goes with it; or the second is removed as a row
of its delta. Either way the third keeps a link to the second, which is not stored any more. -/
theorem reaches_dangling :
    ((start {} fun n => BitVec.ofNat 128 (n + 1)).Reaches 3 (fun _ e => e.Calm)
      (nested.after 3 (.call (.delete (k := .header) ⟨1⟩))) ∧
        Dangles (nested.after 3 (.call (.delete (k := .header) ⟨1⟩))) .header ⟨3⟩ ⟨2⟩) ∧
    (start {} fun n => BitVec.ofNat 128 (n + 1)).Reaches 3 (fun _ e => e.Calm)
      (nested.after 3 (.call (.deltaDelete (k := .header) ⟨2⟩))) ∧
        Dangles (nested.after 3 (.call (.deltaDelete (k := .header) ⟨2⟩))) .header ⟨3⟩ ⟨2⟩ := by
  have hs : (start {} fun n => BitVec.ofNat 128 (n + 1)).Reaches 3 (fun _ e => e.Calm) nested :=
    ((Reaches.refl.step (.call _) True.intro).step (.call _) True.intro).step (.call _) True.intro
  refine ⟨⟨hs.step _ True.intro, ?_⟩, hs.step _ True.intro, ?_⟩
  · exact ⟨by decide +kernel, by decide +kernel⟩
  · exact ⟨by decide +kernel, by decide +kernel⟩

end Session

end ExampleOverlay
