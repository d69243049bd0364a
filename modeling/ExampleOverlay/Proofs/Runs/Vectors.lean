import ExampleOverlay.Proofs.Chain.Moves
import ExampleOverlay.Proofs.Crowds.Serial
import ExampleOverlay.Proofs.Runs.Calm

/-!
# Lists as vectors

The order of a list is spelled out by links that are scattered over rows in no order. To one client, in a
store in which no row is made to fail, all that is as if each example had a plain vector of rows
(`Vectors`): appending pushes at the end, removing erases, moving erases and inserts next to the target,
and changing a row replaces it where it is. Every edit succeeds on the one side exactly when it does on the
other, and what is read of a list is its vector (`Session.edits_mirror_vectors`).
-/

namespace ExampleOverlay

open Chain Program

variable {k : Kind}

/-! ## Vectors -/

/-- For each kind the rows of every example that has any, each example's in a vector. -/
structure Vectors where
  rows : (k : Kind) → Std.ExtTreeMap ExampleId (List (Item k)) := fun _ => ∅

namespace Vectors

/-- The vector of an example. -/
def list (v : Vectors) (k : Kind) (owner : ExampleId) : List (Item k) := (v.rows k)[owner]?.getD []

def set (v : Vectors) (owner : ExampleId) (rows : List (Item k)) : Vectors where
  rows := Function.update v.rows k ((v.rows k).insert owner rows)

/-- The example in whose vector the row of an id is. -/
def holder? (v : Vectors) (k : Kind) (id : ItemId) : Option ExampleId :=
  ((v.rows k).toList.find? fun entry => entry.2.any (·.id == id)).map (·.1)

/-- The vectors after an edit, unless it fails. A row is shown to the edit with its links, as it is read. No row
may reference itself, so one that is its own parent is not taken. -/
def step (v : Vectors) : Edit → Option Vectors
  | .append item =>
    if item.parent = some item.id then none else some (v.set item.owner (v.list _ item.owner ++ [item]))
  | .remove k id => do
    let owner ← v.holder? k id
    return v.set owner ((v.list k owner).filter (·.id != id))
  | .move k owner id target side => do
    let rows ← reinsert id target side (v.list k owner)
    return v.set owner rows
  | .modify (k := k) id edit => do
    let owner ← v.holder? k id
    let row ← (link none (v.list k owner)).find? (·.id == id)
    let (edited, store) ← (edit row).toOption
    if store = false then return v
    else if edited.parent = some edited.id then none
    else return v.set owner (replaced (v.list k owner) edited)

/-- The vectors after an edit; one that fails leaves them alone. -/
def after (v : Vectors) (e : Edit) : Vectors := (v.step e).getD v

/-- The vectors after edits, made one after another. -/
def edited (v : Vectors) (edits : List Edit) : Vectors := edits.foldl after v

/-- The row to append has an id that no row of its kind has, and the row to change stays in its place. -/
def Admits (v : Vectors) : Edit → Prop
  | .append (k := k) item => v.holder? k item.id = none
  | .modify _ edit => Session.InPlace edit
  | _ => True

/-- Each of the edits is admitted when its turn comes. -/
def AdmitsAll (v : Vectors) : List Edit → Prop
  | [] => True
  | e :: es => v.Admits e ∧ (v.after e).AdmitsAll es

variable {v : Vectors} {owner : ExampleId} {id : ItemId}

theorem list_set (v : Vectors) (owner owner' : ExampleId) (rows : List (Item k)) :
    (v.set owner rows).list k owner' = if owner' = owner then rows else v.list k owner' := by
  have hself : (v.set owner rows).rows k = (v.rows k).insert owner rows := Function.update_self ..
  rw [list, hself, Std.ExtTreeMap.getElem?_insert]
  by_cases h : owner' = owner
  · simp [h]
  · simp [h, Std.LawfulEqCmp.compare_eq_iff_eq, Ne.symm h, list]

theorem list_set_of_ne (v : Vectors) (owner owner' : ExampleId) (rows : List (Item k)) {k' : Kind} (h : k' ≠ k) :
    (v.set owner rows).list k' owner' = v.list k' owner' := by
  have hother : (v.set owner rows).rows k' = v.rows k' := Function.update_of_ne h ..
  rw [list, hother, list]

theorem mem_of_holder? (h : v.holder? k id = some owner) : id ∈ idsOf (v.list k owner) := by
  obtain ⟨⟨owner', rows⟩, hfind, rfl⟩ := Option.map_eq_some_iff.1 h
  have hrows := Std.ExtTreeMap.mem_toList_iff_getElem?_eq_some.1 (List.mem_of_find?_eq_some hfind)
  have hany := List.find?_some hfind
  rw [list, hrows]
  simpa [idsOf] using hany

theorem not_mem_of_holder? (h : v.holder? k id = none) (owner : ExampleId) : id ∉ idsOf (v.list k owner) := by
  have hfind := List.find?_eq_none.1 (Option.map_eq_none_iff.1 h)
  unfold list
  cases hrows : (v.rows k)[owner]? with
  | none => exact List.not_mem_nil
  | some rows =>
    have := hfind (owner, rows) (Std.ExtTreeMap.mem_toList_iff_getElem?_eq_some.2 hrows)
    simpa [idsOf] using this

end Vectors

/-! ## What vectors say -/

theorem map_bare_replaced (rows : List (Item k)) (edited : Item k) :
    (replaced rows edited).map Item.bare = replaced (rows.map Item.bare) edited.bare := by
  rw [replaced, replaced, List.map_map, List.map_map]
  refine List.map_congr_left fun i _ => ?_
  by_cases h : i.id = edited.id <;> simp [h]

/-- Rows that say the same are linked alike. -/
theorem link_congr {a b : List (Item k)} (h : a.map Item.bare = b.map Item.bare) : link none a = link none b := by
  rw [link_eq_segment, link_eq_segment, segment_congr none none h]

namespace Session

variable {s t : Session} {v : Vectors} {owner : ExampleId} {α : Type} {p : Program α}

/-! ## Sessions that mirror vectors -/

/-- No row is made to fail, and the rows of every list are those of a vector in their order. -/
structure Mirrors (s : Session) (v : Vectors) : Prop where
  sound : s.store.Sound
  calm : s.store.failing = ∅
  holds : ∀ (k : Kind) (owner : ExampleId), s.store.Holds owner (link none (v.list k owner))

theorem Mirrors.ordered (h : s.Mirrors v) : s.store.Ordered := ⟨h.sound, fun k owner => ⟨_, h.holds k owner⟩⟩

/-- A program did to the lists what was done to the vectors, or failed and did nothing. -/
def Mimics (s : Session) (p : Program α) : Option Vectors → Prop
  | none => ∃ e, s.run p = (.error e, s)
  | some v => ∃ a t, s.run p = (.ok a, t) ∧ t.Mirrors v

/-- Rows are found where the vectors have them. -/
theorem Mirrors.holder?_eq (h : s.Mirrors v) (id : ItemId) :
    v.holder? k id = (s.store.item? k id).map (·.owner) := by
  have hfound : ∀ owner, id ∈ idsOf (v.list k owner) →
      ∃ x : Item k, s.store.item? k id = some x ∧ x.owner = owner := by
    intro owner hid
    rw [← idsOf_link none] at hid
    obtain ⟨x, hx, rfl⟩ := List.mem_map.1 hid
    exact ⟨x, (h.holds k owner).item?_of_mem hx, (h.holds k owner).owned x hx⟩
  cases hv : v.holder? k id with
  | some owner =>
    obtain ⟨x, hx, rfl⟩ := hfound owner (Vectors.mem_of_holder? hv)
    rw [hx]
    rfl
  | none =>
    cases hx : s.store.item? k id with
    | none => rfl
    | some x =>
      have hmem := List.mem_map_of_mem (f := (·.id)) ((h.holds k x.owner).mem_of_item? h.ordered hx rfl)
      rw [h.ordered.id_of_item? hx] at hmem
      exact absurd (idsOf_link none (v.list k x.owner) ▸ hmem) (Vectors.not_mem_of_holder? hv x.owner)

/-- One vector is set to the rows of its list. -/
theorem Mirrors.set {rows : List (Item k)} (hsound : t.store.Sound) (hcalm : t.store.failing = ∅)
    (hself : t.store.Holds owner (link none rows))
    (hothers : ∀ {k' owner'}, k' ≠ k ∨ owner' ≠ owner → t.store.Holds owner' (link none (v.list k' owner'))) :
    t.Mirrors (v.set owner rows) where
  sound := hsound
  calm := hcalm
  holds k' owner' := by
    by_cases hk : k' = k
    · subst hk
      rw [Vectors.list_set]
      split
      next ho => exact ho ▸ hself
      next ho => exact hothers (Or.inr ho)
    · rw [Vectors.list_set_of_ne v owner owner' rows hk]
      exact hothers (Or.inl hk)

/-- One vector and one list are changed alike. -/
theorem Mirrors.turned (h : s.Mirrors v) {items' rows : List (Item k)}
    (ht : s.Turned t owner (link none (v.list k owner)) items') (hrows : link none rows = items') :
    t.Mirrors (v.set owner rows) :=
  .set ht.turned.sound (ht.turned.failing.trans h.calm) (hrows ▸ ht.turned.holds) fun hne =>
    (h.holds _ _).of_scan_eq h.sound ht.turned.sound (ht.turned.scan_eq h.sound ht.holds hne)

theorem Mirrors.commits (h : s.Mirrors v) {a : α} {sp : Splice k} {present : List ItemId}
    {items' rows : List (Item k)} (hc : s.Commits p a owner (link none (v.list k owner)) sp present items')
    (hrows : link none rows = items') : s.Mimics p (some (v.set owner rows)) := by
  obtain ⟨t, hrun, ht⟩ := hc.turned h.calm
  exact ⟨a, t, hrun, h.turned ht hrows⟩

/-! ## Edits that fail -/

/-- An attempt that fails and changes nothing does so however often it is made. -/
theorem run_retry_of_error (operation : Operation) (limit : Nat) {e : EngineError} (h : s.run p = (.error e, s)) :
    ∃ e', s.run (retry operation limit p) = (.error e', s) := by
  suffices hagain : ∀ n, ∃ e', s.run (retry.again operation limit p n) = (.error e', s) from hagain _
  intro n
  induction n with
  | zero => exact ⟨_, rfl⟩
  | succ n ih =>
    rw [retry.again, run_bind, run_outcome, h]
    dsimp only
    split
    · exact ih
    · exact ⟨_, rfl⟩

/-- No row is stored that is its own parent. -/
theorem run_commit_of_selfish (s : Session) {sp : Splice k} {i : Item k} (hi : i ∈ sp.puts)
    (hself : i.parent = some i.id) (owner : ExampleId) (version : Nat) (present : List ItemId) :
    ∃ e, s.run (commit (Store.draftOf sp owner version present)) = (.error e, s) := by
  rw [run_commit, Store.commit_eq]
  cases hf : s.store.fault? (Store.draftOf sp owner version present).toBatch with
  | some e => exact ⟨_, rfl⟩
  | none => exact absurd hf (View.fault?_of_selfish hi hself owner version present)

theorem run_move_of_error (hs : s.store.Ordered) (limit : Nat) {items : List (Item k)}
    (h : s.store.Holds owner items) {id target : ItemId} {side : Side} {e : EngineError}
    (hmove : Chain.move ⟨owner, s.store.version k owner, items⟩ id target side = .error e) :
    ∃ e', s.run (Editing.move limit k owner id target side) = (.error e', s) := by
  unfold Editing.move
  split
  · exact ⟨_, rfl⟩
  suffices hattempt : ∃ e', s.run (do
      let list ← Program.chain k owner
      if !list.contains id then
        let _ ← Program.get k id
        fail (.exampleMismatch k id owner)
      else
        let splice ← ofExcept (list.move id target side)
        if splice.isEmpty then return false
        commitSplice list splice
        return true) = (.error e', s) by
    obtain ⟨e', he'⟩ := hattempt
    exact run_retry_of_error .move limit he'
  rw [run_bind_ok (run_chain_of_holds hs h), hmove]
  split
  · cases hx : s.store.item? k id with
    | none => exact ⟨_, run_bind_error (run_get_of_none hs hx) _⟩
    | some x => exact ⟨_, run_bind_ok (run_get_of_some hs hx) _⟩
  · exact ⟨_, rfl⟩

theorem run_append_of_selfish (hs : s.store.Ordered) (limit : Nat) {item : Item k} {items : List (Item k)}
    (h : s.store.Holds item.owner items) (hself : item.parent = some item.id) :
    ∃ e, s.run (Editing.append limit item) = (.error e, s) := by
  have hput : ({ item with prev := items.getLast?.map (·.id), next := none } : Item k) ∈
      (Chain.appendAll ⟨item.owner, s.store.version k item.owner, items⟩ [item]).puts :=
    List.mem_append_right _ (List.mem_singleton_self _)
  obtain ⟨e, hcommit⟩ := s.run_commit_of_selfish hput hself item.owner (s.store.version k item.owner) []
  exact run_retry_of_error .append limit
    ((run_bind_ok (run_chain_of_holds hs h) _).trans (run_bind_error hcommit _))

section Modify

variable {id : ItemId} {x edited : Item k} {items : List (Item k)}
  {edit : Item k → Except EngineError (Item k × Bool)}

theorem run_modify_of_error (hs : s.store.Ordered) (limit : Nat) (hx : s.store.item? k id = some x)
    (h : s.store.Holds x.owner items) {e : EngineError} (he : edit x = .error e) :
    ∃ e', s.run (Editing.modify limit id edit) = (.error e', s) := by
  refine run_retry_of_error .modify limit (e := e) ((run_bind_ok (run_get_of_some hs hx) _).trans
    ((run_bind_ok (run_chain_of_holds hs h) _).trans ?_))
  simp only [get?_of_item? hs hx h, he]
  rfl

theorem run_modify_of_selfish (hs : s.store.Ordered) (limit : Nat) (hx : s.store.item? k id = some x)
    (h : s.store.Holds x.owner items) (he : edit x = .ok (edited, true))
    (hself : edited.parent = some edited.id) : ∃ e, s.run (Editing.modify limit id edit) = (.error e, s) := by
  have hput : edited ∈ ({ puts := [edited] } : Splice k).puts := List.mem_singleton_self edited
  obtain ⟨e, hcommit⟩ := s.run_commit_of_selfish hput hself x.owner (s.store.version k x.owner) [id]
  refine run_retry_of_error .modify limit (e := e) ((run_bind_ok (run_get_of_some hs hx) _).trans
    ((run_bind_ok (run_chain_of_holds hs h) _).trans ?_))
  simp only [get?_of_item? hs hx h, he]
  exact run_bind_error hcommit _

end Modify

/-! ## The four edits -/

theorem mimics_append (h : s.Mirrors v) (limit : Nat) {item : Item k} (hnew : v.holder? k item.id = none) :
    s.Mimics (Editing.append limit item) (v.step (.append item)) := by
  have hl := h.holds k item.owner
  rw [Vectors.step]
  split
  next hself => exact run_append_of_selfish h.ordered limit hl hself
  next hself =>
    have hnone : s.store.get? k item.id = none := by
      rw [h.holder?_eq, Option.map_eq_none_iff] at hnew
      exact h.ordered.get?_eq_none_iff.2 hnew
    obtain ⟨stored, -, hc⟩ := commits_append h.ordered limit hl hself hnone
    exact h.commits hc (link_congr (by simp))

theorem mimics_remove (h : s.Mirrors v) (limit : Nat) (k : Kind) (id : ItemId) :
    s.Mimics (Editing.remove limit k id) (v.step (.remove k id)) := by
  rw [Vectors.step, h.holder?_eq]
  cases hx : s.store.item? k id with
  | none => exact ⟨_, run_remove_of_none h.ordered limit hx⟩
  | some x =>
    obtain ⟨sp, -, -, hc⟩ := commits_remove h.ordered limit hx (h.holds k x.owner)
    exact h.commits hc (link_congr (by rw [map_bare_filter, map_bare_filter, link_map_bare]))

theorem mimics_move (h : s.Mirrors v) (limit : Nat) (k : Kind) (owner : ExampleId) (id target : ItemId)
    (side : Side) :
    s.Mimics (Editing.move limit k owner id target side) (v.step (.move k owner id target side)) := by
  have hl := h.holds k owner
  have hmove := move_eq_reinsert (c := ⟨owner, s.store.version k owner, _⟩) hl.linked id target side
  have hbare := reinsert_map_bare id target side (link none (v.list k owner))
  rw [link_map_bare, ← reinsert_map_bare] at hbare
  rw [Vectors.step]
  dsimp only at hmove
  cases hread : reinsert id target side (link none (v.list k owner)) with
  | none =>
    rw [hread] at hmove hbare
    rw [Option.map_eq_none_iff.1 hbare.symm]
    obtain ⟨e, he⟩ := hmove
    exact run_move_of_error h.ordered limit hl he
  | some order =>
    rw [hread] at hmove hbare
    obtain ⟨rows, hrows, hsame⟩ := Option.map_eq_some_iff.1 hbare.symm
    rw [hrows]
    obtain ⟨hne, ⟨moving, hm, rfl⟩, hperm, hplan⟩ := hmove
    cases hempty : Splice.isEmpty { puts := relinked order } with
    | false => exact h.commits (commits_move h.ordered limit hl hne hm hplan hperm hempty) (link_congr hsame)
    | true =>
      have hnil : relinked order = [] := by simpa [Splice.isEmpty] using hempty
      have horder := (relinked_eq_nil_iff hl.linked hperm).1 hnil
      have hself : link none rows = link none (v.list k owner) := by rw [link_congr hsame, horder, hl.linked.links]
      exact ⟨false, s, run_move_of_same h.ordered limit hl hne hm hplan hempty,
        .set h.sound h.calm (hself ▸ hl) fun _ => h.holds _ _⟩

theorem mimics_modify (h : s.Mirrors v) (limit : Nat) (id : ItemId)
    {edit : Item k → Except EngineError (Item k × Bool)} (hedit : InPlace edit) :
    s.Mimics (Editing.modify limit id edit) (v.step (.modify id edit)) := by
  rw [Vectors.step, h.holder?_eq]
  cases hx : s.store.item? k id with
  | none => exact ⟨_, run_modify_of_none h.ordered limit hx⟩
  | some x =>
    have hl := h.holds k x.owner
    have hfind : (link none (v.list k x.owner)).find? (·.id == id) = some x := get?_of_item? h.ordered hx hl 0
    simp only [Option.map_some, Option.bind_eq_bind, Option.bind_some, hfind]
    cases he : edit x with
    | error e => exact run_modify_of_error h.ordered limit hx hl he
    | ok result =>
      obtain ⟨edited, store⟩ := result
      cases store with
      | false => exact ⟨edited, s, run_modify_of_same h.ordered limit hx he, h⟩
      | true =>
        simp only [Except.toOption, Option.bind_some]
        split
        next hfalse => cases hfalse
        split
        next hself => exact run_modify_of_selfish h.ordered limit hx hl he hself
        next hself =>
          have hc := commits_modify h.ordered limit hedit hx he hself hl
          have hlinked : Linked (replaced (link none (v.list k x.owner)) edited) := by
            obtain ⟨hid, ho, hprev, hnext⟩ := hedit x edited he
            exact (hl.planned_replace (hl.mem_of_item? h.ordered hx rfl) hid ho hprev hnext hself).turns.linked
          refine h.commits hc ?_
          rw [← hlinked.links]
          exact link_congr (by rw [map_bare_replaced, map_bare_replaced, link_map_bare])

/-! ## Runs of edits -/

/-- The session after edits, made one after another. -/
def edited (limit : Nat) (s : Session) (edits : List Edit) : Session :=
  edits.foldl (fun s e => (s.run (e.task limit).program).2) s

theorem mimics_edit (h : s.Mirrors v) (limit : Nat) {e : Edit} (he : v.Admits e) :
    s.Mimics (e.task limit).program (v.step e) := by
  cases e with
  | append item => exact mimics_append h limit he
  | remove k id => exact mimics_remove h limit k id
  | move k owner id target side => exact mimics_move h limit k owner id target side
  | modify id edit => exact mimics_modify h limit id he

/-- **One edit** goes as it goes with the vectors. -/
theorem Mirrors.edit (h : s.Mirrors v) (limit : Nat) {e : Edit} (he : v.Admits e) :
    (s.run (e.task limit).program).2.Mirrors (v.after e) ∧
      ((∃ a, (s.run (e.task limit).program).1 = .ok a) ↔ (v.step e).isSome = true) := by
  have hmimics := mimics_edit h limit he
  rw [Vectors.after]
  cases hstep : v.step e with
  | none =>
    rw [hstep] at hmimics
    obtain ⟨e, hrun⟩ := hmimics
    rw [hrun]
    exact ⟨h, by simp⟩
  | some w =>
    rw [hstep] at hmimics
    obtain ⟨a, t, hrun, ht⟩ := hmimics
    rw [hrun]
    exact ⟨ht, by simp⟩

theorem Mirrors.edits (limit : Nat) : ∀ (edits : List Edit) {s : Session} {v : Vectors}, s.Mirrors v →
    v.AdmitsAll edits → (s.edited limit edits).Mirrors (v.edited edits)
  | [], _, _, h, _ => h
  | _ :: rest, _, _, h, hadmits => (h.edit limit hadmits.1).1.edits limit rest hadmits.2

theorem mirrors_start (registry : Registry) (supply : Nat → BitVec 128) :
    (Session.start registry supply).Mirrors {} where
  sound := Store.Sound.empty
  calm := rfl
  holds k owner := by
    rw [show Vectors.list {} k owner = [] by simp [Vectors.list]]
    exact .empty k owner

/-- **Lists are vectors.** Over an empty store with no row made to fail, let a client append rows of ids that are
not there, remove rows, move them and change them in place, one after another and for any examples. At any time
what is read of each list are the rows of its vector, linked in their order, and the next edit succeeds exactly
if it does with the vectors; on both sides no row is taken that would be its own parent. -/
theorem edits_mirror_vectors (registry : Registry) (supply : Nat → BitVec 128) (limit : Nat) (edits : List Edit)
    (hadmits : Vectors.AdmitsAll {} edits) :
    (∀ (k : Kind) (owner : ExampleId), ∃ version,
      ((start registry supply).edited limit edits).store.chain k owner =
        .ok ⟨owner, version, link none ((Vectors.edited {} edits).list k owner)⟩) ∧
    ∀ e : Edit, (Vectors.edited {} edits).Admits e →
      ((∃ a, (((start registry supply).edited limit edits).run (e.task limit).program).1 = .ok a) ↔
        ((Vectors.edited {} edits).step e).isSome = true) := by
  have h := (mirrors_start registry supply).edits limit edits hadmits
  exact ⟨fun k owner => ⟨_, (h.holds k owner).chain_eq h.sound⟩, fun e he => (h.edit limit he).2⟩

/-- Headers of two examples are appended, one is put first, one goes and comes back, and one is changed. -/
def shuffling : List Edit := [
  .append (k := .header) (Item.fresh ⟨1⟩ ⟨100⟩ (KeyValue.ofPair "a" "1")),
  .append (k := .header) (Item.fresh ⟨2⟩ ⟨100⟩ (KeyValue.ofPair "b" "2")),
  .append (k := .header) (Item.counterpart ⟨4⟩ ⟨101⟩ (Item.fresh ⟨1⟩ ⟨100⟩ (KeyValue.ofPair "a" "1"))),
  .append (k := .header) (Item.fresh ⟨3⟩ ⟨100⟩ (KeyValue.ofPair "c" "3")),
  .move .header ⟨100⟩ ⟨3⟩ ⟨1⟩ .before,
  .remove .header ⟨2⟩,
  .append (k := .header) (Item.fresh ⟨2⟩ ⟨100⟩ (KeyValue.ofPair "d" "4")),
  .modify (k := .header) ⟨1⟩ (Service.applyPatch { value := some "5" } false)]

/-- A header cannot be moved next to one of another example. -/
theorem edits_mirror_vectors_shuffling : (∃ version, ((start {} fun _ => 0).edited 3 shuffling).store.chain
      .header ⟨100⟩ = .ok ⟨⟨100⟩, version, link none ((Vectors.edited {} shuffling).list .header ⟨100⟩)⟩) ∧
    idsOf ((Vectors.edited {} shuffling).list .header ⟨100⟩) = [⟨3⟩, ⟨1⟩, ⟨2⟩] ∧
    ((Vectors.edited {} shuffling).list .header ⟨100⟩).map (·.fields.value) = ["3", "5", "4"] ∧
    ¬ ∃ a, (((start {} fun _ => 0).edited 3 shuffling).run
      (Editing.move 3 .header ⟨100⟩ ⟨1⟩ ⟨4⟩ .after)).1 = .ok a := by
  have h := edits_mirror_vectors {} (fun _ => 0) 3 shuffling
    ⟨rfl, rfl, rfl, rfl, True.intro, True.intro, rfl, (sure_applyPatch _ _).inPlace, True.intro⟩
  refine ⟨h.1 .header ⟨100⟩, by decide, by decide, fun hok => ?_⟩
  exact absurd ((h.2 (.move .header ⟨100⟩ ⟨1⟩ ⟨4⟩ .after) True.intro).1 hok) (by decide)

end Session

end ExampleOverlay
