import ExampleOverlay.Proofs.Crowds.Apart
import ExampleOverlay.Proofs.Races.Updates
import ExampleOverlay.Proofs.Runs.Pristine
import Mathlib.Data.Prod.Basic

/-!
# Updates in one order or the other

An update of a row and the reset of a counterpart both copy fields of the row. Another client updates the row in
between. What the two leave is what they leave one after the other, in one of the two orders, but for two gaps
(`Crowd.reaches_serially_overtaken`). Fields that were read for a counterpart may be old when they are written
there: the commit is under the version of the counterpart's list, which need not have changed. And an update
that puts back what the other one has changed takes that for no change at all, and carries nothing to the
counterparts. The first gap is there by design: cascades may overlap, and a counterpart that is left behind waits for
the next update. The second is a slip: the row that is patched is read anew, but what it is compared with is not.
The reset of a row of a version can always be seen as made first, since updates leave such rows alone.
-/

namespace ExampleOverlay

open Program

variable {k : Kind}

/-! ## What a reset leaves -/

/-- The rows after the row `r` was given back the fields of its parent. -/
def restored (r : ItemId) (fields : Fields k) (rows : ItemId → Option (Item k)) : ItemId → Option (Item k) :=
  Function.update rows r ((rows r).map fun i => { i with fields, overridden := false })

section

variable {version : ExampleId → Bool} {id r : ItemId} {patch : Patch k} {rows : ItemId → Option (Item k)}
  {x i : Item k}

/-- An update leaves rows of versions alone, so that it makes no difference when these are reset. -/
theorem updated_restored (hx : rows id = some x) (hi : rows r = some i) (hne : r ≠ id)
    (hversion : version i.owner = true) (fields : Fields k) :
    updated version id patch (restored r fields rows) = restored r fields (updated version id patch rows) := by
  have hx' : restored r fields rows id = some x := (Function.update_of_ne hne.symm _ _).trans hx
  by_cases hf : Fields.patch x.fields patch = x.fields
  · rw [updated_of_same hx hf, updated_of_same hx' hf]
  rw [updated_of_changed hx hf, updated_of_changed hx' hf]
  funext j
  by_cases hj : j = r
  · subst hj
    simp [restored, carried, Function.update_of_ne hne, hi, Item.follow, hversion]
  · simp only [restored, carried, Function.update_of_ne hj]
    by_cases hj' : j = id
    · subst hj'
      simp only [Function.update_self]
    · simp only [Function.update_of_ne hj', Function.update_of_ne hj]

end

/-- The next request of a program, if there is one, is about the row `id` of `owner`, the rows linked to it or
the list it is in, or it asks for no row at all. -/
def Program.Heeds {α : Type} (k : Kind) (id : ItemId) (owner : ExampleId) : Program α → Prop
  | .ask q _ => q.Heeds k id owner
  | .done _ => True

instance (k : Kind) (id : ItemId) (owner : ExampleId) : DecidablePred (Request.Heeds k id owner)
  | .get .. | .scan .. | .children .. | .commit _ => inferInstanceAs (Decidable (_ ∧ _))
  | .versionOf _ | .mint => inferInstanceAs (Decidable True)

instance {α : Type} (k : Kind) (id : ItemId) (owner : ExampleId) : DecidablePred (@Program.Heeds α k id owner)
  | .ask q _ => inferInstanceAs (Decidable (q.Heeds k id owner))
  | .done _ => inferInstanceAs (Decidable True)

/-- The call writes what the row `id` says to counterparts of it. -/
def Call.Copies (c : Call k) (s : Session) (id : ItemId) : Prop :=
  match c with
  | .update id' _ => id' = id
  | .deltaReset r => ∃ i : Item k, s.store.item? k r = some i ∧ i.parent = some id
  | _ => False

namespace Session

variable {s t u v w : Session} {id r : ItemId} {limit limit' : Nat} {patch : Patch k} {x i : Item k}
  {report : Cascade.Report}

/-! ## Gaps of a reset -/

/-- A row is reset to given fields. -/
theorem run_restore (hs : s.Sane) (hcalm : s.store.failing = ∅) (limit : Nat) (hi : s.store.item? k r = some i)
    (fields : Fields k) : ∃ a t, s.run (Editing.modify limit r (Cascade.restore fields)) = (.ok a, t) ∧
      s.Rewrites t (restored r fields (s.store.bare? k)) := by
  have hrow : s.store.bare? k r = some i.bare := Store.bare?_of_item? hi
  by_cases hsame : i.fields = fields ∧ i.overridden = false
  · have hbare : { i.bare with fields, overridden := false } = i.bare := by rw [← hsame.1, ← hsame.2]; rfl
    obtain ⟨t, hrun, ht⟩ := rewrites_modify hs hcalm limit (sure_restore fields) hi (if_pos hsame)
    refine ⟨_, t, hrun, ?_⟩
    rw [restored, hrow, Option.map_some, hbare, ← hrow, Function.update_eq_self]
    exact ht
  · obtain ⟨t, hrun, ht⟩ := rewrites_modify hs hcalm limit (sure_restore fields) hi (if_neg hsame)
    refine ⟨_, t, hrun, ?_⟩
    rw [restored, hrow]
    exact ht

/-- A reset has not read the parent yet, or it goes on to write what the parent said to the row. -/
inductive Resetting (s : Session) (limit : Nat) (i : Item k) (fields : Fields k) (p : Program (Item k))
    (t : Session) : Prop
  | reading (same : t = s)
      (resume : ∀ (v : Session) (y : Item k), s.Passes v → v.store.item? k i.id = some y → y.parent = i.parent →
        v.run p = v.run (Service.deltaReset limit k i.id))
  | writing (same : t = s) (touches : ∃ q next, p = .ask q next ∧ q.Touches k i.id i.owner)
      (resume : ∀ (v w : Session) (y a : Item k), s.Passes v → v.store.item? k i.id = some y →
        y.owner = i.owner → v.run p = (.ok a, w) →
          v.run (Editing.modify limit i.id (Cascade.restore fields)) = (.ok a, w))

/-- A reset reads the fields of the parent, and then it changes the row. -/
theorem run_reset (hs : s.store.Ordered) (hi : s.store.item? k r = some i) (hp : i.parent = some id)
    (limit : Nat) :
    s.run (Service.deltaReset limit k r) = s.run (do
      let parent ← Program.get k id
      Editing.modify limit r (Cascade.restore parent.fields)) := by
  unfold Service.deltaReset Cascade.reset
  rw [run_bind_ok (run_get_of_some hs hi)]
  simp only [hp, map_eq_pure_bind, bind_assoc, pure_bind]

/-- **A reset that is overtaken.** -/
theorem throughout_reset (hs : s.Sane) (hcalm : s.store.failing = ∅) (limit : Nat)
    (hi : s.store.item? k r = some i) (hp : i.parent = some id) (hx : s.store.item? k id = some x) :
    Throughout (Resetting s limit i x.fields) (Service.deltaReset limit k r) s := by
  obtain rfl : i.id = r := hs.ordered.id_of_item? hi
  refine Throughout.bind (throughout_get (.reading rfl fun v y _ _ _ => rfl)) fun row t hget => ?_
  rw [run_get_of_some hs.ordered hi] at hget
  obtain ⟨rfl, rfl⟩ := hget
  simp only [hp, map_eq_pure_bind, bind_assoc, pure_bind]
  refine Throughout.bind (throughout_get (.reading rfl fun v y hv hy hyp => ?_)) fun parent t hget => ?_
  · exact (run_reset hv.sane.ordered hy (hyp.trans hp) limit).symm
  rw [run_get_of_some hs.ordered hx] at hget
  obtain ⟨rfl, rfl⟩ := hget
  refine (throughout_modify hs hcalm limit (sure_restore x.fields) hi).mono ?_
  rintro p t ⟨rfl, htouches, hmodify⟩
  exact .writing rfl htouches fun v w y a hv hy ho hrun => hmodify v hv ⟨y, hy, ho⟩ a w hrun

/-! ## In one order or the other -/

variable {α β : Type}

/-- Made one after the other, two programs succeed and leave the rows of `w`. -/
def Serially (k : Kind) (s w : Session) (p : Program α) (p' : Program β) : Prop :=
  ∃ a u b v, s.run p = (.ok a, u) ∧ u.run p' = (.ok b, v) ∧ w.store.bare? k = v.store.bare? k

theorem Serially.rows {p : Program α} {p' : Program β} (h : s.Serially k w p p') :
    w.store.bare? k = ((s.run p).2.run p').2.store.bare? k := by
  obtain ⟨a, u, b, v, hp, hp', hrows⟩ := h
  rw [hrows, hp, hp']

/-- An update that overtakes the cascade of another one, and leaves nothing to be carried, is as good as made
when that is done. -/
theorem Carrying.serially (hs : s.Sane) (hcalm : s.store.failing = ∅) (hx : s.store.item? k x.id = some x)
    (hvalid : Patch.fault? patch = none) (hchanged : Fields.patch x.fields patch ≠ x.fields)
    (hu : s.Rewrites u (Function.update (s.store.bare? k) x.id
      (some { x.bare with fields := Fields.patch x.fields patch }))) (ht : u.Carrying t k x.id)
    {patch' : Patch k} (hover : t.run (Service.update limit' x.id patch') = (.ok report, v))
    (hlast : v = t → w = (s.run (Service.update limit x.id patch)).2)
    (hrest : t.Resumes v k x.id → v.store.bare? k x.id ≠ t.store.bare? k x.id → w = v) :
    s.Serially k w (Service.update limit x.id patch) (Service.update limit' x.id patch') := by
  have hxbare := Store.bare?_of_item? hx
  have hst := hu.trans ht.rewrites
  have hto : t.store.bare? k x.id = some { x.bare with fields := Fields.patch x.fields patch } := by
    rw [ht.origin, hu.rows, Function.update_self]
  obtain ⟨a, u', hupdate⟩ := run_update_of_valid hs hcalm limit hx hvalid
  have hsu := rewrites_update hs hupdate
  have huo := bare?_of_run_update hs hxbare hupdate
  obtain ⟨o, ho, -⟩ := Store.bare?_eq_some_iff.1 huo
  obtain ⟨b, v', hupdate'⟩ := run_update_of_valid hsu.sane (hsu.failing.trans hcalm) limit' ho
    (valid_of_run_update hst.sane hover)
  refine ⟨a, u', b, v', hupdate, hupdate', ?_⟩
  by_cases hf : Fields.patch (Fields.patch x.fields patch) patch' = Fields.patch x.fields patch
  · rw [hlast (eq_of_run_update hst.sane hto hf hover), hupdate, eq_of_run_update hsu.sane huo hf hupdate']
  obtain ⟨o', ho', hoo'⟩ := Store.bare?_eq_some_iff.1 hto
  have hf' : Fields.patch o'.fields patch' ≠ o'.fields := by
    rwa [show o'.fields = Fields.patch x.fields patch from congrArg Item.fields hoo']
  have hwv : w = v := by
    refine hrest (resumes_update hst.sane ho' hf' hover) fun hsame => hf ?_
    rw [bare?_of_run_update hst.sane hto hover, hto, Option.some.injEq] at hsame
    exact congrArg Item.fields hsame
  -- where the cascade was overtaken, rows differ from where it ends in what counterparts show alone
  have halike : Alike u.versions x.id (t.store.bare? k) (u'.store.bare? k) := by
    refine ht.alike.trans ?_
    rw [hsu.rows, updated_of_changed hxbare hchanged, hu.rows, ← hu.versions]
    exact (alike_carried _ _).symm
  rw [hwv, (rewrites_update hst.sane hover).rows, (rewrites_update hsu.sane hupdate').rows, hst.versions,
    hsu.versions, ← hu.versions]
  exact halike.updated_eq hto huo hf

/-- **An update that an update overtakes.** If the second one falls between reading the row for a counterpart
and writing that, it must leave the row as it is. If the row was not written yet, and some row follows it, the first
one must not take back what the second one has changed. -/
theorem Sane.serially_update (hs : s.Sane) (hcalm : s.store.failing = ∅) (hnd : s.minted.Nodup)
    (hx : s.store.item? k id = some x) (hapart : s.Apart k id x.owner) {n : Nat} {q : Request}
    {next : q.Answer → Program Cascade.Report} {patch' : Patch k} {a b : Cascade.Report}
    (hgap : s.advance (Service.update limit id patch) n = (.ask q next, t))
    (hover : t.run (Service.update limit' id patch') = (.ok b, v)) (hrest : v.run (.ask q next) = (.ok a, w))
    (hfree : v.store.bare? k id = t.store.bare? k id ∨ q.Heeds k id x.owner)
    (hback : t.store.bare? k id = s.store.bare? k id → Followed s.versions id (s.store.bare? k) →
      Fields.patch (Fields.patch x.fields patch') patch = x.fields → Fields.patch x.fields patch' = x.fields) :
    s.Serially k w (Service.update limit id patch) (Service.update limit' id patch') ∨
      s.Serially k w (Service.update limit' id patch') (Service.update limit id patch) := by
  obtain rfl : x.id = id := hs.ordered.id_of_item? hx
  have halone := run_advance s (Service.update limit x.id patch) n
  rw [hgap] at halone
  cases (throughout_update hs hcalm limit hx patch hapart).advance hgap with
  | reading same resume =>
    -- the first update is as good as begun when the second one was done
    obtain rfl := same.symm
    have hxbare := Store.bare?_of_item? hx
    right
    by_cases hf : Fields.patch x.fields patch' = x.fields
    · obtain rfl := eq_of_run_update hs hxbare hf hover
      exact ⟨b, v, a, w, hover, halone.symm.trans hrest, rfl⟩
    obtain ⟨y, hy, hyx⟩ := Store.bare?_eq_some_iff.1 (bare?_of_run_update hs hxbare hover)
    have hother : Followed v.versions x.id (v.store.bare? k) → Fields.patch y.fields patch ≠ x.fields := by
      have hv := rewrites_update hs hover
      rw [hv.versions, hv.rows, show y.fields = Fields.patch x.fields patch' from congrArg Item.fields hyx]
      have hself : x.bare.parent ≠ some x.id := hs.ordered.selfless (i := x) hx
      exact fun hfollowed he => hf (hback rfl (followed_of_updated hxbare hself hfollowed) he)
    have hpasses := passes_update hs hcalm hnd hover
    have hresumes := resumes_update hs hx hf hover
    obtain ⟨a', w', hrun, hrows⟩ := resume v w y a hpasses hresumes hy hother hrest
    exact ⟨b, v, a', w', hover, hrun, hrows⟩
  | carrying valid u changed written carried resume =>
    refine Or.inl (carried.serially hs hcalm hx valid changed written hover (fun hv => ?_)
      fun hresumes hne => ?_)
    · rw [← halone, ← hv, hrest]
    · exact resume q next rfl (hfree.resolve_left hne) v w a hresumes hrest

/-- A row of a version is reset while its parent is updated: that is as good as made afterwards, since it leaves
the row alone. -/
theorem serially_reset_of_version (hs : s.Sane) (hcalm : s.store.failing = ∅) (hi : s.store.item? k r = some i)
    (hp : i.parent = some id) (hversion : s.versions i.owner = true) (hx : s.store.item? k id = some x)
    (hne : r ≠ id) (hover : s.run (Service.update limit' id patch) = (.ok report, v))
    (hw : w.store.bare? k = restored r x.fields (v.store.bare? k)) :
    s.Serially k w (Service.deltaReset limit k r) (Service.update limit' id patch) := by
  have hxbare := Store.bare?_of_item? hx
  obtain ⟨a, u, hmodify, hu⟩ := run_restore hs hcalm limit hi x.fields
  have hreset := (run_reset hs.ordered hi hp limit).trans
    ((run_bind_ok (run_get_of_some hs.ordered hx) _).trans hmodify)
  have hxu : u.store.bare? k id = some x.bare := by
    rw [hu.rows, restored, Function.update_of_ne hne.symm]
    exact hxbare
  obtain ⟨x', hx', -⟩ := Store.bare?_eq_some_iff.1 hxu
  obtain ⟨b, v', hupdate⟩ := run_update_of_valid hu.sane (hu.failing.trans hcalm) limit' hx'
    (valid_of_run_update hs hover)
  refine ⟨a, u, b, v', hreset, hupdate, ?_⟩
  rw [hw, (rewrites_update hs hover).rows, (rewrites_update hu.sane hupdate).rows, hu.rows, hu.versions]
  exact (updated_restored hxbare (Store.bare?_of_item? hi) hne hversion x.fields).symm

/-- **A reset that an update overtakes.** If the update falls between reading the parent and writing the row, it
must leave the parent as it is, unless the row is of a version. -/
theorem Sane.serially_reset (hs : s.Sane) (hcalm : s.store.failing = ∅) (hnd : s.minted.Nodup)
    (hi : s.store.item? k r = some i) (hp : i.parent = some id)
    (hx : s.store.item? k id = some x) (hapart : s.Apart k id x.owner) {n : Nat} {q : Request}
    {next : q.Answer → Program (Item k)} {b : Cascade.Report} {a : Item k}
    (hgap : s.advance (Service.deltaReset limit k r) n = (.ask q next, t))
    (hover : t.run (Service.update limit' id patch) = (.ok b, v)) (hrest : v.run (.ask q next) = (.ok a, w))
    (hfree : v.store.bare? k id = t.store.bare? k id ∨ q.Heeds k id x.owner ∨ s.versions i.owner = true) :
    s.Serially k w (Service.deltaReset limit k r) (Service.update limit' id patch) ∨
      s.Serially k w (Service.update limit' id patch) (Service.deltaReset limit k r) := by
  obtain rfl : i.id = r := hs.ordered.id_of_item? hi
  have halone := run_advance s (Service.deltaReset limit k i.id) n
  rw [hgap] at halone
  cases (throughout_reset hs hcalm limit hi hp hx).advance hgap with
  | reading same resume =>
    obtain rfl := same.symm
    obtain ⟨y, hy, -, hyp⟩ := exists_of_run_update hs hi hover
    have hpasses := passes_update hs hcalm hnd hover
    exact Or.inr ⟨b, v, a, w, hover, (resume v y hpasses hy hyp).symm.trans hrest, rfl⟩
  | writing same touches resume =>
    obtain rfl := same.symm
    have hxbare := Store.bare?_of_item? hx
    by_cases hf : Fields.patch x.fields patch = x.fields
    · obtain rfl := eq_of_run_update hs hxbare hf hover
      exact Or.inr ⟨b, v, a, w, hover, halone.symm.trans hrest, rfl⟩
    have howner : i.owner ≠ x.owner := hapart (i := i.bare) (Store.bare?_of_item? hi) hp
    have hne : i.id ≠ id := by
      rintro rfl
      exact howner (congrArg Item.owner (Option.some.inj (hi.symm.trans hx)))
    -- the row is about to be changed, so that only the last of the exceptions can apply
    have hversion : s.versions i.owner = true := by
      rcases hfree with hfree | hheeds | hversion
      · rw [bare?_of_run_update hs hxbare hover, hxbare, Option.some.injEq] at hfree
        exact absurd (congrArg Item.fields hfree) hf
      · obtain ⟨q', next', he, htouches⟩ := touches
        injection he with hq
        subst hq
        exact absurd hheeds (htouches.not_heeds hne howner)
      · exact hversion
    have hv := rewrites_update hs hover
    obtain ⟨y, hy, ho, -⟩ := exists_of_run_update hs hi hover
    obtain ⟨a', w', hrestore, hw⟩ := run_restore hv.sane (hv.failing.trans hcalm) limit hy x.fields
    rw [resume v w y a (passes_update hs hcalm hnd hover) hy ho hrest] at hrestore
    cases hrestore
    exact Or.inl (serially_reset_of_version hs hcalm hi hp hversion hx hne hover hw.rows)

/-- The counterparts of a row are of other examples where no row is linked to one of its own. -/
theorem Apart.of_store (h : s.store.Apart k) (hx : s.store.item? k id = some x) : s.Apart k id x.owner := by
  intro j i hi hp
  obtain ⟨y, hy, rfl⟩ := Store.bare?_eq_some_iff.1 hi
  exact (h hy hp hx).symm

/-- A header of an origin and its counterpart in a delta. -/
def paired : Session :=
  ((start {} fun n => BitVec.ofNat 128 (n + 1)).after 3
    (.call (.create (k := .header) ⟨100⟩ (KeyValue.ofPair "Accept" "text/html")))).after 3
    (.call (.deltaList (k := .header) ⟨101⟩ ⟨100⟩))

theorem reaches_paired : (start {} fun n => BitVec.ofNat 128 (n + 1)).Reaches 3
    (fun t e => e.Respects (· = ⟨100⟩) (· = ⟨101⟩) t) paired :=
  (Reaches.refl.step _ rfl).step _ ⟨rfl, rfl⟩

/-- An update of the value of the header. -/
def setValue (value : String) : Program Cascade.Report :=
  Service.update (k := .header) 3 ⟨1⟩ { value := some value }

/-- After `n` requests of `p` another client has run `p'`. -/
def gap (s : Session) (p : Program α) (n : Nat) (p' : Program β) : Session := ((s.advance p n).2.run p').2

/-- From there `p` has gone on. -/
def raced (s : Session) (p : Program α) (n : Nat) (p' : Program β) : Session :=
  ((s.gap p n p').run (s.advance p n).1).2

/-- After `n` requests of `p` another client runs `p'`. Both succeed, and what they lead to is not what they
lead to one after the other. -/
def Tears (k : Kind) (s : Session) (p : Program α) (n : Nat) (p' : Program β) : Prop :=
  ∃ rest t b v a w, s.advance p n = (rest, t) ∧ t.run p' = (.ok b, v) ∧ v.run rest = (.ok a, w) ∧
    ¬ s.Serially k w p p' ∧ ¬ s.Serially k w p' p

theorem tears_of_rows {p : Program α} {n : Nat} {p' : Program β} {a : α} {b : β}
    (hover : ((s.advance p n).2.run p').1 = .ok b) (hrest : ((s.gap p n p').run (s.advance p n).1).1 = .ok a)
    {j : ItemId} (hfirst : (s.raced p n p').store.bare? k j ≠ ((s.run p).2.run p').2.store.bare? k j)
    (hsecond : (s.raced p n p').store.bare? k r ≠ ((s.run p').2.run p).2.store.bare? k r) :
    s.Tears k p n p' :=
  ⟨_, _, b, s.gap p n p', a, s.raced p n p', (Prod.mk.eta).symm, Prod.fst_eq_iff.1 hover,
    Prod.fst_eq_iff.1 hrest, fun h => hfirst (congrFun h.rows j), fun h => hsecond (congrFun h.rows r)⟩

/-- What an update and a reset can leave when the header is updated in between: the counterpart shows what the
header said before, because it is written with a value read of the header when the header is updated, or because
the update puts the value back that it has read of the header. In the first two runs a cascade or a reset copies what
it has read, and the counterpart waits for the next update. The third is a slip: the update changes the row that it
writes, and takes that for no change, since it goes by what it has read of the row before. -/
theorem tears_paired : (start {} fun n => BitVec.ofNat 128 (n + 1)).Reaches 3
    (fun t e => e.Respects (· = ⟨100⟩) (· = ⟨101⟩) t) paired ∧
    paired.Tears .header (Service.deltaReset 3 .header ⟨2⟩) 2 (setValue "text/css") ∧
    paired.Tears .header (setValue "text/plain") 7 (setValue "text/css") ∧
      paired.Tears .header (setValue "text/html") 1 (setValue "text/css") := by
  refine ⟨reaches_paired, ?_, ?_, ?_⟩
  · exact tears_of_rows (j := ⟨2⟩) (r := ⟨2⟩) (b := { updated := [⟨2⟩] })
      (a := { Item.fresh ⟨2⟩ ⟨101⟩ (KeyValue.ofPair "Accept" "text/html") with parent := some ⟨1⟩ })
      (by decide +kernel) (by decide +kernel) (by decide +kernel) (by decide +kernel)
  · exact tears_of_rows (j := ⟨2⟩) (r := ⟨1⟩) (b := { updated := [⟨2⟩] }) (a := { updated := [⟨2⟩] })
      (by decide +kernel) (by decide +kernel) (by decide +kernel) (by decide +kernel)
  · exact tears_of_rows (j := ⟨1⟩) (r := ⟨2⟩) (b := { updated := [⟨2⟩] }) (a := {})
      (by decide +kernel) (by decide +kernel) (by decide +kernel) (by decide +kernel)

end Session

namespace Crowd

/-- **Updates and resets that an update overtakes.** Whatever any number of clients have done over an empty store,
with calls still in progress, a client updates a row or resets a counterpart of it, while no row is made to fail, and
between two requests of that another client updates the row. If both succeed, then the rows are those that the two
leave one after the other, unless
* the second client changes the row when its fields were read for a counterpart of a plain example that is still
  to be written, so that the next request is about the counterpart, or
* some row follows the row, and the first client has not written it and takes back what the second one has changed. -/
theorem reaches_serially_overtaken (registry : Registry) (supply : Nat → BitVec 128) {bound : Nat}
    {c : Crowd (Call.task bound)}
    (hc : Crowd.Reaches (fun _ _ => True) { session := Session.start registry supply } c)
    (hnd : c.session.minted.Nodup) (hcalm : c.session.store.failing = ∅) {k : Kind} {id : ItemId} {x : Item k}
    (hx : c.session.store.item? k id = some x) {call : Call k} (hcopies : call.Copies c.session id)
    {limit limit' n : Nat} {rest : Program call.Answer} {t v w : Session}
    (hgap : c.session.advance (call.program limit) n = (rest, t)) {patch : Patch k} {report : Cascade.Report}
    (hover : t.run (Service.update limit' id patch) = (.ok report, v)) {a : call.Answer}
    (hrest : v.run rest = (.ok a, w))
    (hfree : v.store.bare? k id = t.store.bare? k id ∨ rest.Heeds k id x.owner ∨ ∃ (r : ItemId) (i : Item k),
      call = .deltaReset r ∧ c.session.store.item? k r = some i ∧ c.session.versions i.owner = true)
    (hback : ∀ patch', call = .update id patch' → t.store.bare? k id = c.session.store.bare? k id →
      Followed c.session.versions id (c.session.store.bare? k) →
      Fields.patch (Fields.patch x.fields patch) patch' = x.fields → Fields.patch x.fields patch = x.fields) :
    c.session.Serially k w (call.program limit) (Service.update limit' id patch) ∨
      c.session.Serially k w (Service.update limit' id patch) (call.program limit) := by
  have hs := hc.sane hnd
  have hapart := Session.Apart.of_store (hc.apart hnd k) hx
  cases rest with
  | done result =>
    have hdone := Session.run_advance c.session (call.program limit) n
    rw [hgap] at hdone
    obtain ⟨rfl, rfl⟩ := Prod.mk.inj hrest
    exact Or.inl ⟨a, t, report, v, hdone.symm, hover, rfl⟩
  | ask q next =>
    cases call with
    | update id' patch' =>
      obtain rfl : id' = id := hcopies
      refine hs.serially_update hcalm hnd hx hapart hgap hover hrest ?_ (hback patch' rfl)
      refine hfree.imp_right fun h => h.resolve_right ?_
      rintro ⟨r, i, he, -⟩
      cases he
    | deltaReset r =>
      obtain ⟨i, hi, hp⟩ := hcopies
      refine hs.serially_reset hcalm hnd hi hp hx hapart hgap hover hrest ?_
      refine hfree.imp_right (Or.imp_right ?_)
      rintro ⟨r', i', he, hi', hversion⟩
      injection he with hr
      subst hr
      rw [hi, Option.some.injEq] at hi'
      exact hi' ▸ hversion
    | _ => exact hcopies.elim

/-- A header of an origin and its counterpart in a delta, which was made to fail for a while, when another client is
about to delete the header. -/
def revisited : Crowd (Call.task 2) := [
    .start ⟨.header, .create ⟨100⟩ (KeyValue.ofPair "Accept" "text/html")⟩, .access 0, .access 0, .access 0,
    .start ⟨.header, .deltaList ⟨101⟩ ⟨100⟩⟩, .access 1, .access 1, .access 1, .access 1, .access 1, .access 1,
    .aside (.failWrites ⟨2⟩), .start ⟨.header, .deltaDelete ⟨2⟩⟩, .access 2, .access 2, .access 2,
    .aside .clearFailures, .start ⟨.header, .delete ⟨1⟩⟩, .access 3, .access 3].foldl after
  { session := Session.start {} fun n => BitVec.ofNat 128 (n + 1) }

/-- The header is updated again when the cascade of the first update is about to read it for the counterpart. -/
theorem reaches_serially_overtaken_cascade : ∃ (t v w : Session) (rest : Program Cascade.Report)
    (a b : Cascade.Report), revisited.session.advance (Session.setValue "text/plain") 6 = (rest, t) ∧
    t.run (Session.setValue "text/css") = (.ok b, v) ∧ v.run rest = (.ok a, w) ∧
      v.store.bare? .header ⟨1⟩ ≠ t.store.bare? .header ⟨1⟩ ∧
        (revisited.session.Serially .header w (Session.setValue "text/plain") (Session.setValue "text/css") ∨
          revisited.session.Serially .header w (Session.setValue "text/css") (Session.setValue "text/plain")) := by
  have hx : revisited.session.store.item? .header ⟨1⟩ =
      some (Item.fresh ⟨1⟩ ⟨100⟩ (KeyValue.ofPair "Accept" "text/html")) := by decide +kernel
  have hcalm : revisited.session.store.failing = ∅ := Std.ExtTreeSet.isEmpty_iff.1 (by decide +kernel)
  have hover : (revisited.session.advance (Session.setValue "text/plain") 6).2.run (Session.setValue "text/css") =
      (.ok { updated := [⟨2⟩] },
        revisited.session.gap (Session.setValue "text/plain") 6 (Session.setValue "text/css")) :=
    Prod.fst_eq_iff.1 (by decide +kernel)
  have hrest : (revisited.session.gap (Session.setValue "text/plain") 6 (Session.setValue "text/css")).run
      (revisited.session.advance (Session.setValue "text/plain") 6).1 = (.ok { updated := [⟨2⟩] },
        revisited.session.raced (Session.setValue "text/plain") 6 (Session.setValue "text/css")) :=
    Prod.fst_eq_iff.1 (by decide +kernel)
  refine ⟨_, _, _, _, _, _, (Prod.mk.eta).symm, hover, hrest, by decide +kernel, ?_⟩
  have hcopies : (Call.update (k := .header) ⟨1⟩ { value := some "text/plain" }).Copies revisited.session ⟨1⟩ := rfl
  refine reaches_serially_overtaken {} (fun n => BitVec.ofNat 128 (n + 1)) (c := revisited)
    (.foldl _ .refl fun _ _ _ => True.intro) (by decide +kernel) hcalm hx hcopies (Prod.mk.eta).symm hover hrest
    (Or.inr (Or.inl (by decide +kernel))) ?_
  rintro _ ⟨⟩ _ _ hback
  exact absurd hback (by decide)

end Crowd

end ExampleOverlay
