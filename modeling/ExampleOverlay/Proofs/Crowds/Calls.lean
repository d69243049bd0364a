import ExampleOverlay.Proofs.Crowds.Crowd
import ExampleOverlay.Proofs.Crowds.Edits

/-!
# Calls among other clients

What a call of the service can do to a row that is linked to a parent, whatever the others do meanwhile.
The row is taken away or loses its link only by a call that deletes it or its parent, and once it is
overridden it changes only by a call that names it: appends, removals and moves rewrite it as a neighbour
and leave what it says, and a cascade looks at it again before it writes (`View.Respects`).
-/

namespace ExampleOverlay

open Chain Program

variable {k : Kind}

namespace Call

/-- The call may take the row `r` away or clear its link to `p`. -/
def Unlinks (c : Call k) (k' : Kind) (r p : ItemId) : Prop :=
  match c with
  | .delete id => k' = k ∧ (id = r ∨ id = p)
  | .deltaDelete id => k' = k ∧ id = r
  | _ => False

/-- The call may change what the row `r` says though it is overridden. -/
def Revises (c : Call k) (k' : Kind) (r : ItemId) : Prop :=
  match c with
  | .update id _ | .deltaUpdate id _ | .deltaReset id => k' = k ∧ id = r
  | _ => False

end Call

namespace View

variable {α β : Type} {u v w : View} {c : Call k} {G : View → View → Prop}

/-- The guarantee of a call: linked rows stay, unless the call may unlink them, and overridden ones say what
they said, unless the call may revise them. -/
def Respects (c : Call k) (v w : View) : Prop :=
  ∀ ⦃k' : Kind⦄ ⦃r p : ItemId⦄ ⦃x : Item k'⦄, v.store.item? k' r = some x → x.parent = some p →
    ¬ c.Unlinks k' r p →
    ∃ y : Item k', w.store.item? k' r = some y ∧ y.owner = x.owner ∧ y.parent = some p ∧
      (¬ c.Revises k' r → x.overridden = true → y.overridden = true ∧ y.fields = x.fields)

/-- A row that says what it said is respected. -/
theorem exists_of_bare?_eq {k' : Kind} {r p : ItemId} {x : Item k'} (hx : v.store.item? k' r = some x)
    (hp : x.parent = some p) (h : w.store.bare? k' r = v.store.bare? k' r) :
    ∃ y : Item k', w.store.item? k' r = some y ∧ y.owner = x.owner ∧ y.parent = some p ∧
      (¬ c.Revises k' r → x.overridden = true → y.overridden = true ∧ y.fields = x.fields) := by
  rw [show v.store.bare? k' r = some x.bare by rw [Store.bare?, hx]; rfl] at h
  obtain ⟨y, hy, hyx⟩ := Store.bare?_eq_some_iff.1 h
  obtain ⟨-, ho, hp', hf, hov⟩ := Item.bare_eq_iff.1 hyx
  exact ⟨y, hy, ho, hp'.trans hp, fun _ h => ⟨hov.trans h, hf⟩⟩

theorem respects_of_store_eq (h : w.store = v.store) : Respects c v w := by
  intro k' r p x hx hp _
  exact exists_of_bare?_eq hx hp (by rw [h])

/-- New rows at the end of a list change what no other row says. -/
theorem respects_of_append (hv : v.Good) {owner : ExampleId} {items new : List (Item k)}
    (hl : v.Lands owner items (link none (items ++ new)) w) (hnew : ∀ i ∈ new, ¬ v.used k i.id) :
    Respects c v w := by
  intro k' r p x hx hp _
  refine exists_of_bare?_eq hx hp ?_
  by_cases hk : k' = k
  · subst hk
    rw [hl.turned.turned.bare?_append hl.turned.holds, find?_id_eq_none.2 fun hr => ?_]
    · rfl
    · obtain ⟨i, hi, rfl⟩ := List.mem_map.1 hr
      exact hnew i hi (hv.used (hv.ordered.item?_eq_some_iff.1 hx))
  · exact hl.turned.turned.bare?_of_ne hk r

theorem respects_of_relink {owner : ExampleId} {items order : List (Item k)} (hperm : order.Perm items)
    (hl : v.Lands owner items (link none order) w) : Respects c v w := by
  intro k' r p x hx hp _
  refine exists_of_bare?_eq hx hp ?_
  by_cases hk : k' = k
  · subst hk
    exact hl.turned.turned.bare?_relink hl.turned.holds hperm r
  · exact hl.turned.turned.bare?_of_ne hk r

/-- A row may be taken out if the call may unlink it. -/
theorem respects_of_remove (hv : v.Good) {id : ItemId} {items : List (Item k)} {x : Item k}
    (hx : v.store.item? k id = some x) (hl : v.Lands x.owner items (link none (items.filter (·.id != id))) w)
    (hlost : ∀ p, x.parent = some p → c.Unlinks k id p) : Respects c v w := by
  intro k' r p y hy hp hkeep
  refine exists_of_bare?_eq hy hp ?_
  by_cases hk : k' = k
  · subst hk
    have hid : id ∈ idsOf items :=
      hv.ordered.id_of_item? hx ▸ List.mem_map_of_mem (hl.turned.holds.mem_of_item? hv.ordered hx rfl)
    rw [hl.turned.turned.bare?_remove hl.turned.holds hid, if_neg]
    rintro rfl
    rw [hx, Option.some.injEq] at hy
    exact hkeep (hlost p (hy ▸ hp))
  · exact hl.turned.turned.bare?_of_ne hk r

/-- What a change of a row in its place must leave alone. -/
def Tactful (c : Call k) (id : ItemId) (edit : Item k → Except EngineError (Item k × Bool)) : Prop :=
  ∀ x edited : Item k, edit x = .ok (edited, true) → ∀ p, x.parent = some p → ¬ c.Unlinks k id p →
    edited.parent = some p ∧
      (¬ c.Revises k id → x.overridden = true → edited.overridden = true ∧ edited.fields = x.fields)

theorem respects_of_replace (hv : v.Good) {id : ItemId} {items : List (Item k)} {x edited : Item k}
    {edit : Item k → Except EngineError (Item k × Bool)} (hx : v.store.item? k id = some x)
    (hedit : edit x = .ok (edited, true)) (hplace : Session.InPlace edit) (htact : Tactful c id edit)
    (hl : v.Lands x.owner items (replaced items edited) w) :
    Respects c v w ∧ w.store.item? k id = some edited := by
  have hid := hv.ordered.id_of_item? hx
  have hmem := hl.turned.holds.mem_of_item? hv.ordered hx rfl
  obtain ⟨heid, heo, -, -⟩ := hplace x edited hedit
  have hstored : w.store.item? k id = some edited := by
    have hm : edited ∈ replaced items edited := List.mem_map.2 ⟨x, hmem, by simp [heid]⟩
    rw [← hid, ← heid]
    exact hl.turned.turned.holds.item?_of_mem hm
  refine ⟨fun k' r p y hy hp hkeep => ?_, hstored⟩
  by_cases hk : k' = k
  · subst hk
    by_cases hr : r = id
    · subst hr
      rw [hx, Option.some.injEq] at hy
      subst hy
      obtain ⟨hparent, hsay⟩ := htact x edited hedit p hp hkeep
      exact ⟨edited, hstored, heo, hparent, hsay⟩
    · refine exists_of_bare?_eq hy hp ?_
      rw [hl.turned.turned.bare?_replace hl.turned.holds (heid ▸ List.mem_map_of_mem hmem), if_neg]
      rw [heid, hid]
      exact hr
  · exact exists_of_bare?_eq hy hp (hl.turned.turned.bare?_of_ne hk r)

/-! ## Programs that end with a value, or fail -/

/-- A value, if there is one, has the property `P`. -/
def Ends (P : α → View → Prop) : Except EngineError α → View → Prop
  | .ok a, w => P a w
  | .error _, _ => True

/-- Programs in sequence, with what the others did in between. -/
theorem Keeps.seq {P : α → View → Prop} {R : β → View → Prop} {p : Program α} {f : α → Program β} (hv : v.Good)
    (hp : Keeps G (Ends P) p v) (hf : ∀ a w, v.Grows w → P a w → Keeps G (Ends R) (f a) w) :
    Keeps G (Ends R) (p >>= f) v := by
  refine Keeps.bind (hp.mono hv fun r w hw hr => ?_)
  cases r with
  | ok a => exact hf a w hw hr
  | error e => exact True.intro

theorem ends_get (id : ItemId) : Keeps G (Ends fun i w => w.store.item? k id = some i) (Program.get k id) v :=
  keeps_get id (fun _ _ _ hi => hi) fun _ _ => True.intro

theorem ends_chain (k : Kind) (owner : ExampleId) :
    Keeps G (Ends fun (list : Chain k) w => w.store.Holds owner list.items) (Program.chain k owner) v :=
  keeps_chain owner fun _ _ _ _ h _ => h

theorem ends_isVersion (owner : ExampleId) : Keeps G (Ends fun _ _ => True) (isVersion owner) v :=
  keeps_isVersion owner fun _ _ _ => True.intro

theorem ends_collect {f : α → Program β} : ∀ {v : View} (as : List α), v.Good →
    (∀ a w, v.Grows w → Keeps G (Ends fun _ _ => True) (f a) w) →
      Keeps G (Ends fun _ _ => True) (collect f as) v
  | _, [], _, _ => True.intro
  | _, a :: as, hv, h => (h a _ (.refl hv)).seq hv fun _ _ hw _ =>
      (ends_collect as hw.good fun a u hu => h a u (hw.trans hu)).seq hw.good fun _ _ _ _ => True.intro

theorem ends_versions (hv : v.Good) (rows : List (Item k)) :
    Keeps G (Ends fun _ _ => True) (Cascade.versions rows) v :=
  ends_collect _ hv fun owner _ hw => (ends_isVersion owner).seq hw.good fun _ _ _ _ => True.intro

/-! ## Edits of calls -/

theorem ends_remove (hv : v.Good) (limit : Nat) (id : ItemId)
    (hlost : ∀ u, v.Waits u → ∀ x p, u.store.item? k id = some x → x.parent = some p → c.Unlinks k id p) :
    Keeps (Respects c) (Ends fun removed _ => removed.id = id) (Editing.remove limit k id) v :=
  keeps_remove hv limit id (fun _ _ _ => True.intro) fun u _ _ x _ hu hx hl _ hid =>
    ⟨respects_of_remove hu.good hx hl fun p hp => hlost u hu x p hx hp, hid⟩

theorem ends_move (hv : v.Good) (limit : Nat) (owner : ExampleId) (id target : ItemId) (side : Side) :
    Keeps (Respects c) (Ends fun _ _ => True) (Editing.move limit k owner id target side) v :=
  keeps_move hv limit owner id target side (fun _ _ _ => True.intro) (fun _ _ => True.intro)
    fun _ _ _ _ _ hperm hl _ => ⟨respects_of_relink hperm hl, True.intro⟩

/-- The row that a change gives is the row that is stored. -/
theorem ends_modify (hv : v.Good) (limit : Nat) (id : ItemId)
    {edit : Item k → Except EngineError (Item k × Bool)} (hedit : Session.Sure edit)
    (htact : Tactful c id edit) : Keeps (Respects c)
      (Ends fun a w => ∃ x store, edit x = .ok (a, store) ∧ w.store.item? k id = some (if store then a else x))
      (Editing.modify limit id edit) v := by
  refine keeps_modify hv limit id hedit.inPlace (Or.inr hedit.parent) (fun _ _ _ => True.intro)
    (fun w x edited _ hx he => ⟨x, false, he, hx⟩) fun u w items x edited hu hx he hl _ => ?_
  obtain ⟨hrespects, hstored⟩ := respects_of_replace hu.good hx he hedit.inPlace htact hl
  exact ⟨hrespects, x, true, he, hstored⟩

/-! ## Cascades -/

/-- The row was linked to no other row, and it will never be. -/
def Was (v : View) (k : Kind) (id q : ItemId) : Prop :=
  v.used k id ∧ ∀ x p, v.store.item? k id = some x → x.parent = some p → p = q

theorem Was.grows {id q : ItemId} (h : v.Was k id q) (hr : ¬ v.relinks) (hw : v.Grows w) : w.Was k id q := by
  refine ⟨hw.used h.1, fun y p hy hp => ?_⟩
  obtain ⟨x, hx, -, hpar⟩ := hw.rows h.1 hy
  rcases hpar with hpar | hpar | hpar
  · exact absurd hpar hr
  · exact h.2 x p hx (hpar ▸ hp)
  · rw [hpar] at hp
    cases hp

/-- A change is carried to one counterpart after another. -/
theorem ends_carry {each : Item k → Program Cascade.Outcome} :
    ∀ {v : View} (rows : List (Item k)) (report : Cascade.Report),
    v.Good → (∀ row ∈ rows, ∀ w, v.Grows w → Keeps G (Ends fun _ _ => True) (each row) w) →
      Keeps G (Ends fun _ _ => True) (Cascade.carry each report rows) v
  | _, [], _, _, _ => True.intro
  | v, row :: rest, report, hv, h => by
    have hrest : ∀ report w, v.Grows w → Keeps G (Ends fun _ _ => True) (Cascade.carry each report rest) w :=
      fun report w hw => ends_carry rest report hw.good fun row hrow u hu =>
        h row (List.mem_cons_of_mem _ hrow) u (hw.trans hu)
    refine Keeps.bind (Keeps.outcome ((h row List.mem_cons_self v (.refl hv)).mono hv fun r w hw _ => ?_))
    cases r with
    | ok outcome => exact hrest _ w hw
    | error e =>
      dsimp only
      split
      · exact hrest _ w hw
      · exact hrest _ w hw

/-- An overridden row does not take its parent's fields, which is looked at again before they are stored. -/
theorem tactful_takeFields (c : Call k) (id parent : ItemId) (fields : Fields k) :
    Tactful c id (Cascade.takeFields parent fields) := by
  intro x edited he p hp _
  unfold Cascade.takeFields at he
  split at he
  · cases he
  next hne =>
    cases he
    refine ⟨hp, fun _ hov => absurd hov fun hov => hne (Or.inr (Or.inl hov))⟩

/-- A link is cleared only if it is a link to the row that was deleted. -/
theorem tactful_clearLink {c : Call k} {id parent : ItemId} (h : c.Unlinks k id parent) :
    Tactful c id (Cascade.clearLink parent) := by
  intro x edited he p hp hkeep
  unfold Cascade.clearLink at he
  split at he
  · cases he
  next hparent =>
    rw [not_not, hp, Option.some.injEq] at hparent
    exact absurd (hparent ▸ h) hkeep

/-- A call may change what it may revise, as long as links are kept. -/
theorem tactful_of_revises {c : Call k} {id : ItemId} {edit : Item k → Except EngineError (Item k × Bool)}
    {f : Item k → Item k} (h : c.Revises k id) (hedit : Session.Alters edit f)
    (hparent : ∀ x, (f x).parent = x.parent) : Tactful c id edit := by
  intro x edited he p hp _
  rw [hedit.eq he, hparent]
  exact ⟨hp, fun hr => absurd h hr⟩

theorem ends_updateOne (hv : v.Good) (limit : Nat) (before after : Item k) (version : Bool) (row : Item k) :
    Keeps (Respects c) (Ends fun _ _ => True) (Cascade.updateOne limit before after version row) v := by
  unfold Cascade.updateOne
  split
  · exact True.intro
  have hmodify : ∀ (fields : Fields k) (w : View), w.Good → Keeps (Respects c) (Ends fun _ _ => True) (do
      let row ← Editing.modify limit row.id (Cascade.takeFields before.id fields)
      return if row.parent = some before.id ∧ row.overridden = false then Cascade.Outcome.updated
        else .skipped) w :=
    fun fields w hw =>
      (ends_modify hw limit row.id (Session.sure_takeFields _ _) (tactful_takeFields c _ _ fields)).seq hw
      fun _ _ _ _ => True.intro
  refine Keeps.bind (Keeps.outcome ((ends_get (k := k) before.id).mono hv fun r w hw _ => ?_))
  cases r with
  | ok parent => exact hmodify parent.fields w hw.good
  | error e =>
    dsimp only
    split
    · exact hmodify after.fields w hw.good
    · exact True.intro

theorem ends_cascade_update (hv : v.Good) (limit : Nat) (before after : Item k) :
    Keeps (Respects c) (Ends fun _ _ => True) (Cascade.update limit before after) v := by
  have hchildren : Keeps (Respects c) (Ends fun _ _ => True) (Program.children k before.id) v :=
    keeps_children before.id fun _ _ _ _ => True.intro
  refine hchildren.seq hv fun rows w hw _ => (ends_versions hw.good rows).seq hw.good fun versions u hu _ => ?_
  exact ends_carry rows {} hu.good fun row _ z hz => ends_updateOne hz.good limit before after _ row

/-- A counterpart of a deleted row is removed or loses its link, for which the deletion is to blame. -/
theorem ends_deleteOne (hv : v.Good) (hr : ¬ v.relinks) (limit : Nat) (origin : Item k) (version : Bool)
    {row : Item k} (hwas : v.Was k row.id origin.id) (hlost : c.Unlinks k row.id origin.id) :
    Keeps (Respects c) (Ends fun _ _ => True) (Cascade.deleteOne limit origin version row) v := by
  have hremove : Keeps (Respects c) (Ends fun _ _ => True) (do
      let _ ← Editing.remove limit k row.id
      return Cascade.Outcome.deleted) v := by
    refine (ends_remove hv limit row.id fun u hu x p hx hp => ?_).seq hv fun _ _ _ _ => True.intro
    rw [(hwas.grows hr hu.toGrows).2 x p hx hp]
    exact hlost
  unfold Cascade.deleteOne
  cases Source.resolve row (some origin) version with
  | origin | mixed => exact hremove
  | delta =>
    exact (ends_modify hv limit row.id (Session.sure_clearLink _) (tactful_clearLink hlost)).seq hv
      fun _ _ _ _ => True.intro

theorem ends_cascade_delete (hv : v.Good) (hr : ¬ v.relinks) (limit : Nat) (origin : Item k)
    (hlost : ∀ id, c.Unlinks k id origin.id) :
    Keeps (Respects c) (Ends fun _ _ => True) (Cascade.delete limit origin) v := by
  have hchildren : Keeps (Respects c)
      (Ends fun (rows : List (Item k)) w => ∀ row ∈ rows, w.Was k row.id origin.id)
      (Program.children k origin.id) v := by
    refine keeps_children origin.id fun w rows hw hrows row hrow => ?_
    obtain ⟨hrow, hparent⟩ := hrows row hrow
    refine ⟨hw.good.used (hw.good.ordered.item?_eq_some_iff.1 hrow), fun x p hx hp => ?_⟩
    rw [hrow, Option.some.injEq] at hx
    rw [← hx, hparent, Option.some.injEq] at hp
    exact hp.symm
  refine hchildren.seq hv fun rows w hw hwas => (ends_versions hw.good rows).seq hw.good
    fun versions u hu _ => ?_
  have hr' : ¬ w.relinks := hw.relinks ▸ hr
  refine ends_carry rows {} hu.good fun row hrow z hz => ?_
  exact ends_deleteOne hz.good (by rw [hz.relinks, hu.relinks]; exact hr') limit origin _
    ((hwas row hrow).grows hr' (hu.trans hz)) (hlost row.id)

/-! ## New rows -/

/-- **Appending** a row under an id that is minted for it. -/
theorem keeps_appendNew (hv : v.Good) (limit : Nat) (row : ItemId → Item k) (hid : ∀ id, (row id).id = id)
    (hG : ∀ u : View, G u (u.asked .mint))
    (hok : ∀ (u w : View) (id : ItemId) (items : List (Item k)), v.Grows u → ¬ u.used k id →
      u.Lands (row id).owner items (link none (items ++ [row id])) w → G u w) :
    Keeps G (Ends fun _ _ => True) (Service.appendNew limit row) v := by
  have hmint : Keeps G (Ends fun id w => id ∈ w.mine ∧ ∀ k, ¬ w.used k id) mint v :=
    keeps_mint (fun _ _ => hG _) fun _ _ _ _ hm hn _ => ⟨hm, hn⟩
  refine hmint.seq hv fun id w hw hnew => ?_
  have happend : Keeps G (Ends fun _ _ => True) (Editing.append limit (row id)) w := by
    refine keeps_append hw.good limit (by rw [hid]; exact hnew.1) (by rw [hid]; exact hnew.2 k)
      (fun _ _ _ => True.intro) fun u z items stored hu hl _ _ => ⟨?_, True.intro⟩
    exact hok u z id items (hw.trans hu.toGrows) (hu.unused hnew.1 (hnew.2 k)) hl
  exact happend.seq hw.good fun _ _ _ _ => True.intro

/-- A row of a new id is appended. -/
theorem ends_appendNew (hv : v.Good) (limit : Nat) (row : ItemId → Item k) (hid : ∀ id, (row id).id = id) :
    Keeps (Respects c) (Ends fun _ _ => True) (Service.appendNew limit row) v :=
  keeps_appendNew hv limit row hid (fun _ => respects_of_store_eq rfl) fun _ _ id _ hu hn hl =>
    respects_of_append hu.good hl fun i hi => by rw [List.mem_singleton.1 hi, hid]; exact hn

/-- What is known of counterparts that were made but not stored yet. -/
structure Made (v : View) (delta : ExampleId) (rows new : List (Item k)) (w : View) : Prop where
  counterparts : List.Forall₂ (fun row i => i = Item.counterpart i.id delta row) rows new
  nodup : (idsOf new).Nodup
  mine : ∀ i ∈ new, i.id ∈ w.mine ∧ i.id ∉ v.mine
  unused : ∀ i ∈ new, ¬ w.used k i.id

/-- A counterpart is made for each row, of ids of the client's own. -/
theorem keeps_counterparts (delta : ExampleId) (hG : ∀ u : View, G u (u.asked .mint)) :
    ∀ {v : View} (rows : List (Item k))
    {Q : Except EngineError (List (Item k)) → View → Prop}, v.Good →
    (∀ w new, v.Waits w → Made v delta rows new w → Access.lastScan? w.trace = Access.lastScan? v.trace →
      Q (.ok new) w) →
    Keeps G Q (collect (fun row => return Item.counterpart (← mint) delta row) rows) v
  | v, [], Q, hv, hok => hok v [] (.refl hv) ⟨.nil, List.nodup_nil, by simp, by simp⟩ rfl
  | v, row :: rest, Q, hv, hok => by
    refine Keeps.bind (Keeps.bind (keeps_mint (fun _ _ => hG _) fun w id hw hnew hmine hunused hscan => ?_))
    refine Keeps.bind (keeps_counterparts delta hG rest hw.good fun u new hu hmade hscan' => ?_)
    refine hok u (Item.counterpart id delta row :: new) (hw.trans hu) ⟨.cons rfl hmade.counterparts, ?_, ?_, ?_⟩
      (hscan'.trans hscan)
    · refine List.nodup_cons.2 ⟨fun hid => ?_, hmade.nodup⟩
      obtain ⟨i, hi, hid⟩ := List.mem_map.1 hid
      exact (hmade.mine i hi).2 (hid ▸ hmine)
    · intro i hi
      rcases List.mem_cons.1 hi with rfl | hi
      · exact ⟨hu.mine hmine, hnew⟩
      · exact ⟨(hmade.mine i hi).1, fun hid => (hmade.mine i hi).2 (hw.mine hid)⟩
    · intro i hi
      rcases List.mem_cons.1 hi with rfl | hi
      · exact hu.unused hmine (hunused k)
      · exact hmade.unused i hi

/-- **Materializing** counterparts for the rows of an origin that were there before. The one commit adds them
to the list that they were found missing in. -/
theorem keeps_materialize (hv : v.Good) (limit : Nat) {origin : Chain k}
    (horigin : ∀ i ∈ origin.items, v.used k i.id) (delta : ExampleId)
    {Q : Except EngineError (Chain k) → View → Prop} (hG : ∀ u : View, G u (u.asked .mint))
    (herr : ∀ w e, v.Waits w → Q (.error e) w)
    (hcovered : ∀ (w : View) version items, v.Waits w → w.store.Holds delta items →
      Overlay.uncovered origin ⟨delta, version, items⟩ = [] → Q (.ok ⟨delta, version, items⟩) w)
    (hok : ∀ (u w : View) version items new, v.Waits u → u.Lands delta items (link none (items ++ new)) w →
      List.Forall₂ (fun row i => i = Item.counterpart i.id delta row)
        (Overlay.uncovered origin ⟨delta, version, items⟩) new → (∀ i ∈ new, ¬ u.used k i.id) →
      G u w ∧ ∀ (x : View) version items, w.Waits x → x.store.Holds delta items →
        Q (.ok ⟨delta, version, items⟩) x) :
    Keeps G Q (Service.materialize limit origin delta) v := by
  refine Keeps.retry hv .materialize limit (fun w hw => ?_) fun w n hw => herr w _ hw
  refine Keeps.bind (keeps_chain delta fun x version items hx hh hknows => ?_)
  have hvx := hw.trans hx
  dsimp only
  generalize hmissing : Overlay.uncovered origin ⟨delta, version, items⟩ = missing
  by_cases hempty : missing = []
  · subst hempty
    exact hcovered x version items hvx hh hmissing
  rw [if_neg (by simpa using hempty)]
  refine Keeps.bind (keeps_counterparts delta hG missing hx.good fun y new hy hmade hscan => ?_)
  have hknows' := hknows.grows hx.good hy.toGrows hscan
  -- the rows of the origin were there before the ids were minted
  have hself : ∀ i ∈ new, i.owner = delta ∧ i.parent ≠ some i.id := by
    intro i hi
    obtain ⟨row, hrow, hc⟩ := Session.exists_of_forall₂ hmade.counterparts hi
    refine ⟨by rw [hc]; rfl, fun hp => ?_⟩
    have hparent : i.parent = some row.id := by rw [hc]; rfl
    rw [hparent, Option.some.injEq] at hp
    rw [← hmissing] at hrow
    exact hmade.unused i hi (hp ▸ hy.used (hvx.used (horigin row (List.mem_filter.1 hrow).1)))
  refine Keeps.bind ?_
  show Keeps _ _ (commit (Store.draftOf (Chain.appendAll ⟨delta, version, items⟩ new) delta version
    (Chain.appendAll ⟨delta, version, items⟩ new).deletes)) y
  have hne : new ≠ [] := by
    rintro rfl
    exact hempty (List.forall₂_nil_right_iff.1 hmade.counterparts)
  have hplanned : ∀ u, y.Later u → u.store.Holds delta items → u.store.Planned delta items
      (Chain.appendAll ⟨delta, version, items⟩ new) (link none (items ++ new)) := by
    intro u hu hholds
    refine hholds.planned_append hu.good.ordered.sound version hne hmade.nodup
      fun i hi => ⟨(hself i hi).1, (hself i hi).2, ?_⟩
    cases hr : u.store.get? k i.id with
    | none => rfl
    | some r => exact absurd (hu.good.used hr) (hu.unused (hmade.mine i hi).1 (hmade.unused i hi))
  generalize Chain.appendAll ⟨delta, version, items⟩ new = sp at hplanned
  refine keeps_commit hy.good hknows' (link none (items ++ new))
    (commit (Store.draftOf sp delta version sp.deletes))
    (fun u hu hversion hholds => ?_) (comesFrom_of_mem_link fun j hj => ?_)
    (fun u z hu hl _ => ?_) fun z e hz => .of_error herr ((hvx.trans hy).trans hz) e
  · have hp := hplanned u hu hholds
    subst hversion
    exact ⟨(), Session.commits_of_planned hu.good.ordered hp _ hp.turns.deleted⟩
  · refine (List.mem_append.1 hj).imp (fun h => h) fun h => ?_
    exact ⟨(hmade.mine j h).1, hmade.unused j h⟩
  · obtain ⟨hchange, hend⟩ := hok u z version items new ((hvx.trans hy).trans hu.waits) hl
      (hmissing ▸ hmade.counterparts) fun i hi => hu.unused (hmade.mine i hi).1 (hmade.unused i hi)
    exact ⟨hchange, keeps_chain delta fun x version items hx hh _ => hend x version items hx hh⟩

theorem ends_materialize (hv : v.Good) (limit : Nat) {origin : Chain k}
    (horigin : ∀ i ∈ origin.items, v.used k i.id) (delta : ExampleId) :
    Keeps (Respects c) (Ends fun _ _ => True) (Service.materialize limit origin delta) v :=
  keeps_materialize hv limit horigin delta (fun _ => respects_of_store_eq rfl) (fun _ _ _ => True.intro)
    (fun _ _ _ _ _ _ => True.intro) fun _ _ _ _ _ hu hl _ hnew =>
      ⟨respects_of_append hu.good hl hnew, fun _ _ _ _ _ => True.intro⟩

/-! ## Calls -/

/-- What holds of the result of a call: a row that was customized is stored as it is given, and overridden if
it is linked. -/
def Results : (c : Call k) → c.Answer → View → Prop
  | .deltaUpdate id _, a, w => w.store.item? k id = some a ∧ (a.parent.isSome → a.overridden = true)
  | _, _, _ => True

theorem ends_require (fault : Option FieldError) :
    Keeps G (Ends fun _ _ => True) (Service.require fault) v := by
  cases fault <;> exact True.intro

theorem ends_requireOther (delta origin : ExampleId) :
    Keeps G (Ends fun _ _ => delta ≠ origin) (Service.requireOther delta origin) v := by
  unfold Service.requireOther
  split
  · exact True.intro
  · assumption

/-- A parent that passes is a row of another example. -/
theorem ends_requireParent (hv : v.Good) (k : Kind) (delta : ExampleId) (origin : Option ExampleId)
    (parent : ItemId) :
    Keeps G (Ends fun _ w => ∃ x : Item k, w.store.item? k parent = some x ∧ x.owner ≠ delta)
      (Service.requireParent k delta origin parent) v := by
  cases origin with
  | none => exact True.intro
  | some origin =>
    refine (ends_requireOther delta origin).seq hv fun _ w hw hne => (ends_get parent).seq hw.good
      fun row u _ hrow => ?_
    split
    next ho => exact ⟨row, hrow, ho ▸ Ne.symm hne⟩
    · exact True.intro

theorem ends_ofExcept (r : Except EngineError α) : Keeps G (Ends fun _ _ => True) (Program.ofExcept r) v := by
  cases r <;> exact True.intro

/-- A row that is patched is stored as it is given, and overridden if the patch customizes and it is linked. -/
theorem ends_patchRow (hv : v.Good) (limit : Nat) (id : ItemId) (patch : Patch k) (customize : Bool)
    (hrevises : c.Revises k id) : Keeps (Respects c)
      (Ends fun (a : Item k) w => w.store.item? k id = some a ∧
        (customize = true → a.parent.isSome → a.overridden = true))
      (Service.patchRow limit id patch customize) v := by
  have htact := tactful_of_revises hrevises (Session.alters_applyPatch patch customize) fun _ => rfl
  refine (ends_require _).seq hv fun _ w hw _ => ?_
  refine (ends_modify hw.good limit id (Session.sure_applyPatch patch customize) htact).mono hw.good
    fun r u _ hr => ?_
  cases r with
  | error e => exact True.intro
  | ok a =>
    obtain ⟨x, store, he, hx⟩ := hr
    unfold Service.applyPatch at he
    dsimp only at he
    split at he
    next hsame =>
      cases he
      refine ⟨hx, fun hc hp => ?_⟩
      simpa [hc, Item.isLinked, hp] using hsame.2
    · cases he
      refine ⟨hx, fun hc hp => ?_⟩
      have hlinked : x.parent.isSome = true := hp
      simp [hc, Item.isLinked, hlinked]

/-- **Every call respects linked rows**, whatever the others do. -/
theorem ends_call (hv : v.Good) (hr : ¬ v.relinks) (limit : Nat) (c : Call k) :
    Keeps (Respects c) (Ends (Results c)) (c.program limit) v := by
  cases c with
  | create owner fields =>
    refine (ends_require _).seq hv fun _ w hw _ => ?_
    exact ends_appendNew hw.good limit (fun id => Item.fresh id owner fields) fun _ => rfl
  | update id patch =>
    have hrevises : (Call.update id patch).Revises k id := ⟨rfl, rfl⟩
    refine (ends_get id).seq hv fun before w hw hbefore => ?_
    refine (ends_patchRow hw.good limit id patch false hrevises).seq hw.good fun after u hu _ => ?_
    split
    · exact True.intro
    · exact (ends_cascade_update hu.good limit before after).seq hu.good fun report _ _ _ => ends_ofExcept _
  | delete id =>
    have hself : ∀ p, (Call.delete (k := k) id).Unlinks k id p := fun _ => ⟨rfl, Or.inl rfl⟩
    have hchild : ∀ r, (Call.delete (k := k) id).Unlinks k r id := fun _ => ⟨rfl, Or.inr rfl⟩
    refine (ends_remove hv limit id fun _ _ _ p _ _ => hself p).seq hv fun removed w hw hid => ?_
    exact (ends_cascade_delete hw.good (by rw [hw.relinks]; exact hr) limit removed
      (by rw [hid]; exact hchild)).seq
      hw.good fun report _ _ _ => ends_ofExcept _
  | move owner id target side => exact ends_move hv limit owner id target side
  | deltaList delta origin =>
    refine (ends_requireOther delta origin).seq hv fun _ w hw _ => ?_
    refine (ends_chain k origin).seq hw.good fun list u hu hlist => ?_
    refine (ends_materialize hu.good limit (fun i hi => hu.good.used (hlist.get?_of_mem hi)) delta).seq hu.good
      fun _ z hz _ => ?_
    exact (ends_isVersion delta).seq hz.good fun _ _ _ _ => True.intro
  | deltaCreate delta origin parent fields =>
    refine (ends_require _).seq hv fun _ w hw _ => ?_
    cases parent with
    | none => exact ends_appendNew hw.good limit (fun id => Item.fresh id delta fields) fun _ => rfl
    | some parent =>
      refine (ends_requireParent hw.good k delta origin parent).seq hw.good fun _ u hu _ => ?_
      exact ends_appendNew hu.good limit
        (fun id => { Item.fresh id delta fields with parent := some parent, overridden := true }) fun _ => rfl
  | deltaUpdate id patch =>
    have hrevises : (Call.deltaUpdate id patch).Revises k id := ⟨rfl, rfl⟩
    refine (ends_patchRow hv limit id patch true hrevises).mono hv fun r w _ h => ?_
    cases r with
    | ok a => exact ⟨h.1, h.2 rfl⟩
    | error e => exact True.intro
  | deltaDelete id =>
    have hself : ∀ p, (Call.deltaDelete (k := k) id).Unlinks k id p := fun _ => ⟨rfl, rfl⟩
    exact (ends_remove hv limit id fun _ _ _ p _ _ => hself p).seq hv fun _ _ _ _ => True.intro
  | deltaReset id =>
    have hrevises : (Call.deltaReset (k := k) id).Revises k id := ⟨rfl, rfl⟩
    have hrestore : ∀ (fields : Fields k) (w : View), w.Good →
        Keeps (Respects (.deltaReset (k := k) id)) (Ends fun _ _ => True)
          (Editing.modify limit id (Cascade.restore fields)) w := by
      intro fields w hw
      have htact := tactful_of_revises hrevises (Session.alters_restore fields) fun _ => rfl
      refine (ends_modify hw limit id (Session.sure_restore fields) htact).mono hw fun r _ _ _ => ?_
      cases r <;> exact True.intro
    refine (ends_get id).seq hv fun row w hw _ => ?_
    cases row.parent with
    | none => exact hrestore _ w hw.good
    | some parent =>
      have hfields : Keeps (Respects (.deltaReset (k := k) id)) (Ends fun _ _ => True)
          ((·.fields) <$> Program.get k parent) w :=
        (ends_get parent).seq hw.good fun _ _ _ _ => True.intro
      exact hfields.seq hw.good fun fields u hu _ => hrestore fields u hu.good
  | deltaMove delta id target side => exact ends_move hv limit delta id target side

end View

end ExampleOverlay
