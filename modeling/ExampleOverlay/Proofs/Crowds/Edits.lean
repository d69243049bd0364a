import ExampleOverlay.Proofs.Crowds.Keeps

/-!
# The edits among other clients

Each of the four edits of a list keeps to a guarantee if the guarantee holds of its one commit. Where that
commit goes through, the edit does what it does when it is run there by itself, whatever it read before
and however often it was planned; and it ends without a value unless that commit or its last look at the
list told it to.
-/

namespace ExampleOverlay.View

open Chain Program

variable {v : View} {k : Kind} {G : View → View → Prop}

/-- An attempt that fails has stored nothing. -/
theorem Attempt.of_error {α : Type} {Q : Except EngineError α → View → Prop}
    (herr : ∀ w e, v.Waits w → Q (.error e) w) {w : View} (hw : v.Waits w) (e : EngineError) :
    v.Attempt Q (.error e) w := ⟨hw, fun _ => herr w e hw⟩

/-- No batch goes through that stores a row as its own parent. -/
theorem fault?_of_selfish {s : Store} {sp : Splice k} {i : Item k} (hi : i ∈ sp.puts)
    (hself : i.parent = some i.id) (owner : ExampleId) (version : Nat) (present : List ItemId) :
    s.fault? (Store.draftOf sp owner version present).toBatch ≠ none := by
  intro hf
  rw [Store.fault?_eq, Option.or_eq_none_iff] at hf
  have hw : Write.put (Record.ofItem i) ∈ (Store.draftOf sp owner version present).toBatch.writes :=
    List.mem_append_left _ (List.mem_map.2 ⟨i, hi, rfl⟩)
  obtain ⟨-, hnames, -⟩ := Table.writeFault?_put_eq_none_iff.1 ((Table.fault?_eq_none_iff.1 hf.2).2 _ hw)
  simp [Table.namesItself, Record.ofItem, hself] at hnames

/-- Rows put into a new order are rows of the list, or new rows of the client. -/
theorem comesFrom_of_mem_link {order items : List (Item k)}
    (horder : ∀ j ∈ order, j ∈ items ∨ j.id ∈ v.mine ∧ ¬ v.used k j.id) :
    ∀ i ∈ link none order, v.ComesFrom items i := by
  intro i hi
  obtain ⟨j, hj, hji⟩ := List.mem_map.1 (bare_mem_link hi)
  obtain ⟨hid, ho, hp, -, -⟩ := Item.bare_eq_iff.1 hji
  rcases horder j hj with hx | hnew
  · exact Or.inl ⟨j, hx, hid, ho.symm, Or.inr (Or.inl hp.symm)⟩
  · rw [hid] at hnew
    exact Or.inr hnew

/-- **Appending** a row of the client's own. -/
theorem keeps_append (hv : v.Good) (limit : Nat) {item : Item k} (hm : item.id ∈ v.mine)
    (hn : ¬ v.used k item.id) {Q : Except EngineError (Item k) → View → Prop}
    (herr : ∀ w e, v.Waits w → Q (.error e) w)
    (hok : ∀ u w items stored, v.Waits u → u.Lands item.owner items (link none (items ++ [item])) w →
      (∃ a, u.session.run (Editing.append limit item) = (.ok a, w.session)) → stored.bare = item.bare →
      G u w ∧ Q (.ok stored) w) : Keeps G Q (Editing.append limit item) v := by
  refine Keeps.retry hv .append limit (fun w hw => ?_) fun w n hw => herr w _ hw
  refine Keeps.bind (keeps_chain item.owner fun x version items hx hh hknows => Keeps.bind ?_)
  have hvx := hw.trans hx
  have hmx : item.id ∈ x.mine ∧ ¬ x.used k item.id := ⟨hvx.mine hm, hvx.unused hm hn⟩
  have hnew : item.id ∉ idsOf items := by
    intro hid
    obtain ⟨i, hi, hid⟩ := List.mem_map.1 hid
    exact hmx.2 (hid ▸ hx.good.used (hh.get?_of_mem hi))
  have hnd : (idsOf (items ++ [item])).Nodup :=
    nodup_idsOf_append hh.linked.nodup (List.nodup_singleton _) (by simpa using hnew)
  show Keeps G _ (commit (Store.draftOf (Chain.appendAll ⟨item.owner, version, items⟩ [item]) item.owner version
    [])) x
  by_cases hself : item.parent = some item.id
  · refine keeps_commit_of_fault? (fun y e hy => .of_error herr (hvx.trans hy) e) fun u _ hf => ?_
    have hput : { item with prev := (items.getLast?).map (·.id), next := none } ∈
        (Chain.appendAll ⟨item.owner, version, items⟩ [item]).puts := by
      simp [Chain.appendAll, Chain.tail?, link]
    exact absurd hf (fault?_of_selfish hput hself _ _ _)
  refine keeps_commit hx.good hknows (link none (items ++ [item])) (Editing.append limit item)
    (fun u hu hversion hholds => ?_) (comesFrom_of_mem_link fun j hj => ?_) (fun u y hu hl hrun => ?_)
    fun y e hy => .of_error herr (hvx.trans hy) e
  · have hnone : u.store.get? k item.id = none := by
      cases hr : u.store.get? k item.id with
      | none => rfl
      | some r => exact absurd (hu.good.used hr) (hu.unused hmx.1 hmx.2)
    obtain ⟨a, -, hcommits⟩ := Session.commits_append hu.good.ordered limit hholds hself hnone
    subst hversion
    exact ⟨a, hcommits⟩
  · refine (List.mem_append.1 hj).imp (fun h => h) fun h => ?_
    rw [List.mem_singleton.1 h]
    exact hmx
  · exact hok u y items _ (hvx.trans hu.waits) hl hrun (Session.bare_appended hh.linked hnd)

variable {w : View}

/-- **Removing** a row. What is given is the row as it was when it was read first. -/
theorem keeps_remove (hv : v.Good) (limit : Nat) (id : ItemId)
    {Q : Except EngineError (Item k) → View → Prop} (herr : ∀ w e, v.Waits w → Q (.error e) w)
    (hok : ∀ (u w : View) (items : List (Item k)) (x removed : Item k), v.Waits u →
      u.store.item? k id = some x →
      u.Lands x.owner items (link none (items.filter (·.id != id))) w →
      (∃ a, u.session.run (Editing.remove limit k id) = (.ok a, w.session)) → removed.id = id →
      G u w ∧ Q (.ok removed) w) : Keeps G Q (Editing.remove limit k id) v := by
  refine Keeps.retry hv .remove limit (fun w hw => ?_) fun w n hw => herr w _ hw
  refine Keeps.bind (keeps_get id (fun w' item hw' hitem => ?_) fun w' hw' => .of_error herr (hw.trans hw') _)
  refine Keeps.bind (keeps_chain item.owner fun x version items hx hh hknows => ?_)
  have hvx := (hw.trans hw').trans hx
  dsimp only
  cases hsp : Chain.remove? ⟨item.owner, version, items⟩ id with
  | none => exact .of_error herr hvx _
  | some sp =>
    have hid : id ∈ idsOf items := mem_of_remove?_eq_some hsp
    obtain ⟨i, hi, hiid⟩ := List.mem_map.1 hid
    have hio : i.owner = item.owner := hh.owned i hi
    have hitem' : ∀ u : View, u.store.Holds item.owner items → u.store.item? k id = some i := fun u h =>
      hiid ▸ h.item?_of_mem hi
    refine Keeps.bind
      (keeps_commit hx.good hknows (link none (items.filter (·.id != id))) (Editing.remove limit k id)
      (fun u hu hversion hholds => ?_) (comesFrom_of_mem_link fun j hj => Or.inl (List.mem_filter.1 hj).1)
      (fun u y hu hl hrun => ?_) fun y e hy => .of_error herr (hvx.trans hy) e)
    · obtain ⟨sp', hsp', hdel, hcommits⟩ :=
        Session.commits_remove hu.good.ordered limit (hitem' u hholds) (hio ▸ hholds)
      obtain rfl : sp' = sp := Option.some.inj (hsp'.symm.trans hsp)
      rw [hio] at hcommits
      exact ⟨i, hdel ▸ hcommits⟩
    · have hholds : u.store.Holds item.owner items := hl.turned.holds
      rw [← hio] at hl
      exact hok u y items i item (hvx.trans hu.waits) (hitem' u hholds) hl hrun
        (hw'.good.ordered.id_of_item? hitem)

/-- **Moving** a row. -/
theorem keeps_move (hv : v.Good) (limit : Nat) (owner : ExampleId) (id target : ItemId) (side : Side)
    {Q : Except EngineError Bool → View → Prop} (herr : ∀ w e, v.Waits w → Q (.error e) w)
    (hstay : ∀ w, v.Waits w → Q (.ok false) w)
    (hok : ∀ (u w : View) (items order : List (Item k)), v.Waits u → order.Perm items →
      u.Lands owner items (link none order) w →
      (∃ a, u.session.run (Editing.move limit k owner id target side) = (.ok a, w.session)) →
      G u w ∧ Q (.ok true) w) : Keeps G Q (Editing.move limit k owner id target side) v := by
  by_cases hne : id = target
  · rw [Editing.move, if_pos hne]
    exact herr v _ (.refl hv)
  have hmove : Editing.move limit k owner id target side = retry .move limit _ := if_neg hne
  rw [hmove]
  refine Keeps.retry hv .move limit (fun w hw => ?_) fun w n hw => herr w _ hw
  refine Keeps.bind (keeps_chain owner fun x version items hx hh hknows => ?_)
  have hvx := hw.trans hx
  dsimp only
  rw [Session.contains_eq]
  rcases move_eq (c := ⟨owner, version, items⟩) side hne with
    ⟨moving, hm, rfl, ht, hto, heq⟩ | ⟨hid, -⟩ | ⟨hid, -, heq⟩
  · have hperm := moved_perm (c := ⟨owner, version, items⟩) hh.linked hm hto side
    generalize Chain.moved ⟨owner, version, items⟩ moving target side = order at heq hperm
    have hin : decide (moving.id ∈ idsOf items) = true := decide_eq_true (List.mem_map_of_mem hm)
    simp only [hin, heq, Program.ofExcept, bind_done_ok]
    by_cases hempty : Splice.isEmpty { puts := Chain.relinked order } = true
    · simp only [hempty]
      exact hstay x hvx
    · simp only [hempty]
      refine Keeps.bind ?_
      show Keeps G _ (commit (Store.draftOf { puts := Chain.relinked order } owner version [])) x
      refine keeps_commit hx.good hknows (link none order) (Editing.move limit k owner moving.id target side)
        (fun u hu hversion hholds => ?_) (comesFrom_of_mem_link fun j hj => Or.inl (hperm.subset hj))
        (fun u y hu hl hrun => ?_) fun y e hy => .of_error herr (hvx.trans hy) e
      · subst hversion
        exact ⟨true, Session.commits_move hu.good.ordered limit hholds hne hm heq hperm (by simpa using hempty)⟩
      · exact hok u y items order (hvx.trans hu.waits) hperm hl hrun
  · have hout : decide (id ∈ idsOf items) = false := decide_eq_false hid
    simp only [hout]
    exact Keeps.bind (keeps_get id (fun y _ hy _ => .of_error herr (hvx.trans hy) _) fun y hy =>
      .of_error herr (hvx.trans hy) _)
  · have hin : decide (id ∈ idsOf items) = true := decide_eq_true hid
    simp only [hin, heq, Program.ofExcept]
    exact .of_error herr hvx _

/-- **Changing** a row in its place. What is given is the row as it is stored. -/
theorem keeps_modify (hv : v.Good) (limit : Nat) (id : ItemId)
    {edit : Item k → Except EngineError (Item k × Bool)} (hedit : Session.InPlace edit)
    (hlink : v.relinks ∨ ∀ x edited : Item k, edit x = .ok (edited, true) →
      edited.parent = x.parent ∨ edited.parent = none) {Q : Except EngineError (Item k) → View → Prop}
    (herr : ∀ w e, v.Waits w → Q (.error e) w)
    (hsame : ∀ (w : View) (x edited : Item k), v.Waits w → w.store.item? k id = some x →
      edit x = .ok (edited, false) → Q (.ok edited) w)
    (hok : ∀ (u w : View) (items : List (Item k)) (x edited : Item k), v.Waits u → u.store.item? k id = some x →
      edit x = .ok (edited, true) → u.Lands x.owner items (replaced items edited) w →
      (∃ a, u.session.run (Editing.modify limit id edit) = (.ok a, w.session)) →
      G u w ∧ Q (.ok edited) w) : Keeps G Q (Editing.modify limit id edit) v := by
  refine Keeps.retry hv .modify limit (fun w hw => ?_) fun w n hw => herr w _ hw
  refine Keeps.bind (keeps_get id (fun w' current hw' hcurrent => ?_)
    fun w' hw' => .of_error herr (hw.trans hw') _)
  refine Keeps.bind (keeps_chain current.owner fun y version items hy hh hknows => ?_)
  have hvy := (hw.trans hw').trans hy
  dsimp only
  cases hget : Chain.get? ⟨current.owner, version, items⟩ id with
  | none => exact .of_error herr hvy _
  | some x =>
    have hx : x ∈ items := List.mem_of_find?_eq_some hget
    have hid : x.id = id := by simpa using List.find?_some hget
    subst hid
    have hxo : x.owner = current.owner := hh.owned x hx
    dsimp only
    cases hedited : edit x with
    | error e => exact .of_error herr hvy e
    | ok result =>
      obtain ⟨edited, store⟩ := result
      cases store with
      | false => exact hsame y x edited hvy (hh.item?_of_mem hx) hedited
      | true =>
        obtain ⟨heid, heo, heprev, henext⟩ := hedit x edited hedited
        simp only [Program.ofExcept, bind_done_ok, if_true]
        refine Keeps.bind ?_
        show Keeps G _ (commit (Store.draftOf { puts := [edited] } current.owner version [x.id])) y
        by_cases hself : edited.parent = some edited.id
        · refine keeps_commit_of_fault? (fun z e hz => .of_error herr (hvy.trans hz) e) fun u _ hf => ?_
          exact absurd hf (fault?_of_selfish (List.mem_singleton_self edited) hself _ _ _)
        refine keeps_commit hy.good hknows (replaced items edited) (Editing.modify limit x.id edit)
          (fun u hu hversion hholds => ?_) (fun i hi => ?_) (fun u z hu hl hrun => ?_)
          fun z e hz => .of_error herr (hvy.trans hz) e
        · have hcommits := Session.commits_modify hu.good.ordered limit hedit
            (hholds.item?_of_mem hx) hedited hself
            (hxo ▸ hholds)
          rw [hxo] at hcommits
          exact ⟨edited, hcommits⟩
        · obtain ⟨j, hj, rfl⟩ := List.mem_map.1 hi
          refine Or.inl ?_
          split
          · refine ⟨x, hx, heid.symm, heo, ?_⟩
            rw [(hvy.relinks : y.relinks = v.relinks)]
            exact hlink.imp (fun h => h) fun h => h x edited hedited
          · exact ⟨j, hj, rfl, rfl, Or.inr (Or.inl rfl)⟩
        · have hstored : u.store.item? k x.id = some x := hl.turned.holds.item?_of_mem hx
          rw [← hxo] at hl
          exact hok u z items x edited (hvy.trans hu.waits) hstored hedited hl hrun

end ExampleOverlay.View
