import ExampleOverlay.Proofs.Overlays.Reading
import ExampleOverlay.Proofs.Overlays.Siblings

/-!
# Customizing what an overlay shows

An overlay of a plain example is read, one of its rows is customized or a customized row is put beside a row of the
origin, and the overlay is read once more. It has changed where it should: the entry of the row that was patched is
replaced, or the new entry comes last and the pristine one with its parent is gone (`Crowd.reaches_recomposed`).
-/

namespace ExampleOverlay

open Chain Program

variable {k : Kind}

/-- A customized row that stands nowhere yet. -/
def Item.customized (id : ItemId) (owner : ExampleId) (parent : ItemId) (fields : Fields k) : Item k :=
  { Item.fresh id owner fields with parent := some parent, overridden := true }

/-- An entry of an overlay when its row was customized: it shows fields of its own, and those of its parent. -/
def OverlayRow.customized (e : OverlayRow k) (fields snapshot : Fields k) : OverlayRow k where
  __ := e
  fields := fields
  origin := some snapshot
  source := .mixed

namespace Session

variable {s t u : Session} {owner delta origin : ExampleId} {items items' list : List (Item k)} {x a : Item k}
  {fields : Fields k} {patch : Patch k}

/-! ## One list becomes another -/

/-- An example has these rows by now, and the lists of other examples and kinds are what they were. -/
structure Becomes (s t : Session) (owner : ExampleId) (items' : List (Item k)) : Prop where
  ordered : t.store.Ordered
  holds : t.store.Holds owner items'
  others : ∀ {k' owner'}, k' ≠ k ∨ owner' ≠ owner → t.store.scan k' owner' = s.store.scan k' owner'
  versions : t.versions = s.versions

theorem Becomes.refl (hs : s.store.Ordered) (h : s.store.Holds owner items) : s.Becomes s owner items :=
  ⟨hs, h, fun _ => rfl, rfl⟩

theorem Turned.becomes (hs : s.store.Ordered) (h : s.Turned t owner items items') : s.Becomes t owner items' where
  ordered := h.ordered hs
  holds := h.turned.holds
  others := h.turned.scan_eq hs.sound h.holds
  versions := by rw [h.eq]; rfl

theorem Becomes.of_minted {ids : List ItemId} (h : t.Becomes u owner items') (ht : s.Minted t ids) :
    s.Becomes u owner items' where
  ordered := h.ordered
  holds := h.holds
  others hne := by rw [h.others hne, ht.store]
  versions := h.versions.trans ht.versions

/-- What is read of an example is the list held for it. -/
theorem holds_of_chain_eq (hs : s.store.Ordered) {c : Chain k} (h : s.store.chain k owner = .ok c) :
    s.store.Holds owner c.items ∧ c = ⟨owner, s.store.version k owner, c.items⟩ := by
  obtain ⟨items, hitems⟩ := hs.lists k owner
  obtain rfl := Except.ok.inj (h.symm.trans (hitems.chain_eq hs.sound))
  exact ⟨hitems, rfl⟩

/-- Reading an overlay writes nothing where the delta's list has become one that covers the origin's. -/
theorem Becomes.run_deltaList (h : s.Becomes t delta items') (hs : s.store.Ordered) (limit : Nat) (hne : delta ≠ origin)
    {o : Chain k} (ho : s.store.chain k origin = .ok o) (hcovered : ∀ row ∈ o.items, ∃ i ∈ items', i.parent = some row.id) :
    t.run (Service.deltaList limit k delta origin) =
      (.ok (Overlay.compose o ⟨delta, t.store.version k delta, items'⟩ (s.versions delta)), t) := by
  obtain ⟨hlist, heq⟩ := holds_of_chain_eq hs ho
  have hscan : t.store.scan k origin = s.store.scan k origin := h.others (Or.inr hne.symm)
  have hlist' := hlist.of_scan_eq hs.sound h.ordered.sound hscan
  have hversion : t.store.version k origin = s.store.version k origin := congrArg Scan.version hscan
  rw [heq, ← hversion, ← h.versions]
  exact run_deltaList_of_covered h.ordered limit hne hlist' h.holds (Overlay.uncovered_eq_nil_iff.2 hcovered)

/-! ## The two calls -/

/-- A row replaced by itself leaves the list as it is. -/
theorem replaced_self (hnd : (idsOf items).Nodup) (hx : x ∈ items) : replaced items x = items := by
  refine (List.map_congr_left fun i hi => ?_).trans (List.map_id' items)
  split
  next hid => exact (eq_of_id_eq hnd hi hx hid).symm
  next => rfl

/-- **Customizing a linked row** replaces it in its list by one that has the patched fields and is overridden. -/
theorem becomes_deltaUpdate (hs : s.Sane) (hcalm : s.store.failing = ∅) (limit : Nat) (h : s.store.Holds owner items)
    (hx : x ∈ items) (hlinked : x.isLinked = true) (hvalid : Patch.fault? patch = none) :
    ∃ t, s.run (Service.deltaUpdate limit x.id patch) =
        (.ok { x with fields := Fields.patch x.fields patch, overridden := true }, t) ∧
      s.Becomes t owner (replaced items { x with fields := Fields.patch x.fields patch, overridden := true }) := by
  obtain rfl : x.owner = owner := h.owned x hx
  have hitem := h.item?_of_mem hx
  rw [Service.deltaUpdate, patchRow_of_valid hvalid]
  -- a patch that has nothing new to say of a customized row is not written
  by_cases hsame : Fields.patch x.fields patch = x.fields ∧ x.overridden = true
  · have heq : ({ x with fields := Fields.patch x.fields patch, overridden := true } : Item k) = x := by
      rw [hsame.1, ← hsame.2]
    have hedit : Service.applyPatch patch true x = .ok (x, false) := by simp [Service.applyPatch, hsame]
    rw [heq, replaced_self h.linked.nodup hx]
    exact ⟨s, run_modify_of_same hs.ordered limit hitem hedit, .refl hs.ordered h⟩
  · have hedit : Service.applyPatch patch true x =
        .ok ({ x with fields := Fields.patch x.fields patch, overridden := true }, true) := by
      simp only [Service.applyPatch, hlinked, Bool.true_and, Bool.or_not_self]
      rw [if_neg (by simpa using hsame)]
    obtain ⟨t, hrun, ht⟩ := turned_modify_of_calm hs hcalm limit (sure_applyPatch patch true) hitem hedit h
    exact ⟨t, hrun, ht.becomes hs.ordered⟩

/-- A row of another example passes as a parent. -/
theorem run_requireParent_of_some (hs : s.store.Ordered) (ha : s.store.item? k a.id = some a) (hne : delta ≠ a.owner) :
    s.run (Service.requireParent k delta (some a.owner) a.id) = (.ok (), s) := by
  unfold Service.requireParent Service.requireOther
  dsimp only
  rw [if_neg hne]
  refine (run_bind_ok (run_get_of_some hs ha) _).trans ?_
  rw [if_pos rfl]
  rfl

/-- **A customized row** is put to the end of the list, under an id that was not used. -/
theorem becomes_deltaCreate (hs : s.Sane) (hcalm : s.store.failing = ∅) (limit : Nat) (h : s.store.Holds delta items)
    (ha : s.store.item? k a.id = some a) (hne : delta ≠ a.owner) (hvalid : Fields.fault? fields = none)
    (hnd : (s.run (Service.deltaCreate limit delta (some a.owner) (some a.id) fields)).2.minted.Nodup) :
    ∃ id t, s.run (Service.deltaCreate limit delta (some a.owner) (some a.id) fields) = (.ok id, t) ∧
      id ∉ s.minted ∧ s.Becomes t delta (link none (items ++ [Item.customized id delta a.id fields])) := by
  have hstart : s.run (Service.deltaCreate limit delta (some a.owner) (some a.id) fields) =
      s.run (Service.appendNew limit fun id => Item.customized id delta a.id fields) := by
    rw [Service.deltaCreate_some, hvalid]
    exact run_bind_ok (run_requireParent_of_some hs.ordered ha hne) _
  rw [hstart] at hnd ⊢
  obtain ⟨id, t, hmint, ht⟩ := run_mint s
  unfold Service.appendNew at hnd ⊢
  rw [run_bind_ok hmint] at hnd ⊢
  have hnew := ht.not_mem (hnd.sublist (run_minted t _).sublist)
  have hself : (Item.customized id delta a.id fields).parent ≠ some id := by
    rintro ⟨⟩
    exact hnew (hs.minted (hs.ordered.item?_eq_some_iff.1 ha))
  have hord : t.store.Ordered := ht.store ▸ hs.ordered
  have hlist : t.store.Holds (Item.customized id delta a.id fields).owner items := ht.store ▸ h
  obtain ⟨stored, hbare, hc⟩ := commits_append hord limit hlist hself (ht.store ▸ hs.get?_eq_none hnew k)
  obtain ⟨u, hrun, hu⟩ := hc.turned (ht.store ▸ hcalm)
  have hstored : stored.id = id := Item.id_eq_of_bare_eq hbare
  exact ⟨id, u, (run_bind_ok hrun _).trans (by rw [hstored]; rfl), hnew, (hu.becomes hord).of_minted ht⟩

/-! ## The overlay afterwards -/

section

variable {o d : Chain k} {r : OverlayRow k}

/-- **An overlay after a row that it shows was patched** has another entry for that row. -/
theorem recomposed_deltaUpdate (hs : s.Sane) (hcalm : s.store.failing = ∅) (limit : Nat) (hne : delta ≠ origin)
    (hplain : s.versions delta = false) (ho : s.store.chain k origin = .ok o) (hd : s.store.chain k delta = .ok d)
    (hcovered : ∀ row ∈ o.items, ∃ i ∈ d.items, i.parent = some row.id) (hr : r ∈ Overlay.compose o d false)
    (ha : a ∈ o.items) (hp : r.parent = some a.id) (hvalid : Patch.fault? patch = none) :
    ∃ row t, s.run (Service.deltaUpdate limit r.id patch) = (.ok row, t) ∧
      t.run (Service.deltaList limit k delta origin) = (.ok ((Overlay.compose o d false).map fun e =>
        if e.id = r.id then r.customized (Fields.patch r.fields patch) a.fields else e), t) := by
  obtain ⟨hlist, -⟩ := holds_of_chain_eq hs.ordered ho
  obtain ⟨hitems, -⟩ := holds_of_chain_eq hs.ordered hd
  rw [Overlay.compose_eq hitems.linked.nodup] at hr
  obtain ⟨x, hx, rfl⟩ := List.mem_map.1 hr
  obtain ⟨hx, hshown⟩ := List.mem_filter.1 hx
  have hparent : x.parent = some a.id := hp
  obtain ⟨t, hrun, ht⟩ := becomes_deltaUpdate hs hcalm limit hitems hx (by rw [Item.isLinked, hparent]; rfl) hvalid
  have hread := ht.run_deltaList hs.ordered limit hne ho fun row hrow => by
    obtain ⟨i, hi, hip⟩ := hcovered row hrow
    refine ⟨_, List.mem_map_of_mem hi, ?_⟩
    split
    next hix => rw [← hip, eq_of_id_eq hitems.linked.nodup hi hx hix]
    next => exact hip
  generalize hy : ({ x with fields := Fields.patch x.fields patch, overridden := true } : Item k) = y at ht hrun hread
  obtain ⟨hid, hyp, hover, hfields⟩ :
      y.id = x.id ∧ y.parent = x.parent ∧ y.overridden = true ∧ y.fields = Fields.patch x.fields patch := by
    rw [← hy]
    exact ⟨rfl, rfl, rfl, rfl⟩
  have hentry : Overlay.rowOf o false y =
      (Overlay.rowOf o false x).customized (Fields.patch x.fields patch) a.fields := by
    rw [Overlay.rowOf_of_overridden hlist.linked.nodup ha (hyp.trans hparent) hover, hid, hfields, ← hparent]
    rfl
  rw [hplain, Overlay.compose_replaced hitems.linked.nodup hx (of_decide_eq_true hshown) hid hyp
    (Overlay.sourceOf_ne_origin hover) rfl, hentry, hid] at hread
  exact ⟨y, t, hrun, hread⟩

/-- **An overlay after a customized row was put beside a row of the origin** has a new entry at its end, and none any
more for a pristine row with that parent. -/
theorem recomposed_deltaCreate (hs : s.Sane) (hcalm : s.store.failing = ∅) (limit : Nat) (hne : delta ≠ origin)
    (hplain : s.versions delta = false) (ho : s.store.chain k origin = .ok o) (hd : s.store.chain k delta = .ok d)
    (hcovered : ∀ row ∈ o.items, ∃ i ∈ d.items, i.parent = some row.id) (ha : a ∈ o.items)
    (hvalid : Fields.fault? fields = none)
    (hnd : (s.run (Service.deltaCreate limit delta (some origin) (some a.id) fields)).2.minted.Nodup) :
    ∃ id t, s.run (Service.deltaCreate limit delta (some origin) (some a.id) fields) = (.ok id, t) ∧
      id ∉ s.minted ∧
      t.run (Service.deltaList limit k delta origin) = (.ok ((Overlay.compose o d false).filter
        (fun e => ¬ (e.source = .origin ∧ e.parent = some a.id)) ++
          [⟨id, some a.id, fields, some a.fields, .mixed⟩]), t) := by
  obtain ⟨hlist, -⟩ := holds_of_chain_eq hs.ordered ho
  obtain ⟨hitems, -⟩ := holds_of_chain_eq hs.ordered hd
  obtain rfl : a.owner = origin := hlist.owned a ha
  obtain ⟨id, t, hrun, hnew, ht⟩ :=
    becomes_deltaCreate hs hcalm limit hitems (hlist.item?_of_mem ha) hne hvalid hnd
  have hread := ht.run_deltaList hs.ordered limit hne ho fun row hrow => by
    obtain ⟨i, hi, hip⟩ := hcovered row hrow
    obtain ⟨j, hj, hji⟩ := exists_bare_mem_link none (List.mem_append_left _ hi)
    exact ⟨j, hj, (congrArg Item.parent hji).trans hip⟩
  have hnodup := ht.holds.linked.nodup
  rw [idsOf_link] at hnodup
  have hentry : Overlay.rowOf o false (Item.customized id delta a.id fields) =
      ⟨id, some a.id, fields, some a.fields, .mixed⟩ :=
    Overlay.rowOf_of_overridden hlist.linked.nodup ha rfl rfl
  have hcompose : Overlay.compose o ⟨delta, t.store.version k delta,
      link none (d.items ++ [Item.customized id delta a.id fields])⟩ false = Overlay.compose o
        ⟨delta, t.store.version k delta, d.items ++ [Item.customized id delta a.id fields]⟩ false :=
    Overlay.compose_congr_bare hnodup (link_map_bare none _)
  rw [hplain, hcompose, Overlay.compose_concat hnodup (Overlay.sourceOf_ne_origin rfl) rfl, hentry] at hread
  exact ⟨id, t, hrun, hnew, hread⟩

end

end Session

namespace Crowd

/-- **Customizing changes the overlay only where it should.** Whatever any number of clients have done over an empty
store, with calls still in progress, a client reads the overlay of an origin as seen from a plain example, customizes a
row, and reads it once more, alone, while no row is made to fail. Where a row that the overlay shows was patched, its
entry alone is another one. Where a customized row was put beside a row of the origin, its entry comes last, and the
pristine one with that parent is left out, if there was one. -/
theorem reaches_recomposed (registry : Registry) (supply : Nat → BitVec 128) (limit : Nat) {c : Crowd (Call.task limit)}
    (hc : Crowd.Reaches (fun _ _ => True) { session := Session.start registry supply } c) (k : Kind)
    {delta origin : ExampleId} (hne : delta ≠ origin) (hplain : c.session.versions delta = false)
    (hcalm : c.session.store.failing = ∅)
    (hnd : (c.session.run (Service.deltaList limit k delta origin)).2.minted.Nodup) :
    ∃ shown t, c.session.run (Service.deltaList limit k delta origin) = (.ok shown, t) ∧
      (shown.map (·.id)).Nodup ∧
      (∀ {r a patch}, r ∈ shown → t.store.item? k a.id = some a → a.owner = origin → r.parent = some a.id →
        Patch.fault? patch = none →
        ∃ row u, t.run (Service.deltaUpdate limit r.id patch) = (.ok row, u) ∧
          u.run (Service.deltaList limit k delta origin) = (.ok (shown.map fun e =>
            if e.id = r.id then r.customized (Fields.patch r.fields patch) a.fields else e), u)) ∧
      ∀ {a fields}, t.store.item? k a.id = some a → a.owner = origin → Fields.fault? fields = none →
        (t.run (Service.deltaCreate limit delta (some origin) (some a.id) fields)).2.minted.Nodup →
        ∃ id u, t.run (Service.deltaCreate limit delta (some origin) (some a.id) fields) = (.ok id, u) ∧
          (∀ e ∈ shown, e.id ≠ id) ∧ (shown.filter fun e => e.source = .origin ∧ e.parent = some a.id).length ≤ 1 ∧
          u.run (Service.deltaList limit k delta origin) =
            (.ok (shown.filter (fun e => ¬ (e.source = .origin ∧ e.parent = some a.id)) ++
              [⟨id, some a.id, fields, some a.fields, .mixed⟩]), u) := by
  have hs := hc.sane (hnd.sublist (Session.run_minted c.session _).sublist)
  obtain ⟨t, o, d, d', new, hrun, hext, hcovered, hord, hversions⟩ :=
    Session.extends_deltaList hs hcalm limit hne hnd
  have hafter : (c.session.run (Service.deltaList limit k delta origin)).2 = t := congrArg Prod.snd hrun
  have ht : t.Sane := hafter ▸ hs.after (.call (.deltaList delta origin)) hnd
  have hcalm' : t.store.failing = ∅ := hafter ▸ (Session.run_failing c.session _).trans hcalm
  have ho : t.store.chain k origin = .ok o := by
    rw [← hext.origin, Store.chain, Store.chain, hext.others k origin (Or.inr (Ne.symm hne))]
  have hplain' : t.versions delta = false := by rw [hversions, hplain]
  obtain ⟨hlist, -⟩ := Session.holds_of_chain_eq hord ho
  obtain ⟨hitems, -⟩ := Session.holds_of_chain_eq hord hext.after
  have hcovered' := Overlay.uncovered_eq_nil_iff.1 hcovered
  rw [hplain] at hrun
  refine ⟨_, t, hrun, Overlay.nodup_ids_compose hitems.linked.nodup, fun hr ha howner hp hvalid => ?_,
    fun ha howner hvalid hnd' => ?_⟩
  · exact Session.recomposed_deltaUpdate ht hcalm' limit hne hplain' ho hext.after hcovered' hr
      (hlist.mem_of_item? hord ha howner) hp hvalid
  · obtain ⟨id, u, hcreate, hnew, hread⟩ := Session.recomposed_deltaCreate ht hcalm' limit hne hplain' ho hext.after
      hcovered' (hlist.mem_of_item? hord ha howner) hvalid hnd'
    refine ⟨id, u, hcreate, ?_, Overlay.length_pristine_le hitems.linked.nodup _, hread⟩
    rintro e he rfl
    rw [Overlay.compose_eq hitems.linked.nodup] at he
    obtain ⟨x, hx, rfl⟩ := List.mem_map.1 he
    exact hnew (ht.mem_minted hitems _ (List.mem_map_of_mem (List.mem_filter.1 hx).1))

/-- The first row of the origin in `patchwork`. -/
def patchworkHead : Item .header :=
  ⟨⟨1⟩, ⟨100⟩, none, none, some ⟨2⟩, KeyValue.ofPair "Accept" "text/html", false⟩

/-- A counterpart that was just made is patched, or its parent gets a customized one. -/
theorem reaches_recomposed_patchwork : ∃ t : Session,
    (∃ row u shown, t.run (Service.deltaUpdate (k := .header) 2 ⟨9⟩ { value := some "text/plain" }) = (.ok row, u) ∧
      u.run (Service.deltaList 2 .header ⟨101⟩ ⟨100⟩) = (.ok shown, u) ∧
      shown.map (fun row => (row.id, row.source)) =
        [(⟨4⟩, .mixed), (⟨5⟩, .mixed), (⟨6⟩, .delta), (⟨9⟩, .mixed), (⟨10⟩, .origin)]) ∧
    ∃ id u shown, t.run (Service.deltaCreate (k := .header) 2 ⟨101⟩ (some ⟨100⟩) (some ⟨1⟩)
          (KeyValue.ofPair "Accept" "text/plain")) =
        (.ok id, u) ∧
      u.run (Service.deltaList 2 .header ⟨101⟩ ⟨100⟩) = (.ok shown, u) ∧
      shown.map (fun row => (row.parent, row.source)) =
        [(some ⟨3⟩, .mixed), (some ⟨2⟩, .mixed), (none, .delta), (some ⟨7⟩, .origin), (some ⟨1⟩, .mixed)] := by
  have hreach : Crowd.Reaches (fun _ _ => True)
      { session := Session.start {} fun n => BitVec.ofNat 128 (n + 1) } patchwork :=
    .foldl _ .refl fun _ _ _ => True.intro
  have hcalm : patchwork.session.store.failing = ∅ := Std.ExtTreeSet.isEmpty_iff.1 (by decide +kernel)
  obtain ⟨shown, t, hrun, -, hupdate, hcreate⟩ := reaches_recomposed {} _ 2 hreach .header
    (show (⟨101⟩ : ExampleId) ≠ ⟨100⟩ by decide) (by decide +kernel) hcalm (by decide +kernel)
  have hshown : (patchwork.session.run (Service.deltaList 2 .header ⟨101⟩ ⟨100⟩)).1.toOption = some
      [⟨⟨4⟩, some ⟨3⟩, KeyValue.ofPair "Via" "c", none, .mixed⟩,
        ⟨⟨5⟩, some ⟨2⟩, KeyValue.ofPair "Host" "d", some (KeyValue.ofPair "Host" "a"), .mixed⟩,
        ⟨⟨6⟩, none, KeyValue.ofPair "Age" "0", none, .delta⟩,
        ⟨⟨9⟩, some ⟨1⟩, KeyValue.ofPair "Accept" "text/html", none, .origin⟩,
        ⟨⟨10⟩, some ⟨7⟩, KeyValue.ofPair "Date" "today", none, .origin⟩] := by decide +kernel
  rw [hrun] at hshown
  obtain rfl := Option.some.inj hshown
  have ha : t.store.item? .header patchworkHead.id = some patchworkHead := by
    rw [show t = (patchwork.session.run (Service.deltaList 2 .header ⟨101⟩ ⟨100⟩)).2 by rw [hrun]]
    decide +kernel
  have hvalid : Patch.fault? (k := .header) { value := some "text/plain" } = none := rfl
  obtain ⟨row, u, hrow, hread⟩ := hupdate (.tail _ (.tail _ (.tail _ (.head _)))) ha rfl rfl hvalid
  have hvalid' : Fields.fault? (k := .header) (KeyValue.ofPair "Accept" "text/plain") = none := by decide
  obtain ⟨id, u', hid, -, -, hread'⟩ := hcreate ha rfl hvalid' (by
    rw [show t = (patchwork.session.run (Service.deltaList 2 .header ⟨101⟩ ⟨100⟩)).2 by rw [hrun]]
    decide +kernel)
  exact ⟨t, ⟨row, u, _, hrow, hread, by decide⟩, id, u', _, hid, hread', by rfl⟩

end Crowd

end ExampleOverlay
