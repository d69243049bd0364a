import ExampleOverlay.Proofs.Chain.Splice
import ExampleOverlay.Proofs.Overlays.Shown

/-!
# Overlays of lists that differ in one row

Whether a row is superseded is settled among the rows with its parent (`Overlay.superseded_map_iff`). So when a row
that is shown is customized, the rows it hides stay hidden, now by a customized row, and its entry alone changes
(`Overlay.compose_replaced`); and when a customized row is put to the end, it takes the place of the pristine one with
its parent and of no other (`Overlay.compose_concat`).
-/

namespace ExampleOverlay

open Chain

/-! ## Pairs of a list -/

section

variable {α β : Type} {a b c : α} {l : List α} {f : α → β}

theorem pair_sublist_map_iff (hinj : ∀ i ∈ l, ∀ j ∈ l, f i = f j → i = j) (ha : a ∈ l) (hb : b ∈ l) :
    [f a, f b].Sublist (l.map f) ↔ [a, b].Sublist l := by
  refine ⟨fun h => ?_, fun h => h.map f⟩
  obtain ⟨l', hl', heq⟩ := List.sublist_map_iff.1 h
  obtain ⟨i, rest, rfl, hi, hrest⟩ := List.map_eq_cons_iff.1 heq.symm
  obtain ⟨j, rest, rfl, hj, hrest⟩ := List.map_eq_cons_iff.1 hrest
  obtain rfl := List.map_eq_nil_iff.1 hrest
  rwa [hinj i (hl'.subset (by simp)) a ha hi, hinj j (hl'.subset (by simp)) b hb hj] at hl'

/-- Of two elements one comes before the other. -/
theorem pair_sublist_or (ha : a ∈ l) (hb : b ∈ l) (hne : a ≠ b) : [a, b].Sublist l ∨ [b, a].Sublist l := by
  obtain ⟨before, after, rfl⟩ := List.append_of_mem ha
  rcases List.mem_append.1 hb with hb | hb
  · exact Or.inr ((List.singleton_sublist.2 hb).append (List.singleton_sublist.2 List.mem_cons_self))
  · have hafter := (List.mem_cons.1 hb).resolve_left (Ne.symm hne)
    exact Or.inl (((List.singleton_sublist.2 hafter).cons_cons a).trans (List.sublist_append_right _ _))

theorem pair_sublist_concat_iff (hne : b ≠ c) : [a, b].Sublist (l ++ [c]) ↔ [a, b].Sublist l := by
  refine ⟨fun h => ?_, fun h => h.trans (List.sublist_append_left _ _)⟩
  obtain ⟨l₁, l₂, heq, h₁, h₂⟩ := List.sublist_append_iff.1 h
  rcases List.sublist_singleton.1 h₂ with rfl | rfl
  · rwa [heq, List.append_nil]
  · exact absurd (congrArg List.getLast? heq) (by simpa using hne)

end

namespace Overlay

variable {k : Kind} {origin delta delta' : Chain k} {version : Bool} {row x y n a : Item k}

/-! ## The rows with one parent -/

/-- **Whether a row is superseded** is settled among the rows with its parent, by their sources and their order. -/
theorem superseded_map_iff (f : Item k → Item k) (hitems : delta'.items = delta.items.map f)
    (hinj : ∀ i ∈ delta.items, ∀ j ∈ delta.items, f i = f j → i = j)
    (hparent : ∀ i ∈ delta.items, (f i).parent = i.parent) (hrow : row ∈ delta.items)
    (hsource : ∀ i ∈ delta.items, i.parent = row.parent →
      (sourceOf origin version (f i) = .origin ↔ sourceOf origin version i = .origin)) :
    Superseded origin delta' version (f row) ↔ Superseded origin delta version row := by
  refine and_congr (hsource row hrow rfl) (or_congr ?_ ?_)
  · rw [hitems]
    constructor
    · rintro ⟨_, hmem, hp, hs⟩
      obtain ⟨other, hother, rfl⟩ := List.mem_map.1 hmem
      rw [hparent other hother, hparent row hrow] at hp
      exact ⟨other, hother, hp, mt (hsource other hother hp).2 hs⟩
    · rintro ⟨other, hother, hp, hs⟩
      refine ⟨f other, List.mem_map_of_mem hother, ?_, mt (hsource other hother hp).1 hs⟩
      rw [hparent other hother, hparent row hrow, hp]
  · rw [hitems]
    constructor
    · rintro ⟨_, hmem, hbefore, hp, hs⟩
      obtain ⟨earlier, hearlier, rfl⟩ := List.mem_map.1 hmem
      rw [hparent earlier hearlier, hparent row hrow] at hp
      exact ⟨earlier, hearlier, (pair_sublist_map_iff hinj hearlier hrow).1 hbefore, hp,
        (hsource earlier hearlier hp).1 hs⟩
    · rintro ⟨earlier, hearlier, hbefore, hp, hs⟩
      refine ⟨f earlier, List.mem_map_of_mem hearlier, hbefore.map f, ?_, (hsource earlier hearlier hp).2 hs⟩
      rw [hparent earlier hearlier, hparent row hrow, hp]

/-- Where the same rows are superseded, the same rows are shown, as what they have become. -/
theorem compose_map (f : Item k → Item k) (h' : (idsOf delta'.items).Nodup)
    (hitems : delta'.items = delta.items.map f)
    (hsup : ∀ i ∈ delta.items, Superseded origin delta' version (f i) ↔ Superseded origin delta version i) :
    compose origin delta' version =
      (delta.items.filter fun row => ¬ Superseded origin delta version row).map (rowOf origin version ∘ f) := by
  rw [compose_eq h', hitems, List.filter_map, List.map_map]
  congr 1
  exact List.filter_congr fun i hi => by rw [Function.comp_apply, decide_eq_decide, not_iff_not, hsup i hi]

/-- A row that is shown supersedes the pristine ones with its parent. -/
theorem superseded_of_shown (hx : x ∈ delta.items) (hshown : ¬ Superseded origin delta version x)
    (hrow : row ∈ delta.items) (hne : row ≠ x) (hp : row.parent = x.parent)
    (hs : sourceOf origin version row = .origin) : Superseded origin delta version row := by
  by_cases hxs : sourceOf origin version x = .origin
  · rcases pair_sublist_or hrow hx hne with hbefore | hbefore
    · exact absurd ⟨hxs, Or.inr ⟨row, hrow, hbefore, hp, hs⟩⟩ hshown
    · exact ⟨hs, Or.inr ⟨x, hx, hbefore, hp.symm, hxs⟩⟩
  · exact ⟨hs, Or.inl ⟨x, hx, hp.symm, hxs⟩⟩

/-- Every row is shown once. -/
theorem nodup_ids_compose (h : (idsOf delta.items).Nodup) : ((compose origin delta version).map (·.id)).Nodup := by
  rw [compose_eq h, List.map_map]
  exact h.sublist (List.filter_sublist.map _)

/-- At most one pristine row with a parent is shown. -/
theorem length_pristine_le (h : (idsOf delta.items).Nodup) (parent : ItemId) :
    ((compose origin delta version).filter fun e => e.source = .origin ∧ e.parent = some parent).length ≤ 1 := by
  have hkin : (compose origin delta version).filter (fun e => e.source = .origin ∧ e.parent = some parent) =
      ((compose origin delta version).filter (·.parent == some parent)).filter (·.source = .origin) := by
    rw [List.filter_filter]
    exact List.filter_congr fun e _ => by rw [Bool.eq_iff_iff]; simp
  by_cases hrow : ∃ row ∈ delta.items, row.parent = some parent
  · obtain ⟨row, hrow, hp⟩ := hrow
    have hkept : Represented parent (compose origin delta version) := represented_compose h hrow hp
    rcases hkept with ⟨e, hone, -⟩ | ⟨-, hcustom⟩
    · rw [hkin, hone]
      exact List.length_filter_le _ _
    · rw [List.filter_eq_nil_iff.2 fun e he => by simpa using fun hs hp => hcustom e he hp hs]
      exact Nat.zero_le 1
  · have hnone : delta.items.filter (·.parent == some parent) = [] :=
      List.filter_eq_nil_iff.2 fun i hi => by simpa using fun hp => hrow ⟨i, hi, hp⟩
    rw [hkin, filter_compose h, hnone]
    exact Nat.zero_le 1

/-! ## What rows say -/

/-- An overlay shows what rows say, wherever they stand. -/
theorem compose_congr_bare (h : (idsOf delta.items).Nodup)
    (hbare : delta'.items.map Item.bare = delta.items.map Item.bare) :
    compose origin delta' version = compose origin delta version := by
  have hown : ∀ d : Chain k, (idsOf d.items).Nodup →
      compose origin { d with items := d.items.map Item.bare } version = compose origin d version := by
    intro d hd
    have hids : idsOf (d.items.map Item.bare) = idsOf d.items := by simp [idsOf, Function.comp_def]
    rw [compose_map Item.bare (hids ▸ hd) rfl fun row hrow => ?_, compose_eq hd]
    · rfl
    · exact superseded_map_iff Item.bare rfl (fun i hi j hj hij => eq_of_id_eq hd hi hj (Item.id_eq_of_bare_eq hij))
        (fun _ _ => rfl) hrow fun _ _ _ => Iff.rfl
  have h' : (idsOf delta'.items).Nodup := idsOf_eq_of_map_bare_eq hbare ▸ h
  rw [← hown delta' h', ← hown delta h, hbare]
  rfl

/-- A customized row is not pristine. -/
theorem sourceOf_ne_origin (hover : row.overridden = true) : sourceOf origin version row ≠ .origin := fun hs => by
  obtain ⟨-, hpristine, -⟩ := sourceOf_eq_origin_iff.1 hs
  rw [hover] at hpristine
  cases hpristine

/-- A customized row of a plain example is shown with the fields that its parent has by now beside its own. -/
theorem rowOf_of_overridden (h : (idsOf origin.items).Nodup) (ha : a ∈ origin.items) (hp : row.parent = some a.id)
    (hover : row.overridden = true) :
    rowOf origin false row = ⟨row.id, some a.id, row.fields, some a.fields, .mixed⟩ := by
  have hparent : parentIn origin row = some a := (parentIn_eq_some_iff h).2 ⟨ha, hp⟩
  have hsource : sourceOf origin false row = .mixed := by
    rw [sourceOf, hparent]
    simp [Source.resolve, Source.classify, Item.isLinked, Item.tracks, hp, hover]
  simp only [rowOf, hsource, hparent, hp]
  rfl

/-! ## One row -/

/-- Customizing a row that is shown changes of no row whether it is superseded. -/
theorem superseded_replaced_iff (h : (idsOf delta.items).Nodup) (hx : x ∈ delta.items)
    (hshown : ¬ Superseded origin delta version x) (hid : y.id = x.id) (hp : y.parent = x.parent)
    (hcustom : sourceOf origin version y ≠ .origin) (hitems : delta'.items = replaced delta.items y)
    (hrow : row ∈ delta.items) :
    Superseded origin delta' version (if row.id = y.id then y else row) ↔ Superseded origin delta version row := by
  have hsame : ∀ {i : Item k}, i ∈ delta.items → i.id = y.id → i = x := fun hi hiy =>
    eq_of_id_eq h hi hx (hiy.trans hid)
  by_cases hiy : row.id = y.id
  · obtain rfl := hsame hrow hiy
    rw [if_pos hiy]
    exact iff_of_false (fun hsup => hcustom hsup.1) hshown
  by_cases hkin : row.parent = x.parent
  · -- the row shown hides its siblings before and after, whatever its source
    have hy : y ∈ delta'.items := by
      rw [hitems]
      exact List.mem_map.2 ⟨x, hx, if_pos hid.symm⟩
    rw [if_neg hiy]
    constructor
    · exact fun hsup => superseded_of_shown hx hshown hrow (fun hix => hiy (by rw [hix, hid])) hkin hsup.1
    · exact fun hsup => ⟨hsup.1, Or.inl ⟨y, hy, hp.trans hkin.symm, hcustom⟩⟩
  · refine superseded_map_iff (fun i => if i.id = y.id then y else i) hitems (fun i hi j hj hij => ?_)
      (fun j hj => ?_) hrow fun j hj hji => ?_
    · have hfix : ∀ j : Item k, (if j.id = y.id then y else j).id = j.id := fun j => by split <;> simp [*]
      refine eq_of_id_eq h hi hj ?_
      rw [← hfix i, hij, hfix j]
    · split
      next hjy => rw [hsame hj hjy, hp]
      next => rfl
    · rw [if_neg fun hjy => hkin (by rw [← hji, hsame hj hjy])]

/-- **Customizing a row that is shown** changes its entry alone. -/
theorem compose_replaced (h : (idsOf delta.items).Nodup) (hx : x ∈ delta.items)
    (hshown : ¬ Superseded origin delta version x) (hid : y.id = x.id) (hp : y.parent = x.parent)
    (hcustom : sourceOf origin version y ≠ .origin) (hitems : delta'.items = replaced delta.items y) :
    compose origin delta' version =
      (compose origin delta version).map fun e => if e.id = y.id then rowOf origin version y else e := by
  have h' : (idsOf delta'.items).Nodup := by rwa [hitems, idsOf_replaced]
  rw [compose_map _ h' hitems fun i hi => superseded_replaced_iff h hx hshown hid hp hcustom hitems hi,
    compose_eq h, List.map_map]
  refine List.map_congr_left fun i _ => ?_
  show rowOf origin version (if i.id = y.id then y else i) = if i.id = y.id then _ else _
  split <;> rfl

/-- A customized row at the end supersedes the pristine ones with its parent, and no others. -/
theorem superseded_concat_iff (hcustom : sourceOf origin version n ≠ .origin) (hitems : delta'.items = delta.items ++ [n])
    (hne : row ≠ n) : Superseded origin delta' version row ↔
      Superseded origin delta version row ∨ sourceOf origin version row = .origin ∧ row.parent = n.parent := by
  rw [Superseded, Superseded, hitems, ← and_or_left]
  refine and_congr_right fun _ => ?_
  simp only [List.mem_append, List.mem_singleton, or_and_right, exists_or, exists_eq_left, hcustom,
    pair_sublist_concat_iff hne, ne_eq, not_false_eq_true, and_true, and_false, or_false]
  rw [or_right_comm, eq_comm (a := n.parent)]

/-- **A customized row at the end** takes the place of the pristine one with its parent. -/
theorem compose_concat (h' : (idsOf delta'.items).Nodup) (hcustom : sourceOf origin version n ≠ .origin)
    (hitems : delta'.items = delta.items ++ [n]) :
    compose origin delta' version = (compose origin delta version).filter
      (fun e => ¬ (e.source = .origin ∧ e.parent = n.parent)) ++ [rowOf origin version n] := by
  have hnd := h'
  rw [hitems, idsOf, List.map_append, List.nodup_append] at hnd
  have hne : ∀ {i : Item k}, i ∈ delta.items → i ≠ n := by
    rintro i hi rfl
    exact hnd.2.2 i.id (List.mem_map_of_mem hi) i.id (by simp) rfl
  have hfilter : delta.items.filter (fun row => ¬ Superseded origin delta' version row) =
      (delta.items.filter fun row => ¬ Superseded origin delta version row).filter
        ((fun e => decide ¬ (e.source = .origin ∧ e.parent = n.parent)) ∘ rowOf origin version) := by
    rw [List.filter_filter]
    refine List.filter_congr fun i hi => ?_
    rw [Bool.eq_iff_iff, Bool.and_eq_true, decide_eq_true_iff, decide_eq_true_iff, Function.comp_apply,
      decide_eq_true_iff, superseded_concat_iff hcustom hitems (hne hi), not_or, and_comm]
    rfl
  have hlast : ¬ Superseded origin delta' version n := fun hsup => hcustom hsup.1
  rw [compose_eq h', compose_eq hnd.1, hitems, List.filter_append, hfilter, List.filter_map, List.map_append,
    List.filter_cons_of_pos (by simpa using hlast)]
  rfl

end Overlay

end ExampleOverlay
