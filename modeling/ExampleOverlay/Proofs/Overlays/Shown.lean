import ExampleOverlay.Overlay
import ExampleOverlay.Proofs.Chain.Walk

/-!
# What an overlay shows

An overlay is made in one pass over the delta's rows that remembers whose counterparts it has shown. What it
leaves out depends on all rows with one parent, those before and those after: a pristine row is *superseded* by
any customized one, and by a pristine one that comes earlier. The overlay shows the other rows, in the delta's
order (`Overlay.compose_shows`).
-/

namespace ExampleOverlay.Overlay

open Chain

variable {k : Kind} {origin delta : Chain k} {version : Bool} {row : Item k} {parent : ItemId}

/-! ## The source of a row -/

theorem parentIn_eq_some_iff (h : (idsOf origin.items).Nodup) {o : Item k} :
    parentIn origin row = some o ↔ o ∈ origin.items ∧ row.parent = some o.id := by
  rw [parentIn, Option.bind_eq_some_iff]
  constructor
  · rintro ⟨p, hp, ho⟩
    have hid : o.id = p := by simpa using List.find?_some ho
    exact ⟨List.mem_of_find?_eq_some ho, hid ▸ hp⟩
  · rintro ⟨ho, hp⟩
    exact ⟨o.id, hp, find?_id_of_mem h ho⟩

theorem isPristine_iff {source : Source} : source.isPristine = true ↔ source = .origin := by
  simp [Source.isPristine]

/-- The rows that show what the origin shows: of a plain example, linked to a row of the origin, and never
customized. -/
theorem sourceOf_eq_origin_iff : sourceOf origin version row = .origin ↔
    version = false ∧ row.overridden = false ∧ ∃ o, parentIn origin row = some o ∧ row.parent = some o.id := by
  rw [sourceOf, Source.resolve, Item.isLinked]
  cases hp : row.parent with
  | none => cases version <;> simp [Source.classify]
  | some p =>
    cases version with
    | true => simp [Source.classify]
    | false =>
      simp only [Option.isSome_some, Source.classify]
      cases ho : parentIn origin row <;> simp [Item.tracks, hp, and_comm]

theorem isSome_parent_of_origin (h : sourceOf origin version row = .origin) : ∃ p, row.parent = some p :=
  have ⟨_, _, o, _, hp⟩ := sourceOf_eq_origin_iff.1 h
  ⟨o.id, hp⟩

/-! ## The rows that are left out -/

/-- A pristine row that is not shown, since the delta has a row with the same parent that is customized, or a
pristine one before it. -/
def Superseded (origin delta : Chain k) (version : Bool) (row : Item k) : Prop :=
  sourceOf origin version row = .origin ∧
    ((∃ other ∈ delta.items, other.parent = row.parent ∧ sourceOf origin version other ≠ .origin) ∨
      ∃ earlier ∈ delta.items, [earlier, row].Sublist delta.items ∧ earlier.parent = row.parent ∧
        sourceOf origin version earlier = .origin)

instance : DecidablePred (Superseded origin delta version) := fun _ => inferInstanceAs (Decidable (_ ∧ _))

/-- What the pass over the rows left in the delta hides, when it hides the counterparts of `hidden`. -/
def Passed (origin : Chain k) (version : Bool) (hidden : List ItemId) (rest : List (Item k)) (row : Item k) : Prop :=
  sourceOf origin version row = .origin ∧
    ((∃ p ∈ hidden, row.parent = some p) ∨
      ∃ earlier ∈ rest, [earlier, row].Sublist rest ∧ earlier.parent = row.parent ∧
        sourceOf origin version earlier = .origin)

instance (hidden : List ItemId) (rest : List (Item k)) : DecidablePred (Passed origin version hidden rest) :=
  fun _ => inferInstanceAs (Decidable (_ ∧ _))

/-- No row comes before the first one. -/
theorem not_before_first {earlier : Item k} {rest : List (Item k)} (h : row ∉ rest) :
    ¬ [earlier, row].Sublist (row :: rest) := by
  intro hbefore
  cases hbefore with
  | cons _ hrest => exact h (hrest.subset (by simp))
  | cons_cons _ hrest => exact h (hrest.subset (by simp))

theorem passed_head_iff {hidden : List ItemId} {rest : List (Item k)} (h : row ∉ rest) :
    Passed origin version hidden (row :: rest) row ↔
      sourceOf origin version row = .origin ∧ ∃ p ∈ hidden, row.parent = some p :=
  and_congr_right fun _ => or_iff_left fun ⟨_, _, hbefore, _⟩ => not_before_first h hbefore

/-- The first row hides the pristine ones with its parent if it is pristine itself. -/
theorem passed_cons_iff {first : Item k} {hidden : List ItemId} {rest : List (Item k)} (h : row ∈ rest) :
    Passed origin version hidden (first :: rest) row ↔
      Passed origin version hidden rest row ∨
        (sourceOf origin version row = .origin ∧ first.parent = row.parent ∧
          sourceOf origin version first = .origin) := by
  rw [Passed, Passed, ← and_or_left, or_assoc]
  refine and_congr_right fun _ => or_congr_right ?_
  constructor
  · rintro ⟨earlier, -, hbefore, hp, hs⟩
    cases hbefore with
    | cons _ hrest => exact .inl ⟨earlier, hrest.subset (by simp), hrest, hp, hs⟩
    | cons_cons _ _ => exact .inr ⟨hp, hs⟩
  · rintro (⟨earlier, hmem, hbefore, hp, hs⟩ | ⟨hp, hs⟩)
    · exact ⟨earlier, List.mem_cons_of_mem _ hmem, hbefore.cons _, hp, hs⟩
    · exact ⟨first, List.mem_cons_self, (List.singleton_sublist.2 h).cons_cons _, hp, hs⟩

theorem shown_eq_filter : ∀ (hidden : List ItemId) (rest : List (Item k)), rest.Nodup →
    shown origin version hidden rest = rest.filter fun row => ¬ Passed origin version hidden rest row
  | _, [], _ => rfl
  | hidden, first :: rest, hnd => by
    obtain ⟨hfirst, hnd⟩ := List.nodup_cons.1 hnd
    -- what is hidden of the other rows is what the pass hides when it goes on
    have hrest : ∀ hidden' : List ItemId, (∀ row ∈ rest, sourceOf origin version row = .origin →
        ((∃ p ∈ hidden', row.parent = some p) ↔ (∃ p ∈ hidden, row.parent = some p) ∨
          first.parent = row.parent ∧ sourceOf origin version first = .origin)) →
        rest.filter (fun row => ¬ Passed origin version hidden (first :: rest) row) =
          shown origin version hidden' rest := by
      intro hidden' hsame
      rw [shown_eq_filter hidden' rest hnd]
      refine List.filter_congr fun row hrow => ?_
      rw [decide_eq_decide, not_iff_not, passed_cons_iff hrow, Passed, Passed, ← and_or_left]
      refine and_congr_right fun hs => ?_
      rw [hsame row hrow hs, or_right_comm]
    rw [List.filter_cons, shown]
    by_cases hs : sourceOf origin version first = .origin
    · obtain ⟨p, hp⟩ := isSome_parent_of_origin hs
      rw [if_pos (isPristine_iff.2 hs)]
      simp only [hp, passed_head_iff hfirst, hs, true_and, Option.some.injEq]
      by_cases hmem : p ∈ hidden
      · rw [hrest hidden fun row _ _ => ?_]
        · simp [hmem]
        · refine ⟨.inl, ?_⟩
          rintro (h | ⟨h, -⟩)
          · exact h
          · exact ⟨p, hmem, h ▸ hp⟩
      · rw [hrest (p :: hidden) fun row _ _ => ?_]
        · simp [hmem]
        · rw [List.exists_mem_cons_iff, hp]
          simp only [hs, and_true]
          constructor
          · rintro (h | h)
            · exact .inr h.symm
            · exact .inl h
          · rintro (h | h)
            · exact .inr h
            · exact .inl h.symm
    · have hcustom : (sourceOf origin version first).isPristine = false :=
        Bool.eq_false_iff.2 fun h => hs (isPristine_iff.1 h)
      rw [hrest hidden fun row _ _ => by simp [hs]]
      simp [hcustom, passed_head_iff hfirst, hs]

theorem mem_customized_iff : parent ∈ customized origin delta version ↔
    ∃ other ∈ delta.items, other.parent = some parent ∧ sourceOf origin version other ≠ .origin := by
  simp only [customized, List.mem_filterMap, List.mem_filter, and_assoc]
  refine exists_congr fun other => and_congr_right fun _ => ?_
  rw [and_comm, Bool.not_eq_true', Bool.eq_false_iff, ne_eq, ne_eq, isPristine_iff]

theorem passed_customized_iff :
    Passed origin version (customized origin delta version) delta.items row ↔ Superseded origin delta version row := by
  refine and_congr_right fun hs => or_congr_left ?_
  obtain ⟨p, hp⟩ := isSome_parent_of_origin hs
  simp only [mem_customized_iff, hp, Option.some.injEq, exists_eq_right']

/-- The rows shown are those not superseded. -/
theorem compose_eq (h : (idsOf delta.items).Nodup) : compose origin delta version =
    (delta.items.filter fun row => ¬ Superseded origin delta version row).map (rowOf origin version) := by
  rw [compose, shown_eq_filter _ _ (.of_map _ h)]
  congr 1
  exact List.filter_congr fun row _ => by rw [decide_eq_decide, passed_customized_iff]

/-! ## What is shown -/

/-- What is shown of a row: what it says itself, its source, and beside a customized one the fields that its parent
has in the origin by now. -/
structure IsRowOf (origin : Chain k) (version : Bool) (row : Item k) (shown : OverlayRow k) : Prop where
  id : shown.id = row.id
  parent : shown.parent = row.parent
  fields : shown.fields = row.fields
  source : shown.source = sourceOf origin version row
  snapshot : ∀ values, shown.origin = some values ↔
    shown.source ≠ .origin ∧ ∃ o ∈ origin.items, row.parent = some o.id ∧ o.fields = values

theorem isRowOf_rowOf (h : (idsOf origin.items).Nodup) (version : Bool) (row : Item k) :
    IsRowOf origin version row (rowOf origin version row) where
  id := rfl
  parent := rfl
  fields := rfl
  source := rfl
  snapshot values := by
    simp only [rowOf]
    split
    next hs => simp [isPristine_iff.1 hs]
    next hs =>
      rw [isPristine_iff] at hs
      simp only [Option.map_eq_some_iff, parentIn_eq_some_iff h, and_assoc, ne_eq, hs, not_false_eq_true, true_and]

/-- Of the rows of the delta with one parent either one pristine row is shown, or all the customized ones. -/
def Represented (parent : ItemId) (shown : List (OverlayRow k)) : Prop :=
  (∃ row, shown.filter (·.parent == some parent) = [row] ∧ row.source = .origin) ∨
    shown.filter (·.parent == some parent) ≠ [] ∧
      ∀ row ∈ shown, row.parent = some parent → row.source ≠ .origin

/-- What is shown of the rows with one parent. -/
theorem filter_compose (h : (idsOf delta.items).Nodup) (parent : ItemId) :
    (compose origin delta version).filter (·.parent == some parent) =
      ((delta.items.filter (·.parent == some parent)).filter
        fun row => ¬ Superseded origin delta version row).map (rowOf origin version) := by
  rw [compose_eq h, List.filter_map, List.filter_comm]
  rfl

/-- A customized row hides the pristine ones with its parent. -/
theorem represented_of_customized (h : (idsOf delta.items).Nodup) {other : Item k} (hother : other ∈ delta.items)
    (hp : other.parent = some parent) (hs : sourceOf origin version other ≠ .origin) :
    Represented parent (compose origin delta version) := by
  have hshown : other ∈ (delta.items.filter (·.parent == some parent)).filter
      fun row => ¬ Superseded origin delta version row := by
    simpa [hother, hp] using fun hsup : Superseded origin delta version other => hs hsup.1
  refine .inr ⟨?_, ?_⟩
  · rw [filter_compose h]
    exact List.ne_nil_of_mem (List.mem_map_of_mem hshown)
  · rw [compose_eq h]
    intro shown hshown hparent hsource
    obtain ⟨row, hrow, rfl⟩ := List.mem_map.1 hshown
    obtain ⟨-, hkept⟩ := List.mem_filter.1 hrow
    exact of_decide_eq_true hkept ⟨hsource, .inl ⟨other, hother, hp.trans hparent.symm, hs⟩⟩

/-- Of pristine rows with one parent the first is shown. -/
theorem represented_of_pristine (h : (idsOf delta.items).Nodup) (hrow : row ∈ delta.items)
    (hp : row.parent = some parent)
    (hall : ∀ i ∈ delta.items, i.parent = some parent → sourceOf origin version i = .origin) :
    Represented parent (compose origin delta version) := by
  have hmem : ∀ {i : Item k}, i ∈ delta.items.filter (·.parent == some parent) ↔
      i ∈ delta.items ∧ i.parent = some parent := by simp
  obtain ⟨first, others, hkin⟩ := List.exists_cons_of_ne_nil (List.ne_nil_of_mem (hmem.2 ⟨hrow, hp⟩))
  have hnd : (first :: others).Nodup := hkin ▸ (List.Nodup.of_map _ h).filter _
  obtain ⟨hitems, hparent⟩ := hmem.1 (hkin ▸ List.mem_cons_self : first ∈ _)
  have hfirst : ¬ Superseded origin delta version first := by
    rintro ⟨-, ⟨other, hother, hsame, hs⟩ | ⟨earlier, -, hbefore, hsame, -⟩⟩
    · exact hs (hall other hother (hsame.trans hparent))
    · have hkept := hbefore.filter (·.parent == some parent)
      simp only [List.filter_cons, hsame, hparent, beq_self_eq_true, if_true, List.filter_nil, hkin] at hkept
      exact not_before_first (List.nodup_cons.1 hnd).1 hkept
  have hothers : others.filter (fun row => ¬ Superseded origin delta version row) = [] := by
    refine List.filter_eq_nil_iff.2 fun i hi => ?_
    obtain ⟨hi', hparent'⟩ := hmem.1 (hkin ▸ List.mem_cons_of_mem _ hi : i ∈ _)
    have hbefore : [first, i].Sublist delta.items :=
      .trans (hkin ▸ (List.singleton_sublist.2 hi).cons_cons first : _) List.filter_sublist
    simpa using ⟨hall i hi' hparent', Or.inr ⟨first, hitems, hbefore, hparent.trans hparent'.symm,
      hall first hitems hparent⟩⟩
  refine .inl ⟨rowOf origin version first, ?_, hall first hitems hparent⟩
  rw [filter_compose h, hkin, List.filter_cons_of_pos (by simpa using hfirst), hothers, List.map_singleton]

theorem represented_compose (h : (idsOf delta.items).Nodup) (hrow : row ∈ delta.items) (hp : row.parent = some parent) :
    Represented parent (compose origin delta version) := by
  by_cases hall : ∀ i ∈ delta.items, i.parent = some parent → sourceOf origin version i = .origin
  · exact represented_of_pristine h hrow hp hall
  · push Not at hall
    obtain ⟨other, hother, hparent, hs⟩ := hall
    exact represented_of_customized h hother hparent hs

/-- **The overlay of two lists.** Let two lists be read. Exactly the superseded rows of the delta's are left out of
the overlay, and each other row is shown in its place with its id, parent, fields and source; the parent's current
fields are shown beside it if and only if it is not pristine and the origin has the parent. So a row that is linked
to nothing is always shown, all rows of a version are, and of the counterparts of a row of the origin there are shown
either one that is pristine or only customized ones. -/
theorem compose_shows {owner owner' : ExampleId} {number number' : Nat} {rows rows' : List (Item k)}
    (horigin : ofRows owner number rows = .ok origin) (hdelta : ofRows owner' number' rows' = .ok delta)
    (version : Bool) :
    List.Forall₂ (IsRowOf origin version) (delta.items.filter fun row => ¬ Superseded origin delta version row)
        (compose origin delta version) ∧
      (∀ row ∈ delta.items, row.parent = none →
        ∃ shown ∈ compose origin delta version, IsRowOf origin version row shown) ∧
      (version = true → List.Forall₂ (IsRowOf origin version) delta.items (compose origin delta version)) ∧
      ∀ o ∈ origin.items, (∃ row ∈ delta.items, row.parent = some o.id) →
        Represented o.id (compose origin delta version) := by
  obtain ⟨-, -, -, ho, -⟩ := ofRows_eq_ok_iff.1 horigin
  obtain ⟨-, -, -, hd, -⟩ := ofRows_eq_ok_iff.1 hdelta
  have hall : List.Forall₂ (IsRowOf origin version)
      (delta.items.filter fun row => ¬ Superseded origin delta version row) (compose origin delta version) := by
    rw [compose_eq hd.nodup, List.forall₂_map_right_iff]
    exact List.forall₂_same.2 fun row _ => isRowOf_rowOf ho.nodup version row
  refine ⟨hall, fun row hrow hp => ?_, fun hv => ?_, fun o _ ⟨row, hrow, hp⟩ => represented_compose hd.nodup hrow hp⟩
  · have hkept : ¬ Superseded origin delta version row := by
      rintro ⟨hs, -⟩
      obtain ⟨p, hparent⟩ := isSome_parent_of_origin hs
      rw [hp] at hparent
      cases hparent
    refine ⟨_, ?_, isRowOf_rowOf ho.nodup version row⟩
    rw [compose_eq hd.nodup]
    exact List.mem_map_of_mem (List.mem_filter.2 ⟨hrow, decide_eq_true hkept⟩)
  · rwa [List.filter_eq_self.2] at hall
    intro row _
    refine decide_eq_true fun hsup => ?_
    rw [(sourceOf_eq_origin_iff.1 hsup.1).1] at hv
    cases hv

/-- Two headers. -/
def page : List (Item .header) := link none [
  Item.fresh ⟨1⟩ ⟨100⟩ (KeyValue.ofPair "Accept" "text/html"),
  Item.fresh ⟨2⟩ ⟨100⟩ (KeyValue.ofPair "Host" "localhost")]

/-- Two counterparts of each, one of them customized, a header of its own, and one that is linked elsewhere. -/
def crowded : List (Item .header) := link none [
  Item.counterpart ⟨11⟩ ⟨101⟩ (Item.fresh ⟨1⟩ ⟨100⟩ (KeyValue.ofPair "Accept" "text/html")),
  { Item.fresh ⟨12⟩ ⟨101⟩ (KeyValue.ofPair "Accept" "text/css") with parent := some ⟨1⟩, overridden := true },
  Item.counterpart ⟨13⟩ ⟨101⟩ (Item.fresh ⟨2⟩ ⟨100⟩ (KeyValue.ofPair "Host" "localhost")),
  Item.fresh ⟨14⟩ ⟨101⟩ (KeyValue.ofPair "Via" "proxy"),
  Item.counterpart ⟨15⟩ ⟨101⟩ (Item.fresh ⟨2⟩ ⟨100⟩ (KeyValue.ofPair "Host" "localhost")),
  Item.counterpart ⟨16⟩ ⟨101⟩ (Item.fresh ⟨9⟩ ⟨102⟩ (KeyValue.ofPair "Age" "0"))]

theorem compose_shows_crowded : ∃ origin delta : Chain .header,
    ofRows ⟨100⟩ 1 page.reverse = .ok origin ∧ ofRows ⟨101⟩ 2 crowded.reverse = .ok delta ∧
      (compose origin delta false).map (fun row => (row.id, row.source)) =
        [(⟨12⟩, .mixed), (⟨13⟩, .origin), (⟨14⟩, .delta), (⟨16⟩, .mixed)] ∧
      List.Forall₂ (IsRowOf origin false) (delta.items.filter fun row => ¬ Superseded origin delta false row)
        (compose origin delta false) ∧
      Represented ⟨1⟩ (compose origin delta false) ∧ Represented ⟨2⟩ (compose origin delta false) ∧
      List.Forall₂ (IsRowOf origin true) delta.items (compose origin delta true) := by
  have horigin : ofRows ⟨100⟩ 1 page.reverse = .ok ⟨⟨100⟩, 1, page⟩ := rfl
  have hdelta : ofRows ⟨101⟩ 2 crowded.reverse = .ok ⟨⟨101⟩, 2, crowded⟩ := rfl
  obtain ⟨hshown, -, -, hrepresented⟩ := compose_shows horigin hdelta false
  obtain ⟨-, -, hall, -⟩ := compose_shows horigin hdelta true
  have hparent : ∀ o ∈ page, ∃ row ∈ crowded, row.parent = some o.id := by decide
  exact ⟨_, _, horigin, hdelta, by decide, hshown, hrepresented _ (.head _) (hparent _ (.head _)),
    hrepresented _ (.tail _ (.head _)) (hparent _ (.tail _ (.head _))), hall rfl⟩

end ExampleOverlay.Overlay
