import ExampleOverlay.Proofs.Chain.Arranged

/-!
# Trails

A walk has a bound on its steps that it never meets (`walk_enough`), so it is what its iterations make of it without one
(`Walks`). From the only row without a predecessor it follows a *trail*, rows each of which names the next one and is
named back: two trails have a common start (`Trail.isPrefix`), so there is one longest (`Longest.unique`), and the walk
goes on after its last row (`Trail.walks`).
-/

namespace ExampleOverlay.Chain

variable {k : Kind} {rows seen trail : List (Item k)} {cursor : Option ItemId} {id : ItemId} {row last : Item k}
  {found : Except ChainFault (List (Item k))}

/-! ## A walk without a bound -/

/-- One iteration of a walk: it passes the row at the cursor, or finds a fault there. -/
def visit (rows seen : List (Item k)) (id : ItemId) : Except ChainFault (Item k) :=
  let back := seen.head?.map (·.id)
  if seen.any (·.id == id) then .error (.cycle id)
  else match rows.find? (·.id == id) with
    | none => .error (.dangling (back.getD id) id)
    | some row =>
      if row.prev ≠ back then .error (.brokenBacklink (back.getD id) id row.prev) else .ok row

/-- A walk that has seen some rows goes on at a cursor for a number of iterations and comes to this. -/
inductive Walks (rows : List (Item k)) :
    List (Item k) → Option ItemId → Nat → Except ChainFault (List (Item k)) → Prop
  | ended (seen : List (Item k)) : Walks rows seen none 0 (.ok seen.reverse)
  | refused {seen : List (Item k)} {id : ItemId} {fault : ChainFault} :
      visit rows seen id = .error fault → Walks rows seen (some id) 1 (.error fault)
  | passed {seen : List (Item k)} {id : ItemId} {row : Item k} {n : Nat} {found : Except ChainFault (List (Item k))} :
      visit rows seen id = .ok row → Walks rows (row :: seen) row.next n found →
      Walks rows seen (some id) (n + 1) found

theorem any_id_iff : (seen.any (·.id == id)) = true ↔ id ∈ idsOf seen := by
  simp [idsOf]

theorem visit_of_mem (h : id ∈ idsOf seen) : visit rows seen id = .error (.cycle id) := by
  rw [visit]
  exact if_pos (any_id_iff.2 h)

theorem visit_of_not_mem (h : id ∉ idsOf seen) : visit rows seen id = match rows.find? (·.id == id) with
    | none => .error (.dangling ((seen.head?.map (·.id)).getD id) id)
    | some row =>
      if row.prev ≠ seen.head?.map (·.id) then
        .error (.brokenBacklink ((seen.head?.map (·.id)).getD id) id row.prev)
      else .ok row := by
  rw [visit]
  exact if_neg (any_id_iff.not.2 h)

/-- A row is passed if it was not seen yet and links back to the row seen last. -/
theorem visit_eq_ok_iff (hnd : (idsOf rows).Nodup) : visit rows seen id = .ok row ↔
    row ∈ rows ∧ row.id = id ∧ id ∉ idsOf seen ∧ row.prev = seen.head?.map (·.id) := by
  by_cases hseen : id ∈ idsOf seen
  · rw [visit_of_mem hseen]
    simp [hseen]
  rw [visit_of_not_mem hseen]
  constructor
  · intro h
    split at h
    · cases h
    next i hfind =>
      split at h
      · cases h
      next hprev =>
        obtain rfl := Except.ok.inj h
        exact ⟨List.mem_of_find?_eq_some hfind, by simpa using List.find?_some hfind, hseen, not_not.1 hprev⟩
  · rintro ⟨hmem, rfl, -, hprev⟩
    simp only [find?_id_of_mem hnd hmem]
    rw [if_neg (not_not.2 hprev)]

theorem walk_succ_eq_visit (rows : List (Item k)) (steps : Nat) (seen : List (Item k)) (id : ItemId) :
    walk rows (steps + 1) seen (some id) =
      (visit rows seen id).bind fun row => walk rows steps (row :: seen) row.next := by
  rw [walk_succ, visit]
  split
  · rfl
  · cases rows.find? (·.id == id) with
    | none => rfl
    | some row =>
      dsimp only
      split <;> rfl

/-- A walk that is given a step for each iteration comes to what it comes to without a bound. -/
theorem walk_of_walks {n : Nat} (h : Walks rows seen cursor n found) :
    ∀ {steps : Nat}, n ≤ steps → walk rows steps seen cursor = found := by
  induction h with
  | ended seen => intro steps _; rw [walk]
  | refused hvisit =>
    intro steps hsteps
    obtain ⟨steps, rfl⟩ := Nat.exists_eq_add_of_le' hsteps
    rw [walk_succ_eq_visit, hvisit]
    rfl
  | passed hvisit _ ih =>
    intro steps hsteps
    obtain ⟨steps, rfl⟩ := Nat.exists_eq_add_of_le' (Nat.le_of_add_left_le hsteps)
    rw [walk_succ_eq_visit, hvisit]
    exact ih (by omega)

/-- **A step for each row is enough.** Once every row was seen, a walk meets none that it could pass. -/
theorem walk_enough (hnd : (idsOf rows).Nodup) : ∀ {steps : Nat} {seen : List (Item k)} {cursor : Option ItemId},
    seen ⊆ rows → (idsOf seen).Nodup → rows.length ≤ seen.length + steps →
    walk rows (steps + 1) seen cursor = walk rows steps seen cursor
  | _, _, none, _, _, _ => by rw [walk, walk]
  | 0, seen, some id, hsub, hseen, hlen => by
    have hall : rows.Perm seen :=
      (((List.Nodup.of_map _ hseen).subperm hsub).perm_of_length_le hlen).symm
    rw [walk_succ, walk_zero]
    split
    · rfl
    next hnew =>
      have hnone : rows.find? (·.id == id) = none := by
        rw [find?_id_eq_none, (hall.map (·.id)).mem_iff]
        exact any_id_iff.not.1 hnew
      rw [hnone]
  | steps + 1, seen, some id, hsub, hseen, hlen => by
    rw [walk_succ_eq_visit, walk_succ_eq_visit]
    cases hvisit : visit rows seen id with
    | error fault => rfl
    | ok row =>
      obtain ⟨hmem, rfl, hnew, -⟩ := (visit_eq_ok_iff hnd).1 hvisit
      exact walk_enough hnd (List.cons_subset.2 ⟨hmem, hsub⟩) (List.nodup_cons.2 ⟨hnew, hseen⟩)
        (by rw [List.length_cons]; omega)

theorem walk_eq_of_walks {n : Nat} (hnd : (idsOf rows).Nodup) (h : Walks rows [] cursor n found) :
    walk rows rows.length [] cursor = found := by
  have hmore : ∀ extra, walk rows (rows.length + extra) [] cursor = walk rows rows.length [] cursor := by
    intro extra
    induction extra with
    | zero => rfl
    | succ extra ih =>
      rw [← ih]
      exact walk_enough hnd (List.nil_subset _) List.nodup_nil (by simp)
  rw [← hmore n]
  exact walk_of_walks h (Nat.le_add_left _ _)

/-! ## Trails -/

/-- Different rows, the first of them without a predecessor, of which each names the next one and is named back. -/
structure Trail (rows trail : List (Item k)) : Prop where
  subset : trail ⊆ rows
  nodup : trail.Nodup
  starts : ∃ head, trail.head? = some head ∧ head.prev = none
  adjacent : trail.IsChain fun i j => i.next = some j.id ∧ j.prev = some i.id

/-- A trail than which none is longer. -/
def Longest (rows trail : List (Item k)) : Prop :=
  Trail rows trail ∧ ∀ other, Trail rows other → other.length ≤ trail.length

theorem Trail.length_le (h : Trail rows trail) : trail.length ≤ rows.length :=
  (h.nodup.subperm h.subset).length_le

theorem Trail.idsOf_nodup (h : Trail rows trail) (hnd : (idsOf rows).Nodup) : (idsOf trail).Nodup :=
  h.nodup.map_on fun _ hi _ hj hid => eq_of_id_eq hnd (h.subset hi) (h.subset hj) hid

theorem trail_singleton : Trail rows [row] ↔ row ∈ rows ∧ row.prev = none := by
  constructor
  · intro h
    obtain ⟨head, hhead, hprev⟩ := h.starts
    obtain rfl := Option.some.inj hhead
    exact ⟨h.subset (List.mem_singleton_self _), hprev⟩
  · rintro ⟨hmem, hprev⟩
    exact ⟨by simpa using hmem, List.nodup_singleton _, ⟨row, rfl, hprev⟩, List.isChain_singleton _⟩

theorem head?_concat_of_getLast? (hlast : trail.getLast? = some last) (row : Item k) :
    (trail ++ [row]).head? = trail.head? := by
  cases trail with
  | nil => cases hlast
  | cons i rest => rfl

theorem mem_idsOf_reverse : id ∈ idsOf trail.reverse ↔ id ∈ idsOf trail := by
  rw [idsOf, List.map_reverse, List.mem_reverse]

/-- A row behind a trail makes a longer one if it is not in it, is named by the last row and names that one back. -/
theorem trail_concat (hlast : trail.getLast? = some last) : Trail rows (trail ++ [row]) ↔
    Trail rows trail ∧ row ∈ rows ∧ row ∉ trail ∧ last.next = some row.id ∧ row.prev = some last.id := by
  have hhead := head?_concat_of_getLast? hlast row
  constructor
  · intro h
    obtain ⟨hchain, -, hmeet⟩ := List.isChain_append.1 h.adjacent
    obtain ⟨hnd, -, hnew⟩ := List.nodup_append.1 h.nodup
    obtain ⟨hnext, hprev⟩ := hmeet last hlast row rfl
    refine ⟨⟨fun i hi => h.subset (List.mem_append_left _ hi), hnd, hhead ▸ h.starts, hchain⟩,
      h.subset (by simp), fun hmem => ?_, hnext, hprev⟩
    exact hnew row hmem row (List.mem_singleton_self _) rfl
  · rintro ⟨h, hmem, hnew, hnext, hprev⟩
    refine ⟨?_, ?_, hhead ▸ h.starts, ?_⟩
    · exact List.append_subset.2 ⟨h.subset, by simpa using hmem⟩
    · refine List.nodup_append.2 ⟨h.nodup, List.nodup_singleton _, fun i hi j hj => ?_⟩
      rw [List.mem_singleton.1 hj]
      exact ne_of_mem_of_not_mem hi hnew
    · refine List.isChain_append.2 ⟨h.adjacent, List.isChain_singleton _, ?_⟩
      intro i hi j hj
      obtain rfl := Option.some.inj (hlast.symm.trans hi)
      obtain rfl := Option.some.inj hj
      exact ⟨hnext, hprev⟩

/-- A trail grows from its first row by one row after the other. -/
theorem Trail.growing {motive : ∀ trail : List (Item k), Trail rows trail → Prop}
    (single : ∀ {row : Item k} (h : Trail rows [row]), motive [row] h)
    (concat : ∀ {trail : List (Item k)} {last row : Item k} (_ : trail.getLast? = some last)
      (before : Trail rows trail) (h : Trail rows (trail ++ [row])), motive trail before → motive (trail ++ [row]) h)
    {trail : List (Item k)} (h : Trail rows trail) : motive trail h := by
  induction trail using List.reverseRecOn with
  | nil =>
    obtain ⟨head, hhead, -⟩ := h.starts
    cases hhead
  | append_singleton trail row ih =>
    cases hlast : trail.getLast? with
    | none =>
      obtain rfl := List.getLast?_eq_none_iff.1 hlast
      exact single h
    | some last => exact concat hlast ((trail_concat hlast).1 h).1 h (ih _)

/-- **A walk follows a trail**: it passes each of its rows in one iteration and goes on after the last. -/
theorem Trail.walks (h : Trail rows trail) (hnd : (idsOf rows).Nodup) : ∀ {head last : Item k} {n : Nat}
    {found : Except ChainFault (List (Item k))}, trail.head? = some head → trail.getLast? = some last →
    Walks rows trail.reverse last.next n found → Walks rows [] (some head.id) (n + trail.length) found := by
  induction h using Trail.growing with
  | single h =>
    intro head last n found hhead hlast hwalks
    obtain ⟨hmem, hprev⟩ := trail_singleton.1 h
    obtain rfl := Option.some.inj hhead
    obtain rfl := Option.some.inj hlast
    exact .passed ((visit_eq_ok_iff hnd).2 ⟨hmem, rfl, List.not_mem_nil, hprev⟩) hwalks
  | @concat trail before row hbefore _ h ih =>
    intro head last n found hhead hlast hwalks
    obtain ⟨-, hmem, -, hnext, hprev⟩ := (trail_concat hbefore).1 h
    rw [head?_concat_of_getLast? hbefore] at hhead
    rw [List.getLast?_concat] at hlast
    obtain rfl := Option.some.inj hlast
    have hnew : row.id ∉ idsOf trail := (not_mem_of_split (h.idsOf_nodup hnd)).1
    have hvisit : visit rows trail.reverse row.id = .ok row := by
      rw [visit_eq_ok_iff hnd, List.head?_reverse, hbefore]
      exact ⟨hmem, rfl, mem_idsOf_reverse.not.2 hnew, hprev⟩
    rw [List.reverse_append] at hwalks
    rw [List.length_append, List.length_singleton, ← Nat.add_assoc, Nat.add_right_comm]
    exact ih hhead hbefore (hnext ▸ .passed hvisit hwalks)

/-! ## The longest trail -/

/-- Of two trails from the only row without a predecessor the shorter is the start of the other. -/
theorem Trail.isPrefix {head : Item k} (h : Trail rows trail) (hnd : (idsOf rows).Nodup)
    (hhead : ∀ i ∈ rows, i.prev = none → i = head) :
    ∀ {other : List (Item k)}, Trail rows other → trail.length ≤ other.length → trail <+: other := by
  induction h using Trail.growing with
  | @single row h =>
    intro other hother _
    obtain ⟨hmem, hprev⟩ := trail_singleton.1 h
    obtain ⟨first, hfirst, hnone⟩ := hother.starts
    obtain ⟨rest, rfl⟩ := List.head?_eq_some_iff.1 hfirst
    rw [hhead row hmem hprev, hhead first (hother.subset List.mem_cons_self) hnone]
    exact ⟨rest, rfl⟩
  | @concat trail last row hlast _ h ih =>
    intro other hother hlen
    rw [List.length_append, List.length_singleton] at hlen
    obtain ⟨-, hmem, -, hnext, -⟩ := (trail_concat hlast).1 h
    obtain ⟨rest, rfl⟩ := ih hother (by omega)
    cases rest with
    | nil => rw [List.append_nil] at hlen; omega
    | cons i rest =>
      obtain ⟨hi, -⟩ := (List.isChain_append.1 hother.adjacent).2.2 last hlast i rfl
      have hid : row.id = i.id := Option.some.inj (hnext.symm.trans hi)
      rw [eq_of_id_eq hnd hmem (hother.subset (by simp)) hid]
      exact ⟨rest, by simp⟩

theorem Longest.unique {head : Item k} {other : List (Item k)} (h : Longest rows trail) (hother : Longest rows other)
    (hnd : (idsOf rows).Nodup) (hhead : ∀ i ∈ rows, i.prev = none → i = head) : other = trail := by
  have hlen : other.length = trail.length := Nat.le_antisymm (h.2 other hother.1) (hother.2 trail h.1)
  exact (hother.1.isPrefix hnd hhead h.1 (Nat.le_of_eq hlen)).eq_of_length hlen

theorem exists_longest {trail : List (Item k)} (h : Trail rows trail) : ∃ longest, Longest rows longest := by
  by_cases hlonger : ∃ other, Trail rows other ∧ trail.length < other.length
  · obtain ⟨other, hother, hlt⟩ := hlonger
    have := hother.length_le
    exact exists_longest hother
  · exact ⟨trail, h, fun other hother => Nat.le_of_not_lt fun hlt => hlonger ⟨other, hother, hlt⟩⟩
termination_by rows.length - trail.length

/-- A row that the last row of a longest trail names does not name it back, unless it is in the trail. -/
theorem Longest.prev_ne (h : Longest rows trail) (hlast : trail.getLast? = some last) (hmem : row ∈ rows)
    (hnew : row ∉ trail) (hnext : last.next = some row.id) : row.prev ≠ some last.id := by
  intro hprev
  have hlonger := h.2 _ ((trail_concat hlast).2 ⟨h.1, hmem, hnew, hnext, hprev⟩)
  rw [List.length_append, List.length_singleton] at hlonger
  omega

end ExampleOverlay.Chain
