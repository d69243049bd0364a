import ExampleOverlay.Proofs.Chain.Linked

/-!
# What the walk accepts

Rows of an example are accepted exactly when they can be arranged into linked rows, and the chain
found is that arrangement, in whatever order the rows came. Main statement: `ofRows_eq_ok_iff`.

The walk is followed by the rows it has `seen`, latest first: what is still to come is a segment that
links back to the head of `seen`.
-/

namespace ExampleOverlay.Chain

variable {k : Kind}

/-! ## Rows of distinct ids -/

theorem latest_sublist : ∀ rows : List (Item k), (latest rows).Sublist rows
  | [] => .slnil
  | i :: rest => by
    rw [latest]
    split
    · exact (latest_sublist rest).cons i
    · exact (latest_sublist rest).cons_cons i

theorem latest_eq_self : ∀ {rows : List (Item k)}, (idsOf rows).Nodup → latest rows = rows
  | [], _ => rfl
  | i :: rest, h => by
    simp only [idsOf, List.map_cons, List.nodup_cons] at h
    have hi : rest.any (·.id == i.id) = false := by
      rw [List.any_eq_false]
      intro j hj hid
      exact h.1 (List.mem_map.2 ⟨j, hj, by simpa using hid⟩)
    rw [latest, hi, latest_eq_self h.2]
    simp

/-! ## A walk that succeeds -/

theorem walk_zero (rows seen : List (Item k)) (id : ItemId) : walk rows 0 seen (some id) =
    if seen.any (·.id == id) then .error (.cycle id)
    else .error (.dangling ((seen.head?.map (·.id)).getD id) id) := by
  unfold walk
  cases rows.find? (·.id == id) <;> rfl

theorem walk_succ (rows : List (Item k)) (steps : Nat) (seen : List (Item k)) (id : ItemId) :
    walk rows (steps + 1) seen (some id) =
      if seen.any (·.id == id) then .error (.cycle id)
      else match rows.find? (·.id == id) with
        | none => .error (.dangling ((seen.head?.map (·.id)).getD id) id)
        | some row =>
          if row.prev ≠ seen.head?.map (·.id) then
            .error (.brokenBacklink ((seen.head?.map (·.id)).getD id) id row.prev)
          else walk rows steps (row :: seen) row.next := by
  rw [walk.eq_def]
  dsimp only
  cases rows.find? (·.id == id) <;> rfl

/-- The rows that a walk adds to those it has seen are linked to them and have new ids. -/
theorem walk_spec {rows : List (Item k)} : ∀ {steps : Nat} {seen : List (Item k)} {cursor : Option ItemId}
    {items : List (Item k)}, walk rows steps seen cursor = .ok items →
    ∃ rest, items = seen.reverse ++ rest ∧ (∀ i ∈ rest, i ∈ rows) ∧
      segment (seen.head?.map (·.id)) none rest = rest ∧ rest.head?.map (·.id) = cursor ∧
      (idsOf rest).Nodup ∧ ∀ i ∈ rest, i.id ∉ idsOf seen
  | _, seen, none, items, h => by
    rw [walk] at h
    exact ⟨[], by cases h; simp, by simp, rfl, rfl, List.nodup_nil, by simp⟩
  | 0, seen, some id, items, h => by
    rw [walk_zero] at h
    split at h <;> simp at h
  | steps + 1, seen, some id, items, h => by
    rw [walk_succ] at h
    split at h
    · simp at h
    next hseen =>
      split at h
      · simp at h
      next row hfind =>
        split at h
        · simp at h
        next hback =>
          obtain ⟨rest, rfl, hmem, hseg, hcur, hnd, hnew⟩ := walk_spec h
          have hid : row.id = id := by simpa using List.find?_some hfind
          have hprev : row.prev = seen.head?.map (·.id) := by simpa using hback
          refine ⟨row :: rest, by simp, ?_, ?_, by simp [hid], ?_, ?_⟩
          · intro i hi
            rcases List.mem_cons.1 hi with rfl | hi
            · exact List.mem_of_find?_eq_some hfind
            · exact hmem i hi
          · rw [segment, Option.or_none, hcur, ← hprev]
            exact congrArg (row :: ·) hseg
          · refine List.nodup_cons.2 ⟨fun hr => ?_, hnd⟩
            obtain ⟨j, hj, hji⟩ := List.mem_map.1 hr
            exact hnew j hj (by simp [hji])
          · intro i hi
            rcases List.mem_cons.1 hi with rfl | hi
            · intro hs
              obtain ⟨j, hj, hji⟩ := List.mem_map.1 hs
              exact hseen (List.any_eq_true.2 ⟨j, hj, by simp [hji, hid]⟩)
            · exact fun hs => hnew i hi (by simp only [List.map_cons, List.mem_cons]; exact Or.inr hs)

/-- A walk along linked rows finds them, given a step for each. -/
theorem walk_of_linked {rows : List (Item k)} (hrows : (idsOf rows).Nodup) :
    ∀ (rest seen : List (Item k)) (steps : Nat), (∀ i ∈ rest, i ∈ rows) →
      segment (seen.head?.map (·.id)) none rest = rest → (idsOf (rest ++ seen)).Nodup → rest.length ≤ steps →
      walk rows steps seen (rest.head?.map (·.id)) = .ok (seen.reverse ++ rest)
  | [], seen, steps, _, _, _, _ => by simp [walk]
  | i :: rest, seen, 0, _, _, _, hs => by simp at hs
  | i :: rest, seen, steps + 1, hmem, hseg, hnd, hs => by
    rw [segment, Option.or_none, List.cons.injEq] at hseg
    have hprev : i.prev = seen.head?.map (·.id) := by rw [← hseg.1]
    have hnext : i.next = rest.head?.map (·.id) := by rw [← hseg.1]
    have hnew : seen.any (·.id == i.id) = false := by
      simp only [idsOf, List.cons_append, List.map_cons, List.nodup_cons] at hnd
      rw [List.any_eq_false]
      intro j hj hid
      exact hnd.1 (List.mem_map.2 ⟨j, List.mem_append_right _ hj, by simpa using hid⟩)
    have hfind : rows.find? (·.id == i.id) = some i := find?_id_of_mem hrows (hmem i (by simp))
    have hnd' : (idsOf (rest ++ i :: seen)).Nodup := by
      refine (List.Perm.nodup_iff (List.Perm.map _ ?_)).1 hnd
      exact List.perm_middle.symm
    have ih := walk_of_linked hrows rest (i :: seen) steps
      (fun j hj => hmem j (List.mem_cons_of_mem _ hj)) hseg.2 hnd' (by simpa using hs)
    rw [List.head?_cons, Option.map_some, walk_succ, hnew, hfind]
    simp only [Bool.false_eq_true, if_false, hprev, ne_eq, not_true_eq_false, hnext]
    rw [ih]
    simp

/-! ## Chains -/

/-- In linked rows only the first has no predecessor. -/
theorem Linked.filter_isHead {i : Item k} {rest : List (Item k)} (h : Linked (i :: rest)) :
    (i :: rest).filter Item.isHead = [i] := by
  have hseg := h.segment_eq
  rw [segment, Option.or_none, List.cons.injEq] at hseg
  have hi : i.isHead = true := by rw [Item.isHead, ← hseg.1]; rfl
  have hrest : ∀ j ∈ rest, j.isHead = false := by
    intro j hj
    obtain ⟨a, b, rfl⟩ := List.append_of_mem hj
    have hs := hseg.2
    rw [segment_append] at hs
    obtain ⟨-, hs⟩ := List.append_inj hs (by simp)
    rw [segment, List.cons.injEq] at hs
    rw [Item.isHead, ← hs.1]
    cases a.getLast? <;> rfl
  rw [List.filter_cons_of_pos hi, List.filter_eq_nil_iff.2 (by simpa using hrest)]

theorem latest_ne_nil : ∀ {rows : List (Item k)}, rows ≠ [] → latest rows ≠ []
  | [], h => absurd rfl h
  | i :: rest, _ => by
    rw [latest]
    split
    next hany =>
      -- the rest has a row of that id
      refine latest_ne_nil ?_
      rintro rfl
      cases hany
    · exact List.cons_ne_nil _ _

/-- A walk from the start that visits as many rows as there are has arranged all of them. -/
theorem linked_of_walk {rows items : List (Item k)} {steps : Nat} {id : Option ItemId}
    (h : walk (latest rows) steps [] id = .ok items) (hlen : items.length = rows.length) :
    items.Perm rows ∧ Linked items := by
  obtain ⟨rest, hitems, hmem, hseg, -, hnd, -⟩ := walk_spec h
  obtain rfl : items = rest := by simpa using hitems
  have hsub : items.Subperm (latest rows) := (List.Nodup.of_map _ hnd).subperm hmem
  have hperm : items.Perm rows :=
    (hsub.trans (latest_sublist rows).subperm).perm_of_length_le (Nat.le_of_eq hlen.symm)
  exact ⟨hperm, by rw [link_eq_segment]; exact hseg, hnd⟩

variable {owner : ExampleId} {version : Nat} {rows : List (Item k)}

theorem linked_of_ofRows {c : Chain k} (h : ofRows owner version rows = .ok c) :
    c.owner = owner ∧ c.version = version ∧ c.items.Perm rows ∧ Linked c.items ∧
      ∀ i ∈ rows, i.owner = owner := by
  unfold ofRows at h
  split at h
  · cases h
  next hforeign =>
    have howner : ∀ i ∈ rows, i.owner = owner := by simpa using hforeign
    dsimp only at h
    split at h
    next hlatest =>
      cases h
      have hrows : rows = [] := by
        by_contra hne
        exact latest_ne_nil hne hlatest
      exact ⟨rfl, rfl, by rw [hrows], .nil, howner⟩
    · cases h
    next head _ hheads =>
      cases hwalk : walk (latest rows) (latest rows).length [] (some head.id) with
      | error e => rw [hwalk] at h; cases h
      | ok items =>
        rw [hwalk] at h
        simp only [bind, Except.bind] at h
        split at h
        · cases h
        next hlen =>
          cases h
          obtain ⟨hperm, hlinked⟩ := linked_of_walk hwalk (not_not.1 hlen)
          exact ⟨rfl, rfl, hperm, hlinked, howner⟩
    · cases h

theorem ofRows_of_linked {items : List (Item k)} (hperm : items.Perm rows) (hlinked : Linked items)
    (howner : ∀ i ∈ rows, i.owner = owner) :
    ofRows owner version rows = .ok { owner := owner, version := version, items := items } := by
  have hnd : (idsOf rows).Nodup := ((hperm.map (·.id)).nodup_iff).1 hlinked.nodup
  have hforeign : rows.find? (·.owner != owner) = none := by simpa using howner
  unfold ofRows
  rw [hforeign]
  simp only [latest_eq_self hnd]
  cases items with
  | nil =>
    rw [List.nil_perm.1 hperm]
  | cons i rest =>
    obtain ⟨j, rows', rfl⟩ : ∃ j rows', rows = j :: rows' := by
      cases rows with
      | nil => exact absurd hperm.symm (List.nil_perm.not.2 (List.cons_ne_nil _ _))
      | cons j rows' => exact ⟨j, rows', rfl⟩
    have hheads : (j :: rows').filter Item.isHead = [i] := by
      have := hperm.filter Item.isHead
      rw [hlinked.filter_isHead] at this
      exact (List.singleton_perm.1 this).symm
    have hwalk := walk_of_linked hnd (i :: rest) [] (j :: rows').length
      (fun x hx => hperm.subset hx) hlinked.segment_eq (by simpa using hlinked.nodup)
      (Nat.le_of_eq hperm.length_eq)
    rw [hheads]
    rw [List.head?_cons, Option.map_some] at hwalk
    simp only [hwalk, bind, Except.bind, List.reverse_nil, List.nil_append, hperm.length_eq, ne_eq,
      not_true_eq_false, if_false]

/-- **Rows are accepted exactly when they can be arranged into linked rows of the example**, and the
chain found is that arrangement. -/
theorem ofRows_eq_ok_iff {c : Chain k} :
    ofRows owner version rows = .ok c ↔
      c.owner = owner ∧ c.version = version ∧ c.items.Perm rows ∧ Linked c.items ∧
        ∀ i ∈ rows, i.owner = owner := by
  refine ⟨linked_of_ofRows, ?_⟩
  rintro ⟨rfl, rfl, hperm, hlinked, howner⟩
  exact ofRows_of_linked hperm hlinked howner

end ExampleOverlay.Chain
