import ExampleOverlay.Proofs.Chain.Trail

/-!
# What is wrong with rows

Rows that make no chain are refused with a fault, and their links alone decide which one (`ofRows_links`). If just one
of them has no predecessor, the successor of the last row of the longest trail tells it: the rules are those of
`Diagnosis`, one for each fault. Main statement: `ofRows_diagnoses`.
-/

namespace ExampleOverlay

variable {k : Kind}

/-- The id of a row and those of its neighbours. -/
def Item.links (i : Item k) : ItemId × Option ItemId × Option ItemId := (i.id, i.prev, i.next)

namespace Chain

variable {rows trail : List (Item k)} {id : ItemId} {row last : Item k} {found : Except ChainFault (List (Item k))}

/-! ## The fault that is found -/

/-- The walk along these rows ends at the last row of this trail. -/
structure EndsAt (rows trail : List (Item k)) (last : Item k) : Prop where
  head : rows.countP Item.isHead = 1
  longest : Longest rows trail
  last : trail.getLast? = some last

/-- What is wrong with the rows of an example, one rule for each fault. -/
inductive Diagnosis (rows : List (Item k)) : ChainFault → Prop
  | noHead : (∀ i ∈ rows, i.prev ≠ none) → Diagnosis rows (.noHead rows.length)
  | multipleHeads : 2 ≤ rows.countP Item.isHead → Diagnosis rows (.multipleHeads (rows.countP Item.isHead))
  | cycle {trail : List (Item k)} {last : Item k} {id : ItemId} :
      EndsAt rows trail last → last.next = some id → id ∈ idsOf trail → Diagnosis rows (.cycle id)
  | dangling {trail : List (Item k)} {last : Item k} {id : ItemId} :
      EndsAt rows trail last → last.next = some id → id ∉ idsOf rows → Diagnosis rows (.dangling last.id id)
  | brokenBacklink {trail : List (Item k)} {last row : Item k} :
      EndsAt rows trail last → last.next = some row.id → row ∈ rows → row ∉ trail →
      Diagnosis rows (.brokenBacklink last.id row.id row.prev)
  | unreached {trail : List (Item k)} {last : Item k} :
      EndsAt rows trail last → last.next = none → trail.length < rows.length →
      Diagnosis rows (.unreached trail.length rows.length)

/-- The last check of a scan: the walk has to have seen every row. -/
def covering (owner : ExampleId) (version total : Nat) (items : List (Item k)) : Except ChainFault (Chain k) :=
  if items.length ≠ total then .error (.unreached items.length total) else .ok ⟨owner, version, items⟩

variable {owner : ExampleId} {version : Nat}

/-- Rows of one example with distinct ids are walked along if one of them has no predecessor. -/
theorem ofRows_of_distinct (hne : rows ≠ []) (hnd : (idsOf rows).Nodup) (howner : ∀ i ∈ rows, i.owner = owner) :
    ofRows owner version rows = match rows.filter Item.isHead with
      | [] => .error (.noHead rows.length)
      | [head] => (walk rows rows.length [] (some head.id)).bind (covering owner version rows.length)
      | heads => .error (.multipleHeads heads.length) := by
  have hforeign : rows.find? (·.owner != owner) = none := by simpa using howner
  unfold ofRows
  rw [hforeign]
  simp only [latest_eq_self hnd]
  cases rows with
  | nil => exact absurd rfl hne
  | cons i rest =>
    rcases (i :: rest).filter Item.isHead with _ | ⟨head, _ | ⟨second, others⟩⟩ <;> rfl

theorem filter_isHead_eq_nil_iff : rows.filter Item.isHead = [] ↔ ∀ i ∈ rows, i.prev ≠ none := by
  rw [List.filter_eq_nil_iff]
  simp [Item.isHead]

theorem mem_filter_isHead : row ∈ rows.filter Item.isHead ↔ row ∈ rows ∧ row.prev = none := by
  rw [List.mem_filter, Item.isHead, Option.isNone_iff_eq_none]

/-- Where one row has no predecessor, a walk that ends from there on decides. -/
theorem ofRows_of_walks {head : Item k} {n : Nat} (hnd : (idsOf rows).Nodup) (howner : ∀ i ∈ rows, i.owner = owner)
    (hheads : rows.filter Item.isHead = [head]) (h : Walks rows [] (some head.id) n found) :
    ofRows owner version rows = found.bind (covering owner version rows.length) := by
  have hne : rows ≠ [] := by
    rintro rfl
    cases hheads
  rw [ofRows_of_distinct hne hnd howner, hheads, ← walk_eq_of_walks hnd h]

/-- What the last row of a trail shows in the next iteration is what the walk along the trail comes to. -/
theorem EndsAt.ofRows_eq {n : Nat} (h : EndsAt rows trail last) (hnd : (idsOf rows).Nodup)
    (howner : ∀ i ∈ rows, i.owner = owner) (hwalks : Walks rows trail.reverse last.next n found) :
    ofRows owner version rows = found.bind (covering owner version rows.length) := by
  obtain ⟨head, hhead, hprev⟩ := h.longest.1.starts
  have hmem : head ∈ rows.filter Item.isHead :=
    mem_filter_isHead.2 ⟨h.longest.1.subset (List.mem_of_mem_head? hhead), hprev⟩
  obtain ⟨only, honly⟩ := List.length_eq_one_iff.1 (List.countP_eq_length_filter.symm.trans h.head)
  obtain rfl : head = only := by simpa [honly] using hmem
  exact ofRows_of_walks hnd howner honly (h.longest.1.walks hnd hhead h.last hwalks)

theorem EndsAt.head?_reverse (h : EndsAt rows trail last) : trail.reverse.head?.map (·.id) = some last.id := by
  rw [List.head?_reverse, h.last, Option.map_some]

/-- The walk beyond the last row of a longest trail ends in the next iteration. -/
theorem EndsAt.visit_eq (h : EndsAt rows trail last) (id : ItemId) : visit rows trail.reverse id =
    if id ∈ idsOf trail then .error (.cycle id)
    else match rows.find? (·.id == id) with
      | none => .error (.dangling last.id id)
      | some row => if row.prev ≠ some last.id then .error (.brokenBacklink last.id id row.prev) else .ok row := by
  split
  next hmem => exact visit_of_mem (mem_idsOf_reverse.2 hmem)
  next hmem =>
    rw [visit_of_not_mem (mem_idsOf_reverse.not.2 hmem), h.head?_reverse]
    rfl

theorem EndsAt.not_mem_trail (h : EndsAt rows trail last) (hnd : (idsOf rows).Nodup) (hmem : row ∈ rows)
    (hnew : row ∉ trail) : row.id ∉ idsOf trail := by
  intro hid
  obtain ⟨i, hi, hii⟩ := List.mem_map.1 hid
  exact hnew (eq_of_id_eq hnd (h.longest.1.subset hi) hmem hii ▸ hi)

theorem EndsAt.ofRows_eq_error {fault : ChainFault} (h : EndsAt rows trail last) (hnd : (idsOf rows).Nodup)
    (howner : ∀ i ∈ rows, i.owner = owner) (hnext : last.next = some id)
    (hvisit : visit rows trail.reverse id = .error fault) : ofRows owner version rows = .error fault := by
  have hwalks : Walks rows trail.reverse last.next 1 (.error fault) := hnext ▸ .refused hvisit
  exact h.ofRows_eq hnd howner hwalks

theorem EndsAt.ofRows_of_next_none (h : EndsAt rows trail last) (hnd : (idsOf rows).Nodup)
    (howner : ∀ i ∈ rows, i.owner = owner) (hnext : last.next = none) :
    ofRows owner version rows = covering owner version rows.length trail := by
  have hended : Walks rows trail.reverse none 0 (.ok trail.reverse.reverse) := .ended _
  rw [List.reverse_reverse] at hended
  exact h.ofRows_eq hnd howner (hnext ▸ hended)

/-- **A fault that a rule gives is found.** -/
theorem ofRows_of_diagnosis {fault : ChainFault} (hne : rows ≠ []) (hnd : (idsOf rows).Nodup)
    (howner : ∀ i ∈ rows, i.owner = owner) (h : Diagnosis rows fault) : ofRows owner version rows = .error fault := by
  cases h with
  | noHead hnone => rw [ofRows_of_distinct hne hnd howner, filter_isHead_eq_nil_iff.2 hnone]
  | multipleHeads hmany =>
    rw [List.countP_eq_length_filter] at hmany ⊢
    rw [ofRows_of_distinct hne hnd howner]
    generalize rows.filter Item.isHead = heads at hmany ⊢
    match heads, hmany with
    | _ :: _ :: _, _ => rfl
  | @cycle trail last id hends hnext hid =>
    refine hends.ofRows_eq_error hnd howner hnext ?_
    rw [hends.visit_eq, if_pos hid]
  | @dangling trail last id hends hnext hid =>
    refine hends.ofRows_eq_error hnd howner hnext ?_
    have htrail : id ∉ idsOf trail := fun hmem => hid (List.map_subset _ hends.longest.1.subset hmem)
    rw [hends.visit_eq, if_neg htrail, find?_id_eq_none.2 hid]
  | @brokenBacklink trail last row hends hnext hmem hnew =>
    refine hends.ofRows_eq_error hnd howner hnext ?_
    have hprev := hends.longest.prev_ne hends.last hmem hnew hnext
    rw [hends.visit_eq, if_neg (hends.not_mem_trail hnd hmem hnew), find?_id_of_mem hnd hmem]
    exact if_pos hprev
  | unreached hends hnext hlt =>
    rw [hends.ofRows_of_next_none hnd howner hnext, covering, if_pos (Nat.ne_of_lt hlt)]

/-- Where a trail ends, a rule gives a fault, or the trail is the chain. -/
theorem EndsAt.diagnosis_or (h : EndsAt rows trail last) (hnd : (idsOf rows).Nodup)
    (howner : ∀ i ∈ rows, i.owner = owner) :
    (∃ fault, Diagnosis rows fault) ∨ ofRows owner version rows = .ok ⟨owner, version, trail⟩ := by
  cases hnext : last.next with
  | none =>
    rcases Nat.lt_or_eq_of_le h.longest.1.length_le with hlt | hall
    · exact Or.inl ⟨_, .unreached h hnext hlt⟩
    · right
      rw [h.ofRows_of_next_none hnd howner hnext, covering, if_neg (not_not.2 hall)]
  | some id =>
    left
    by_cases hid : id ∈ idsOf rows
    · obtain ⟨row, hmem, rfl⟩ := List.mem_map.1 hid
      by_cases htrail : row ∈ trail
      · exact ⟨_, .cycle h hnext (List.mem_map_of_mem htrail)⟩
      · exact ⟨_, .brokenBacklink h hnext hmem htrail⟩
    · exact ⟨_, .dangling h hnext hid⟩

theorem exists_endsAt {head : Item k} (hheads : rows.filter Item.isHead = [head]) :
    ∃ trail last, EndsAt rows trail last := by
  have hhead : head ∈ rows ∧ head.prev = none := by
    rw [← mem_filter_isHead, hheads]
    exact List.mem_singleton_self _
  obtain ⟨trail, hlongest⟩ := exists_longest (trail_singleton.2 hhead)
  cases hlast : trail.getLast? with
  | none =>
    obtain rfl := List.getLast?_eq_none_iff.1 hlast
    obtain ⟨first, hfirst, -⟩ := hlongest.1.starts
    cases hfirst
  | some last => exact ⟨trail, last, by rw [List.countP_eq_length_filter, hheads]; rfl, hlongest, hlast⟩

/-- **Each fault is found just where its rule gives it.** -/
theorem ofRows_eq_error_iff {fault : ChainFault} (hne : rows ≠ []) (hnd : (idsOf rows).Nodup)
    (howner : ∀ i ∈ rows, i.owner = owner) : ofRows owner version rows = .error fault ↔ Diagnosis rows fault := by
  refine ⟨fun h => ?_, ofRows_of_diagnosis hne hnd howner⟩
  have hfound : (∃ fault, Diagnosis rows fault) ∨ ∃ c : Chain k, ofRows owner version rows = .ok c := by
    rcases hheads : rows.filter Item.isHead with _ | ⟨head, _ | ⟨second, others⟩⟩
    · exact Or.inl ⟨_, .noHead (filter_isHead_eq_nil_iff.1 hheads)⟩
    · obtain ⟨trail, last, hends⟩ := exists_endsAt hheads
      exact (hends.diagnosis_or hnd howner).imp id fun hok => ⟨_, hok⟩
    · refine Or.inl ⟨_, .multipleHeads ?_⟩
      rw [List.countP_eq_length_filter, hheads, List.length_cons, List.length_cons]
      omega
  rcases hfound with ⟨fault', hfault'⟩ | ⟨c, hok⟩
  · have h' : ofRows owner version rows = .error fault' := ofRows_of_diagnosis hne hnd howner hfault'
    rw [h] at h'
    exact Except.error.inj h' ▸ hfault'
  · rw [h] at hok
    cases hok

/-- The walk ends in the iteration after the last row of the trail, or there. -/
theorem EndsAt.exists_walks (h : EndsAt rows trail last) (hnd : (idsOf rows).Nodup) :
    ∃ n ≤ 1, ∃ found, Walks rows trail.reverse last.next n found := by
  cases hnext : last.next with
  | none => exact ⟨0, Nat.zero_le _, _, .ended _⟩
  | some id =>
    cases hvisit : visit rows trail.reverse id with
    | error fault => exact ⟨1, Nat.le_refl _, _, .refused hvisit⟩
    | ok row =>
      obtain ⟨hmem, rfl, hnew, hprev⟩ := (visit_eq_ok_iff hnd).1 hvisit
      rw [h.head?_reverse] at hprev
      refine absurd hprev (h.longest.prev_ne h.last hmem (fun htrail => hnew ?_) hnext)
      exact List.mem_map_of_mem (List.mem_reverse.2 htrail)

/-! ## Links alone decide -/

variable {k' : Kind} {rows' : List (Item k')}

theorem idsOf_perm_of_links (h : (rows'.map Item.links).Perm (rows.map Item.links)) :
    (idsOf rows').Perm (idsOf rows) := by
  have := h.map Prod.fst
  rwa [List.map_map, List.map_map] at this

/-- Rows of the same links are looked up with the same links. -/
theorem find?_links (hnd : (idsOf rows).Nodup) (h : (rows'.map Item.links).Perm (rows.map Item.links)) (id : ItemId) :
    (rows'.find? (·.id == id)).map Item.links = (rows.find? (·.id == id)).map Item.links := by
  have hids := idsOf_perm_of_links h
  by_cases hid : id ∈ idsOf rows
  · obtain ⟨i, hi, rfl⟩ := List.mem_map.1 hid
    obtain ⟨j, hj, hji⟩ := List.mem_map.1 (h.mem_iff.2 (List.mem_map_of_mem hi))
    have hidj : j.id = i.id := congrArg Prod.fst hji
    rw [find?_id_of_mem hnd hi, ← hidj, find?_id_of_mem (hids.nodup_iff.2 hnd) hj]
    exact congrArg some hji
  · rw [find?_id_eq_none.2 hid, find?_id_eq_none.2 (hids.mem_iff.not.2 hid)]
    rfl

theorem filter_isHead_links (h : (rows'.map Item.links).Perm (rows.map Item.links)) :
    ((rows'.filter Item.isHead).map Item.links).Perm ((rows.filter Item.isHead).map Item.links) := by
  have := h.filter fun l => l.2.1.isNone
  rwa [List.filter_map, List.filter_map] at this

/-- At rows of the same links an iteration passes a row of the same links, or finds the same fault. -/
theorem visit_links {seen' : List (Item k')} {seen : List (Item k)}
    (h : ∀ id, (rows'.find? (·.id == id)).map Item.links = (rows.find? (·.id == id)).map Item.links)
    (hseen : idsOf seen' = idsOf seen) (id : ItemId) :
    (visit rows' seen' id).map Item.links = (visit rows seen id).map Item.links := by
  have hback : seen'.head?.map (·.id) = seen.head?.map (·.id) := by
    simpa [List.head?_map] using congrArg List.head? hseen
  by_cases hid : id ∈ idsOf seen
  · rw [visit_of_mem hid, visit_of_mem (hseen ▸ hid)]
    rfl
  rw [visit_of_not_mem hid, visit_of_not_mem (hseen ▸ hid), hback]
  have hfind := h id
  cases hrow' : rows'.find? (·.id == id) with
  | none =>
    rw [hrow', Option.map_none, eq_comm, Option.map_eq_none_iff] at hfind
    rw [hfind]
    rfl
  | some row' =>
    rw [hrow', Option.map_some, eq_comm, Option.map_eq_some_iff] at hfind
    obtain ⟨row, hrow, hlinks⟩ := hfind
    have hprev : row'.prev = row.prev := (congrArg (·.2.1) hlinks).symm
    rw [hrow]
    dsimp only
    rw [hprev]
    split
    · rfl
    · exact congrArg Except.ok hlinks.symm

/-- Along rows of the same links a walk comes to rows of the same ids, or to the same fault. -/
theorem walk_links (h : ∀ id, (rows'.find? (·.id == id)).map Item.links = (rows.find? (·.id == id)).map Item.links) :
    ∀ (steps : Nat) {seen' : List (Item k')} {seen : List (Item k)} (cursor : Option ItemId),
      idsOf seen' = idsOf seen →
      (walk rows' steps seen' cursor).map idsOf = (walk rows steps seen cursor).map idsOf
  | _, seen', seen, none, hseen => by
    rw [walk, walk, Except.map, Except.map, idsOf, List.map_reverse, idsOf, List.map_reverse]
    exact congrArg _ (congrArg _ hseen)
  | 0, seen', seen, some id, hseen => by
    have hback : seen'.head?.map (·.id) = seen.head?.map (·.id) := by
      simpa [List.head?_map] using congrArg List.head? hseen
    have hany : seen'.any (·.id == id) = seen.any (·.id == id) := by
      rw [Bool.eq_iff_iff, any_id_iff, any_id_iff, hseen]
    rw [walk_zero, walk_zero, hany, hback]
    split <;> rfl
  | steps + 1, seen', seen, some id, hseen => by
    rw [walk_succ_eq_visit, walk_succ_eq_visit]
    have hvisit := visit_links h hseen id
    generalize visit rows' seen' id = passed' at hvisit ⊢
    generalize visit rows seen id = passed at hvisit ⊢
    cases passed' with
    | error fault' =>
      cases passed with
      | error fault =>
        obtain rfl := Except.error.inj hvisit
        rfl
      | ok row => cases hvisit
    | ok row' =>
      cases passed with
      | error fault => cases hvisit
      | ok row =>
        have hlinks : row'.links = row.links := Except.ok.inj hvisit
        have hid : row'.id = row.id := congrArg Prod.fst hlinks
        have hnext : row'.next = row.next := congrArg (·.2.2) hlinks
        have hids : idsOf (row' :: seen') = idsOf (row :: seen) := by
          rw [idsOf, idsOf, List.map_cons, List.map_cons, hid]
          exact congrArg _ hseen
        rw [Except.bind, Except.bind, hnext]
        exact walk_links h steps row.next hids

variable {found' : Except ChainFault (List (Item k'))} {owner' : ExampleId} {version' : Nat}

/-- The last check counts the rows and reads nothing else of them. -/
theorem bind_covering_links (h : found'.map idsOf = found.map idsOf) (total : Nat) (fault : ChainFault) :
    found'.bind (covering owner' version' total) = .error fault ↔
      found.bind (covering owner version total) = .error fault := by
  match found', found, h with
  | .error _, .error _, h =>
    obtain rfl := Except.error.inj h
    simp only [Except.bind, Except.error.injEq]
  | .ok items', .ok items, h =>
    have hitems : items'.length = items.length := by simpa using congrArg List.length (Except.ok.inj h)
    simp only [Except.bind, covering, hitems]
    split <;> simp

/-- **Links decide**: rows of the same links are refused with the same fault, in whatever order they were scanned and
whatever else they say. -/
theorem ofRows_links (hne : rows ≠ []) (hnd : (idsOf rows).Nodup) (howner : ∀ i ∈ rows, i.owner = owner)
    (howner' : ∀ i ∈ rows', i.owner = owner') (h : (rows'.map Item.links).Perm (rows.map Item.links))
    (fault : ChainFault) :
    ofRows owner' version' rows' = .error fault ↔ ofRows owner version rows = .error fault := by
  have hlen : rows'.length = rows.length := by simpa using h.length_eq
  have hne' : rows' ≠ [] := by
    rintro rfl
    exact hne (List.length_eq_zero_iff.1 hlen.symm)
  have hnd' : (idsOf rows').Nodup := (idsOf_perm_of_links h).nodup_iff.2 hnd
  have hheads := filter_isHead_links h
  have hcount : (rows'.filter Item.isHead).length = (rows.filter Item.isHead).length := by
    simpa using hheads.length_eq
  rw [ofRows_of_distinct hne hnd howner, ofRows_of_distinct hne' hnd' howner', hlen]
  generalize rows.filter Item.isHead = heads at hheads hcount ⊢
  generalize rows'.filter Item.isHead = heads' at hheads hcount ⊢
  match heads, heads', hcount with
  | [], [], _ => simp only [Except.error.injEq]
  | [head], [head'], _ =>
    have hid : head'.id = head.id := congrArg Prod.fst (List.singleton_perm_singleton.1 hheads)
    dsimp only
    rw [hid]
    exact bind_covering_links (walk_links (find?_links hnd h) _ _ rfl) _ _
  | _ :: _ :: _, _ :: _ :: _, hcount => simp only [hcount, Except.error.injEq]

/-! ## Main statement -/

/-- **The fault that is found is exact.** Rows of an example with distinct ids are refused with a fault just where its
rule gives it; a walk from the only row without a predecessor ends after at most one iteration more than there are
rows; and the fault is that of any rows with the same links. -/
theorem ofRows_diagnoses (hne : rows ≠ []) (hnd : (idsOf rows).Nodup) (howner : ∀ i ∈ rows, i.owner = owner) :
    (∀ fault, ofRows owner version rows = .error fault ↔ Diagnosis rows fault) ∧
    (∀ head, rows.filter Item.isHead = [head] → (∃! trail, Longest rows trail) ∧
      ∃ n ≤ rows.length + 1, ∃ found, Walks rows [] (some head.id) n found ∧
        ofRows owner version rows = found.bind (covering owner version rows.length)) ∧
    ∀ (k' : Kind) (rows' : List (Item k')) (owner' : ExampleId) (version' : Nat), (∀ i ∈ rows', i.owner = owner') →
      (rows'.map Item.links).Perm (rows.map Item.links) →
      ∀ fault, ofRows owner' version' rows' = .error fault ↔ ofRows owner version rows = .error fault := by
  refine ⟨fun fault => ofRows_eq_error_iff hne hnd howner, fun head hheads => ?_,
    fun k' rows' owner' version' howner' hlinks => ofRows_links hne hnd howner howner' hlinks⟩
  have honly : ∀ i ∈ rows, i.prev = none → i = head := by
    intro i hi hprev
    have hmem := mem_filter_isHead.2 ⟨hi, hprev⟩
    rw [hheads] at hmem
    exact List.mem_singleton.1 hmem
  obtain ⟨trail, last, hends⟩ := exists_endsAt hheads
  refine ⟨⟨trail, hends.longest, fun other hother => hends.longest.unique hother hnd honly⟩, ?_⟩
  obtain ⟨first, hfirst, hprev⟩ := hends.longest.1.starts
  obtain rfl := honly first (hends.longest.1.subset (List.mem_of_mem_head? hfirst)) hprev
  obtain ⟨n, hn, found, hwalks⟩ := hends.exists_walks hnd
  have hlen := hends.longest.1.length_le
  exact ⟨n + trail.length, by omega, found, hends.longest.1.walks hnd hfirst hends.last hwalks,
    hends.ofRows_eq hnd howner hwalks⟩

/-- Three headers whose last one leads back to the second, and a fourth that nothing leads to. -/
def looping : List (Item .header) := [
  { Item.fresh ⟨3⟩ ⟨100⟩ (KeyValue.ofPair "c" "3") with prev := some ⟨1⟩, next := some ⟨2⟩ },
  { Item.fresh ⟨2⟩ ⟨100⟩ (KeyValue.ofPair "b" "2") with prev := some ⟨3⟩, next := some ⟨3⟩ },
  { Item.fresh ⟨4⟩ ⟨100⟩ (KeyValue.ofPair "d" "4") with prev := some ⟨2⟩, next := some ⟨3⟩ },
  { Item.fresh ⟨1⟩ ⟨100⟩ (KeyValue.ofPair "a" "1") with next := some ⟨3⟩ }]

theorem ofRows_diagnoses_looping : Diagnosis looping (.cycle ⟨3⟩) ∧ (∃! trail, Longest looping trail) ∧
    (∃ n ≤ 5, ∃ found, Walks looping [] (some ⟨1⟩) n found) ∧
    ofRows ⟨100⟩ 8 looping.reverse = .error (.cycle ⟨3⟩) := by
  have hcycle : ofRows ⟨100⟩ 7 looping = .error (.cycle ⟨3⟩) := rfl
  have howner : ∀ i ∈ looping, i.owner = ⟨100⟩ := by decide
  obtain ⟨hfault, hwalk, hlinks⟩ := @ofRows_diagnoses _ looping ⟨100⟩ 7 (by decide) (by decide) howner
  obtain ⟨htrail, n, hn, found, hwalks, -⟩ := hwalk _ rfl
  refine ⟨(hfault _).1 hcycle, htrail, ⟨n, hn, found, hwalks⟩, ?_⟩
  exact (hlinks _ _ _ _ (by decide) (looping.reverse_perm.map Item.links) _).2 hcycle

end Chain

end ExampleOverlay
