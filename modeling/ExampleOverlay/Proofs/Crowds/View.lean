import ExampleOverlay.Proofs.Runs.Editing

/-!
# One client among others

Among other clients a program is interrupted before every access. What its client can count on is a
`View`: what is stored now, which ids were ever stored, which ids are the client's own, and what it asked
so far. The others lead from a view to a `Later` one, and in return expect every commit of the client to
be a `Step`: lists stay in order, versions tell them apart, a row keeps its example and, where no row is
linked anew, keeps or loses its link, and rows are stored under new ids that are the client's own.
-/

namespace ExampleOverlay

/-- A request and what it was answered. -/
structure Access where
  request : Request
  answer : request.Answer

namespace Access

/-- A commit that went through. -/
def isApplied : Access → Bool
  | ⟨.commit _, none⟩ => true
  | _ => false

/-- What was scanned last. -/
def lastScan? : List Access → Option (Kind × ExampleId × Scan)
  | [] => none
  | ⟨.scan kind owner, scan⟩ :: _ => some (kind, owner, scan)
  | _ :: rest => lastScan? rest

end Access

/-- What one client can know. -/
structure View where
  session : Session
  /-- The ids under which rows were ever stored. -/
  used : Kind → ItemId → Prop
  /-- The ids under which only this client stores new rows. -/
  mine : List ItemId
  /-- What the client asked so far, the latest first. -/
  trace : List Access
  /-- Stored rows may be linked to other parents. -/
  relinks : Prop

namespace View

variable {α β : Type} {u v w : View} {k : Kind}

abbrev store (v : View) : Store := v.session.store

/-- How many commits of the client went through. -/
def applied (v : View) : Nat := v.trace.countP Access.isApplied

/-- Lists are in order, and what is stored is used. -/
structure Good (v : View) : Prop where
  ordered : v.store.Ordered
  used : ∀ {k id r}, v.store.get? k id = some r → v.used k id

/-! ## What anyone does -/

/-- Versions grow with every change of a list, ids are not used anew, and rows keep their examples and
may lose their links. -/
structure Grows (v w : View) : Prop where
  good : w.Good
  relinks : w.relinks = v.relinks
  used : ∀ {k id}, v.used k id → w.used k id
  versions : ∀ k owner, v.store.version k owner ≤ w.store.version k owner
  scans : ∀ {k owner}, w.store.version k owner = v.store.version k owner →
    w.store.scan k owner = v.store.scan k owner
  rows : ∀ {k id} {y : Item k}, v.used k id → w.store.item? k id = some y →
    ∃ x : Item k, v.store.item? k id = some x ∧ y.owner = x.owner ∧
      (v.relinks ∨ y.parent = x.parent ∨ y.parent = none)

theorem Grows.refl (h : v.Good) : v.Grows v where
  good := h
  relinks := rfl
  used h := h
  versions _ _ := Nat.le_refl _
  scans _ := rfl
  rows _ hy := ⟨_, hy, rfl, Or.inr (Or.inl rfl)⟩

theorem Grows.trans (h : u.Grows v) (h' : v.Grows w) : u.Grows w where
  good := h'.good
  relinks := h'.relinks.trans h.relinks
  used hu := h'.used (h.used hu)
  versions k owner := Nat.le_trans (h.versions k owner) (h'.versions k owner)
  scans {k owner} he := by
    have h₁ := h.versions k owner
    have h₂ := h'.versions k owner
    rw [h'.scans (by omega), h.scans (by omega)]
  rows hu hy := by
    obtain ⟨x, hx, ho, hp⟩ := h'.rows (h.used hu) hy
    obtain ⟨z, hz, ho', hp'⟩ := h.rows hu hx
    refine ⟨z, hz, ho.trans ho', ?_⟩
    rcases hp with hp | hp | hp
    · exact Or.inl (h.relinks ▸ hp)
    · rw [hp]; exact hp'
    · exact Or.inr (Or.inr hp)

/-- Nothing was stored by the client, and its own ids are still its own. -/
structure Waits (v w : View) : Prop extends Grows v w where
  mine : v.mine ⊆ w.mine
  unused : ∀ {k id}, id ∈ v.mine → ¬ v.used k id → ¬ w.used k id
  applied : w.applied = v.applied

theorem Waits.refl (h : v.Good) : v.Waits v := ⟨.refl h, List.Subset.refl _, fun _ h => h, rfl⟩

theorem Waits.trans (h : u.Waits v) (h' : v.Waits w) : u.Waits w where
  toGrows := h.toGrows.trans h'.toGrows
  mine := List.Subset.trans h.mine h'.mine
  unused hm hu := h'.unused (h.mine hm) (h.unused hm hu)
  applied := h'.applied.trans h.applied

/-- What other clients can do between two accesses. -/
structure Later (v w : View) : Prop extends Grows v w where
  mine : w.mine = v.mine
  trace : w.trace = v.trace
  unused : ∀ {k id}, id ∈ v.mine → ¬ v.used k id → ¬ w.used k id

theorem Later.refl (h : v.Good) : v.Later v := ⟨.refl h, rfl, rfl, fun _ h => h⟩

theorem Later.trans (h : u.Later v) (h' : v.Later w) : u.Later w where
  toGrows := h.toGrows.trans h'.toGrows
  mine := h'.mine.trans h.mine
  trace := h'.trace.trans h.trace
  unused hm hu := h'.unused (h.mine ▸ hm) (h.unused hm hu)

theorem Later.waits (h : v.Later w) : v.Waits w where
  toGrows := h.toGrows
  mine := by rw [h.mine]; exact List.Subset.refl _
  unused := h.unused
  applied := by rw [View.applied, View.applied, h.trace]

/-- What is outside the tables is nothing that a client counts on. -/
theorem later_of_tables_eq (hv : v.Good) {s : Session} (h : s.store.tables = v.store.tables) :
    v.Later { v with session := s } := by
  have ht : s.store.table = v.store.table := funext fun k => congrArg (·.get k) h
  have hget : ∀ k id, s.store.get? k id = v.store.get? k id := fun k id => congrArg (fun t => (t k).get? id) ht
  have hscan : ∀ k owner, s.store.scan k owner = v.store.scan k owner := fun k owner => by
    rw [Store.scan, Store.scan, ht]
  have hversion : ∀ k owner, v.store.version k owner = s.store.version k owner := fun k owner =>
    congrArg (fun t => (t k).version owner) ht.symm
  refine ⟨⟨⟨hv.ordered.of_tables_eq h, fun hr => hv.used (by rw [← hget]; exact hr)⟩, rfl, fun hu => hu,
    fun k owner => Nat.le_of_eq (hversion k owner), fun _ => hscan _ _, fun {k id y} _ hy => ?_⟩, rfl, rfl,
    fun _ hu => hu⟩
  have hy' : s.store.item? k id = some y := hy
  rw [Store.item?, hget] at hy'
  exact ⟨y, hy', rfl, Or.inr (Or.inl rfl)⟩

/-- What a client may do in one access. -/
structure Step (v w : View) : Prop extends Grows v w where
  new : ∀ {k id}, w.used k id → v.used k id ∨ id ∈ v.mine

/-- A step of one client leads another one, with ids of its own, to a later view. -/
theorem Step.later (h : v.Step w) {mine : List ItemId} (hapart : ∀ id ∈ mine, id ∉ v.mine)
    (trace : List Access) :
    Later ⟨v.session, v.used, mine, trace, v.relinks⟩ ⟨w.session, w.used, mine, trace, v.relinks⟩ where
  good := ⟨h.good.ordered, h.good.used⟩
  relinks := rfl
  used := h.used
  versions := h.versions
  scans := h.scans
  rows := h.rows
  mine := rfl
  trace := rfl
  unused hm hu hw := (h.new hw).elim hu (hapart _ hm)

/-! ## Accesses -/

/-- Answers a request of the client. -/
def answer (v : View) (q : Request) : q.Answer × View :=
  let answer := Session.serve q v.session
  (answer.1,
    { session := answer.2
      used := match q with
        | .commit _ => fun k id => v.used k id ∨ (answer.2.store.get? k id).isSome
        | _ => v.used
      mine := match q, answer.1 with
        | .mint, id => id :: v.mine
        | _, _ => v.mine
      trace := ⟨q, answer.1⟩ :: v.trace
      relinks := v.relinks })

/-- The view after a request of the client. -/
def asked (v : View) (q : Request) : View := (v.answer q).2

/-- A request can be answered as it is: ids that are minted are new. -/
def Admits (v : View) : Request → Prop
  | .mint => (v.answer .mint).1 ∉ v.mine ∧ ∀ k, ¬ v.used k (v.answer .mint).1
  | _ => True

/-- Where nothing is stored, nothing is used anew. -/
theorem waits_of_store_eq {q : Request} (hv : v.Good) (hs : (v.asked q).store = v.store)
    (hu : ∀ k id, (v.asked q).used k id ↔ v.used k id) (hm : v.mine ⊆ (v.asked q).mine)
    (ha : (v.asked q).applied = v.applied) : v.Waits (v.asked q) where
  good := ⟨by rw [hs]; exact hv.ordered, fun hr => (hu _ _).2 (hv.used (by rw [← hs]; exact hr))⟩
  relinks := rfl
  used h := (hu _ _).2 h
  versions k owner := Nat.le_of_eq (by rw [hs])
  scans _ := by rw [hs]
  rows _ hy := ⟨_, hs ▸ hy, rfl, Or.inr (Or.inl rfl)⟩
  mine := hm
  unused _ h := fun h' => h ((hu _ _).1 h')
  applied := ha

/-- A request that is no commit stores nothing. -/
theorem waits_asked (hv : v.Good) {q : Request} (hq : ∀ b, q ≠ .commit b) : v.Waits (v.asked q) := by
  cases q with
  | commit b => exact absurd rfl (hq b)
  | mint =>
    exact waits_of_store_eq hv rfl (fun _ _ => Iff.rfl) (List.subset_cons_self _ _)
      (List.countP_cons_of_neg (by simp [Access.isApplied]))
  | _ =>
    exact waits_of_store_eq hv rfl (fun _ _ => Iff.rfl) (List.Subset.refl _)
      (List.countP_cons_of_neg (by simp [Access.isApplied]))

/-! ## Commits -/

variable {b : Batch}

/-- A batch that is refused. -/
theorem answer_of_fault {e : StoreError} (h : v.store.fault? b = some e) :
    Session.serve (.commit b) v.session = (some e, v.session) := by
  rw [Session.serve_commit, Store.commit_eq, h]

/-- A batch that is let through. -/
theorem answer_of_accept (h : v.store.fault? b = none) :
    Session.serve (.commit b) v.session = (none, v.session.withStore (v.store.accept b)) := by
  rw [Session.serve_commit, Store.commit_eq, h]

theorem waits_refused (hv : v.Good) {e : StoreError} (h : v.store.fault? b = some e) :
    v.Waits (v.asked (.commit b)) := by
  have hs : (v.asked (.commit b)).session = v.session := congrArg Prod.snd (answer_of_fault h)
  have ht : (v.asked (.commit b)).trace = ⟨.commit b, some e⟩ :: v.trace := by
    unfold asked answer
    rw [answer_of_fault h]
  refine waits_of_store_eq hv (congrArg Session.store hs) (fun k id => ⟨fun hu => ?_, Or.inl⟩)
    (List.Subset.refl _) ?_
  · rcases hu with hu | hu
    · exact hu
    · obtain ⟨r, hr⟩ := Option.isSome_iff_exists.1 hu
      rw [answer_of_fault h] at hr
      exact hv.used hr
  · rw [applied, ht]
    exact List.countP_cons_of_neg (by simp [Access.isApplied])

/-- A row that the client may put into a list: a row of it, if it is not linked anew, or a new row of the
client's own. -/
def ComesFrom (v : View) (items : List (Item k)) (i : Item k) : Prop :=
  (∃ x ∈ items, x.id = i.id ∧ i.owner = x.owner ∧ (v.relinks ∨ i.parent = x.parent ∨ i.parent = none)) ∨
    i.id ∈ v.mine ∧ ¬ v.used k i.id

theorem ComesFrom.waits {items : List (Item k)} {i : Item k} (h : v.ComesFrom items i) (hw : v.Waits w) :
    w.ComesFrom items i := by
  rcases h with ⟨x, hx, hid, ho, hp⟩ | ⟨hm, hu⟩
  · exact Or.inl ⟨x, hx, hid, ho, by rw [hw.relinks]; exact hp⟩
  · exact Or.inr ⟨hw.mine hm, hw.unused hm hu⟩

/-- A list was turned, into rows of the list and new rows of the client. -/
theorem step_of_turned (hv : v.Good) {owner : ExampleId} {items items' : List (Item k)}
    (hr : w.relinks = v.relinks) (ht : v.session.Turned w.session owner items items')
    (hused : ∀ k id, w.used k id ↔ v.used k id ∨ (w.store.get? k id).isSome)
    (hfrom : ∀ i ∈ items', v.ComesFrom items i) : v.Step w := by
  have hst : v.store.Turned w.store owner items items' := ht.turned
  have hord : w.store.Ordered := ht.ordered hv.ordered
  have hgood : w.Good := ⟨hord, fun hr => (hused _ _).2 (Or.inr (Option.isSome_iff_exists.2 ⟨_, hr⟩))⟩
  refine ⟨⟨hgood, hr, fun hu => (hused _ _).2 (Or.inl hu), fun k' owner' => ?_,
    hst.scan_eq_of_version_eq hv.ordered.sound ht.holds, fun {k' id y} hu hy => ?_⟩, fun {k' id} hu => ?_⟩
  · rw [hst.version_eq]
    exact Nat.le_add_right _ _
  · by_cases hk : k' = k
    · subst hk
      rcases hst.mem_or_item? hy with ⟨hm, rfl⟩ | hold
      · rcases hfrom y hm with ⟨x, hx, hid, ho, hp⟩ | ⟨-, hfresh⟩
        · exact ⟨x, hid ▸ ht.holds.item?_of_mem hx, ho, hp⟩
        · exact absurd hu hfresh
      · exact ⟨y, hold, rfl, Or.inr (Or.inl rfl)⟩
    · rw [Store.item?, Store.get?, hst.kinds hk] at hy
      exact ⟨y, hy, rfl, Or.inr (Or.inl rfl)⟩
  · rcases (hused _ _).1 hu with hu | hu
    · exact Or.inl hu
    · obtain ⟨r, hr⟩ := Option.isSome_iff_exists.1 hu
      by_cases hk : k' = k
      · subst hk
        obtain ⟨y, rfl, -⟩ := hord.exists_item hr
        rcases hst.mem_or_item? (hord.item?_eq_some_iff.2 hr) with ⟨hm, rfl⟩ | hold
        · rcases hfrom y hm with ⟨x, hx, hid, -, -⟩ | ⟨hmine, -⟩
          · exact Or.inl (hid ▸ hv.used (ht.holds.get?_of_mem hx))
          · exact Or.inr hmine
        · exact Or.inl (hv.used (hv.ordered.item?_eq_some_iff.1 hold))
      · rw [Store.get?, hst.kinds hk] at hr
        exact Or.inl (hv.used hr)

/-- The view after a draft was let through. -/
theorem asked_of_accept {sp : Splice k} {owner : ExampleId} {present : List ItemId}
    (hf : v.store.fault? (Store.draftOf sp owner (v.store.version k owner) present).toBatch = none) :
    (v.asked (.commit (Store.draftOf sp owner (v.store.version k owner) present).toBatch)).session =
        v.session.committed sp owner present ∧
      (v.asked (.commit (Store.draftOf sp owner (v.store.version k owner) present).toBatch)).trace =
        ⟨.commit (Store.draftOf sp owner (v.store.version k owner) present).toBatch, none⟩ :: v.trace := by
  refine ⟨congrArg Prod.snd (answer_of_accept hf), ?_⟩
  unfold asked answer
  rw [answer_of_accept hf]

end View

end ExampleOverlay
