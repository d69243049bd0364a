import ExampleOverlay.Proofs.Crowds.View

/-!
# Programs that keep to a guarantee

`Keeps G Q p v`: run from the view `v` among other clients, whatever they do before each of its accesses,
every access of `p` that changes something is a step of the client with the property `G`, and `p` ends with
a result of `Q`. The rules follow the way programs are put together; reads say what is stored when they are
answered, and what was read is known for as long as the version of the list stays the same (`Knows`).
-/

namespace ExampleOverlay.View

open Chain Program

variable {α β : Type} {u v w : View} {k : Kind} {G : View → View → Prop}

/-- What is promised of an access that changes something: a commit that goes through, or a mint. -/
def Promises (G : View → View → Prop) (v : View) : Request → Prop
  | .commit b => v.store.fault? b = none → v.Step (v.asked (.commit b)) ∧ G v (v.asked (.commit b))
  | .mint => G v (v.asked .mint)
  | _ => True

/-- A program keeps to the guarantee `G` and ends with `Q`. -/
def Keeps {α : Type} (G : View → View → Prop) (Q : Except EngineError α → View → Prop) :
    Program α → View → Prop
  | .done r, v => Q r v
  | .ask q next, v => ∀ w, v.Later w → w.Admits q →
      Promises G w q ∧ Keeps G Q (next (w.answer q).1) (w.asked q)

variable {Q Q' : Except EngineError α → View → Prop} {p : Program α}

/-- A request is a step, if what is promised of commits is kept. -/
theorem step_asked (hv : v.Good) {q : Request} (hc : Promises G v q) : v.Step (v.asked q) := by
  cases q with
  | commit b =>
    cases hf : v.store.fault? b with
    | none => exact (hc hf).1
    | some e =>
      refine ⟨(waits_refused hv hf).toGrows, fun hu => Or.inl ?_⟩
      rcases hu with hu | hu
      · exact hu
      · obtain ⟨r, hr⟩ := Option.isSome_iff_exists.1 hu
        rw [answer_of_fault hf] at hr
        exact hv.used hr
  | _ => exact ⟨(waits_asked hv (by simp)).toGrows, Or.inl⟩

/-! ## Putting programs together -/

/-- Results can be weakened, and the view has grown. -/
theorem Keeps.mono (hv : v.Good) (h : Keeps G Q p v) (hQ : ∀ r w, v.Grows w → Q r w → Q' r w) :
    Keeps G Q' p v := by
  induction p generalizing v with
  | done r => exact hQ r v (.refl hv) h
  | ask q next ih =>
    intro w hw ha
    obtain ⟨hc, hn⟩ := h w hw ha
    have hg := (step_asked hw.good hc).toGrows
    exact ⟨hc, ih _ hg.good hn fun r u hu => hQ r u (hw.toGrows.trans (hg.trans hu))⟩

/-- Programs in sequence. -/
theorem Keeps.bind {f : α → Program β} {R : Except EngineError β → View → Prop}
    (h : Keeps G (fun r w => match r with
      | .ok a => Keeps G R (f a) w
      | .error e => R (.error e) w) p v) : Keeps G R (p >>= f) v := by
  induction p generalizing v with
  | done r => cases r <;> exact h
  | ask q next ih =>
    intro w hw ha
    obtain ⟨hc, hn⟩ := h w hw ha
    exact ⟨hc, ih _ hn⟩

theorem Keeps.outcome {R : Except EngineError (Except EngineError α) → View → Prop}
    (h : Keeps G (fun r w => R (.ok r) w) p v) : Keeps G R p.outcome v := by
  induction p generalizing v with
  | done r => exact h
  | ask q next ih =>
    intro w hw ha
    obtain ⟨hc, hn⟩ := h w hw ha
    exact ⟨hc, ih _ hn⟩

/-- Others may go on before a program asks. -/
theorem Keeps.later {q : Request} {next : q.Answer → Program α} (h : Keeps G Q (.ask q next) v)
    (hw : v.Later w) :
    Keeps G Q (.ask q next) w := fun u hu ha => h u (hw.trans hu) ha

/-- How an attempt ends that is made again after a conflict: what fails has stored nothing. -/
def Attempt (v : View) (Q : Except EngineError α → View → Prop) : Except EngineError α → View → Prop
  | .ok a, w => Q (.ok a) w
  | .error e, w => v.Waits w ∧ (e.isConflict = false → Q (.error e) w)

/-- **An attempt that keeps to the guarantee may be made again.** -/
theorem Keeps.retry (hv : v.Good) (operation : Operation) (limit : Nat)
    (hattempt : ∀ w, v.Waits w → Keeps G (v.Attempt Q) p w)
    (hexhausted : ∀ w n, v.Waits w → Q (.error (.retriesExhausted operation n)) w) :
    Keeps G Q (Program.retry operation limit p) v := by
  suffices h : ∀ n w, v.Waits w → Keeps G Q (Program.retry.again operation limit p n) w from h _ v (.refl hv)
  intro n
  induction n with
  | zero => intro w hw; exact hexhausted w _ hw
  | succ n ih =>
    intro w hw
    refine Keeps.bind (Keeps.outcome ((hattempt w hw).mono hw.good fun r u _ hu => ?_))
    cases r with
    | ok a => exact hu
    | error e =>
      dsimp only
      cases hc : e.isConflict with
      | true => exact ih u hu.1
      | false => exact hu.2 hc

/-! ## Reading -/

/-- What was read of a list holds as long as the list is at the same version, and was scanned last. -/
structure Knows (v : View) (owner : ExampleId) (version : Nat) (items : List (Item k)) : Prop where
  holds : v.store.version k owner = version → v.store.Holds owner items
  scanned : v.store.version k owner = version → Access.lastScan? v.trace = some (k, owner, v.store.scan k owner)
  version : version ≤ v.store.version k owner

theorem Knows.grows {owner : ExampleId} {version : Nat} {items : List (Item k)}
    (h : v.Knows owner version items) (hv : v.Good) (hw : v.Grows w)
    (ht : Access.lastScan? w.trace = Access.lastScan? v.trace) :
    w.Knows owner version items := by
  have h₁ := h.version
  have h₂ := hw.versions k owner
  refine ⟨fun he => ?_, fun he => ?_, Nat.le_trans h₁ h₂⟩
  · exact (h.holds (by omega)).of_scan_eq hv.ordered.sound hw.good.ordered.sound (hw.scans (by omega))
  · rw [ht, h.scanned (by omega), hw.scans (by omega)]

/-- The row of an id is read. -/
theorem keeps_get {Q : Except EngineError (Item k) → View → Prop} (id : ItemId)
    (hok : ∀ w i, v.Waits w → w.store.item? k id = some i → Q (.ok i) w)
    (hnone : ∀ w, v.Waits w → Q (.error (.notFound k id)) w) :
    Keeps G Q (Program.get k id) v := by
  intro w hw _
  refine ⟨True.intro, ?_⟩
  have hasked : v.Waits (w.asked (.get k id)) := hw.waits.trans (waits_asked hw.good (by simp))
  have hanswer : (w.answer (.get k id)).1 = (w.store.item? k id).map Record.ofItem := hw.good.ordered.get?_eq id
  rw [hanswer]
  cases hi : w.store.item? k id with
  | none => exact hnone _ hasked
  | some i =>
    simp only [Option.map_some, Record.toItem_ofItem]
    exact hok _ i hasked hi

/-- A list is read. -/
theorem keeps_chain (owner : ExampleId) {Q : Except EngineError (Chain k) → View → Prop}
    (hok : ∀ w version items, v.Waits w → w.store.Holds owner items → w.Knows owner version items →
      Q (.ok ⟨owner, version, items⟩) w) :
    Keeps G Q (Program.chain k owner) v := by
  rw [Session.chain_eq_ask]
  intro w hw _
  refine ⟨True.intro, ?_⟩
  obtain ⟨items, h⟩ := hw.good.ordered.lists k owner
  have hasked : v.Waits (w.asked (.scan k owner)) := hw.waits.trans (waits_asked hw.good (by simp))
  have hchain : w.store.chain k owner = .ok ⟨owner, w.store.version k owner, items⟩ :=
    h.chain_eq hw.good.ordered.sound
  show Q (w.store.chain k owner) (w.asked (.scan k owner))
  rw [hchain]
  exact hok _ _ _ hasked h ⟨fun _ => h, fun _ => rfl, Nat.le_refl _⟩

/-- The rows linked to a row are read. -/
theorem keeps_children (parent : ItemId) {Q : Except EngineError (List (Item k)) → View → Prop}
    (hok : ∀ w rows, v.Waits w → (∀ i ∈ rows, w.store.item? k i.id = some i ∧ i.parent = some parent) →
      Q (.ok rows) w) :
    Keeps G Q (Program.children k parent) v := by
  intro w hw _
  refine ⟨True.intro, ?_⟩
  obtain ⟨rows, hrows, -, hmem⟩ := hw.good.ordered.exists_children (k := k) parent
  have hasked : v.Waits (w.asked (.children k parent)) := hw.waits.trans (waits_asked hw.good (by simp))
  have hanswer : (w.answer (.children k parent)).1 = rows.map Record.ofItem := hrows
  rw [hanswer]
  dsimp only
  rw [Record.toItems_map_ofItem]
  exact hok _ rows hasked fun i hi => (hmem i).1 hi

theorem keeps_isVersion (owner : ExampleId) {Q : Except EngineError Bool → View → Prop}
    (hok : ∀ w b, v.Waits w → Q (.ok b) w) : Keeps G Q (isVersion owner) v := by
  intro w hw _
  exact ⟨True.intro, hok _ _ (hw.waits.trans (waits_asked hw.good (by simp)))⟩

/-- An id is minted, and no other client stores a row under it. -/
theorem keeps_mint {Q : Except EngineError ItemId → View → Prop} (hG : ∀ w, v.Later w → G w (w.asked .mint))
    (hok : ∀ w id, v.Waits w → id ∉ v.mine → id ∈ w.mine → (∀ k, ¬ w.used k id) →
      (Access.lastScan? w.trace = Access.lastScan? v.trace) → Q (.ok id) w) : Keeps G Q mint v := by
  intro w hw ha
  refine ⟨hG w hw, hok _ _ (hw.waits.trans (waits_asked hw.good (by simp))) ?_ (List.mem_cons_self) ha.2 ?_⟩
  · rw [← hw.mine]
    exact ha.1
  · show Access.lastScan? w.trace = Access.lastScan? v.trace
    rw [hw.trace]

/-! ## Committing -/

/-- A commit that went through has turned the list that was scanned last, from the version it was planned on. -/
structure Lands (v : View) (owner : ExampleId) (items items' : List (Item k)) (w : View) : Prop where
  step : v.Step w
  turned : v.session.Turned w.session owner items items'
  guarded : ∃ b, w.trace = ⟨.commit b, none⟩ :: v.trace ∧ b.kind = k ∧
    Guard.version owner (v.store.version k owner) ∈ b.guards
  scanned : Access.lastScan? v.trace = some (k, owner, v.store.scan k owner)

/-- A draft is refused, or it is let through. -/
theorem keeps_commit_of_fault? {d : Draft k} {Q : Except EngineError Unit → View → Prop}
    (herr : ∀ w e, v.Waits w → Q (.error e) w)
    (hok : ∀ u, v.Later u → u.store.fault? d.toBatch = none → u.Step (u.asked (.commit d.toBatch)) ∧
      G u (u.asked (.commit d.toBatch)) ∧ Q (.ok ()) (u.asked (.commit d.toBatch))) :
    Keeps G Q (commit d) v := by
  intro u hu _
  cases hf : u.store.fault? d.toBatch with
  | some e =>
    have hanswer : (u.answer (.commit d.toBatch)).1 = some e := congrArg Prod.fst (answer_of_fault hf)
    refine ⟨fun hnone => absurd (hf.symm.trans hnone) (by simp), ?_⟩
    rw [hanswer]
    exact herr _ _ (hu.waits.trans (waits_refused hu.good hf))
  | none =>
    have hanswer : (u.answer (.commit d.toBatch)).1 = none := congrArg Prod.fst (answer_of_accept hf)
    obtain ⟨hstep, hG, hQ⟩ := hok u hu hf
    refine ⟨fun _ => ⟨hstep, hG⟩, ?_⟩
    rw [hanswer]
    exact hQ

/-- **A commit goes through only where its list is still the one it was planned on**, so it does there what
a program does that reads and commits at once. -/
theorem keeps_commit (hv : v.Good) {owner : ExampleId} {version : Nat} {items : List (Item k)}
    (hknows : v.Knows owner version items) {sp : Splice k} {present : List ItemId} (items' : List (Item k))
    (p : Program α)
    (hatomic : ∀ u, v.Later u → u.store.version k owner = version → u.store.Holds owner items →
      ∃ a, u.session.Commits p a owner items sp present items')
    (hfrom : ∀ i ∈ items', v.ComesFrom items i)
    {Q : Except EngineError Unit → View → Prop}
    (hok : ∀ u w, v.Later u → u.Lands owner items items' w → (∃ a, u.session.run p = (.ok a, w.session)) →
      G u w ∧ Q (.ok ()) w)
    (herr : ∀ w e, v.Waits w → Q (.error e) w) :
    Keeps G Q (commit (Store.draftOf sp owner version present)) v := by
  refine keeps_commit_of_fault? herr fun u hu hf => ?_
  have hversion : u.store.version k owner = version := by
    by_contra hne
    rw [Store.fault?_of_stale hne] at hf
    simp at hf
  have hknows' := hknows.grows hv hu.toGrows (by rw [hu.trace])
  have hcommits := hatomic u hu hversion (hknows'.holds hversion)
  subst hversion
  rcases hcommits with ⟨a, ⟨hb, -⟩ | ⟨-, hrun, ht⟩⟩
  · obtain ⟨e, he⟩ := Store.injected?_of_blocked hb owner (u.store.version k owner) present
    rw [Store.fault?_eq, he] at hf
    simp at hf
  obtain ⟨hsession, htrace⟩ := asked_of_accept hf
  rw [← hsession] at hrun ht
  have hlands : u.Lands owner items items' (u.asked (.commit
      (Store.draftOf sp owner (u.store.version k owner) present).toBatch)) := by
    refine ⟨?_, ht, ⟨_, htrace, rfl, by simp [Draft.toBatch, Store.draftOf]⟩, hknows'.scanned rfl⟩
    exact step_of_turned hu.good rfl ht (fun _ _ => Iff.rfl) fun i hi => (hfrom i hi).waits hu.waits
  exact ⟨hlands.step, hok u _ hu hlands ⟨a, hrun⟩⟩

end ExampleOverlay.View
