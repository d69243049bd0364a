import ExampleOverlay.Proofs.Crowds.Crowd

/-!
# Programs that are overtaken

A program has made some of its accesses when another client runs a program of its own from beginning to
end; then the first one goes on by itself. `Session.advance` is what is left of a program at such a gap.
A program that keeps to a guarantee among others still does so from a gap on, and what the other client did
there leads it to a later view (`View.Keeps.advance`, `View.later_of_run`). Run to its end it has changed
nothing, or what it changed last is as it guarantees (`View.Keeps.run`).
-/

namespace ExampleOverlay

variable {α β : Type}

namespace Session

/-! ## Gaps -/

/-- What is left of a program after some accesses, and the session they led to. -/
def advance : Session → Program α → Nat → Program α × Session
  | s, p, 0 => (p, s)
  | s, .done r, _ + 1 => (.done r, s)
  | s, .ask q next, n + 1 => advance (serve q s).2 (next (serve q s).1) n
termination_by structural _ _ n => n

/-- Left alone at a gap, a program goes on to where it would have come. -/
theorem run_advance : ∀ (s : Session) (p : Program α) (n : Nat),
    (s.advance p n).2.run (s.advance p n).1 = s.run p
  | _, _, 0 => rfl
  | _, .done _, _ + 1 => rfl
  | s, .ask q next, n + 1 => run_advance (serve q s).2 (next (serve q s).1) n

/-- After enough accesses a program is at its end. -/
theorem exists_advance_eq_done (s : Session) (p : Program α) :
    ∃ n, s.advance p n = (.done (s.run p).1, (s.run p).2) := by
  induction p generalizing s with
  | done r => exact ⟨0, rfl⟩
  | ask q next ih =>
    obtain ⟨n, hn⟩ := ih (serve q s).1 (serve q s).2
    exact ⟨n + 1, hn⟩

theorem advance_minted : ∀ (s : Session) (p : Program α) (n : Nat), s.minted <:+ (s.advance p n).2.minted
  | _, _, 0 => List.suffix_rfl
  | _, .done _, _ + 1 => List.suffix_rfl
  | s, .ask q next, n + 1 =>
    (serve_minted q s).trans (advance_minted (serve q s).2 (next (serve q s).1) n)

/-- Before each access, `R` holds of what is left of a program and of the session. -/
def Throughout (R : Program α → Session → Prop) : Program α → Session → Prop
  | .done _, _ => True
  | .ask q next, s => R (.ask q next) s ∧ Throughout R (next (serve q s).1) (serve q s).2

section Throughout

variable {s t : Session} {p : Program α} {R R' : Program α → Session → Prop}

theorem Throughout.advance (h : Throughout R p s) {n : Nat} {q : Request} {next : q.Answer → Program α}
    (hgap : s.advance p n = (.ask q next, t)) : R (.ask q next) t := by
  induction n generalizing p s with
  | zero =>
    obtain ⟨rfl, rfl⟩ := Prod.mk.inj hgap
    exact h.1
  | succ n ih =>
    cases p with
    | done r => cases hgap
    | ask q' next' => exact ih h.2 hgap

theorem Throughout.mono (h : Throughout R p s) (hR : ∀ p s, R p s → R' p s) : Throughout R' p s := by
  induction p generalizing s with
  | done r => exact True.intro
  | ask q next ih => exact ⟨hR _ _ h.1, ih _ h.2⟩

theorem Throughout.bind {R : Program β → Session → Prop} {f : α → Program β}
    (hp : Throughout (fun p s => R (p >>= f) s) p s)
    (hf : ∀ a t, s.run p = (.ok a, t) → Throughout R (f a) t) : Throughout R (p >>= f) s := by
  induction p generalizing s with
  | done r =>
    cases r with
    | ok a => exact hf a s rfl
    | error e => exact True.intro
  | ask q next ih => exact ⟨hp.1, ih _ hp.2 hf⟩

theorem Throughout.outcome {R : Program (Except EngineError α) → Session → Prop}
    (hp : Throughout (fun p s => R p.outcome s) p s) : Throughout R p.outcome s := by
  induction p generalizing s with
  | done r => exact True.intro
  | ask q next ih => exact ⟨hp.1, ih _ hp.2⟩

end Throughout

/-- What a client that begins now can count on: ids that were minted are used. -/
def view (s : Session) : View := ⟨s, fun _ id => id ∈ s.minted, [], [], False⟩

end Session

namespace View

variable {v w : View} {G : View → View → Prop} {Q : Except EngineError α → View → Prop} {p : Program α}

/-! ## Ids -/

/-- Ids that are used or are the client's own were minted. -/
structure Recorded (v : View) : Prop where
  mine : ∀ id ∈ v.mine, id ∈ v.session.minted
  used : ∀ {k id}, v.used k id → id ∈ v.session.minted

theorem recorded_view (s : Session) : s.view.Recorded := ⟨fun _ h => absurd h List.not_mem_nil, fun h => h⟩

theorem good_view {s : Session} (hs : s.Sane) : s.view.Good := ⟨hs.ordered, hs.minted⟩

theorem Good.sane (hv : v.Good) (hr : v.Recorded) : v.session.Sane := ⟨hv.ordered, fun h => hr.used (hv.used h)⟩

/-- As long as no id is minted twice, every request can be answered. -/
theorem Recorded.admits (hr : v.Recorded) {q : Request} (hnd : (v.asked q).session.minted.Nodup) :
    v.Admits q := by
  cases q with
  | mint =>
    have hnew := (List.nodup_cons.1 hnd).1
    exact ⟨fun h => hnew (hr.mine _ h), fun _ h => hnew (hr.used h)⟩
  | _ => exact True.intro

theorem Recorded.asked (hr : v.Recorded) {q : Request} (hstep : v.Step (v.asked q)) : (v.asked q).Recorded where
  mine id hid := by
    have hkept := (Session.serve_minted q v.session).subset
    cases q with
    | mint => exact (List.mem_cons.1 hid).elim (fun h => h ▸ List.mem_cons_self) fun h => hkept (hr.mine id h)
    | _ => exact hkept (hr.mine id hid)
  used hu := (Session.serve_minted q v.session).subset ((hstep.new hu).elim hr.used (hr.mine _))

/-! ## Alone -/

/-- How far a client came by itself. -/
structure Leads (v w : View) : Prop extends Grows v w where
  recorded : w.Recorded
  new : ∀ {k id}, w.used k id → v.used k id ∨ id ∈ v.mine ∨ id ∉ v.session.minted

theorem Leads.refl (hv : v.Good) (hr : v.Recorded) : v.Leads v := ⟨.refl hv, hr, Or.inl⟩

/-- One access by itself. -/
theorem Leads.asked {q : Request} (hnd : (v.asked q).session.minted.Nodup)
    (hstep : v.Step (v.asked q)) (h : (v.asked q).Leads w) : v.Leads w where
  toGrows := hstep.toGrows.trans h.toGrows
  recorded := h.recorded
  new {k id} hu := by
    have hkept := (Session.serve_minted q v.session).subset
    rcases h.new hu with hu | hm | hm
    · exact (hstep.new hu).imp_right Or.inl
    · cases q with
      | mint =>
        rcases List.mem_cons.1 hm with rfl | hm
        · exact Or.inr (Or.inr (List.nodup_cons.1 hnd).1)
        · exact Or.inr (Or.inl hm)
      | _ => exact Or.inr (Or.inl hm)
    · exact Or.inr (Or.inr fun h => hm (hkept h))

/-- **At a gap** a program still keeps to its guarantee. -/
theorem Keeps.advance (hv : v.Good) (hr : v.Recorded) (h : Keeps G Q p v) {n : Nat} {rest : Program α}
    {t : Session} (hgap : v.session.advance p n = (rest, t)) (hnd : t.minted.Nodup) :
    ∃ w, w.session = t ∧ v.Leads w ∧ Keeps G Q rest w := by
  induction n generalizing p v with
  | zero =>
    obtain ⟨rfl, rfl⟩ := Prod.mk.inj hgap
    exact ⟨v, rfl, .refl hv hr, h⟩
  | succ n ih =>
    cases p with
    | done r =>
      obtain ⟨rfl, rfl⟩ := Prod.mk.inj hgap
      exact ⟨v, rfl, .refl hv hr, h⟩
    | ask q next =>
      have hkept := Session.advance_minted (v.asked q).session (next (v.answer q).1) n
      have hgap' : (v.asked q).session.advance (next (v.answer q).1) n = (rest, t) := hgap
      rw [hgap'] at hkept
      have hnd' := hnd.sublist hkept.sublist
      obtain ⟨hc, hn⟩ := h v (.refl hv) (hr.admits hnd')
      have hstep := step_asked hv hc
      obtain ⟨w, hw, hleads, hkeeps⟩ := ih hstep.good (hr.asked hstep) hn hgap
      exact ⟨w, hw, hleads.asked hnd' hstep, hkeeps⟩

/-- What is stored stayed as it is, or the commit that went through last is as guaranteed. -/
def Changes (G : View → View → Prop) (v w : View) : Prop :=
  w.store = v.store ∨ v.store.commits < w.store.commits ∧
    ∃ x y, x.store.commits < y.store.commits ∧ G x y ∧ y.store = w.store

/-- **Run to its end** by itself, a program has led to what it guarantees. -/
theorem Keeps.run (hv : v.Good) (hr : v.Recorded) (h : Keeps G Q p v)
    (hnd : (v.session.run p).2.minted.Nodup) :
    ∃ w, w.session = (v.session.run p).2 ∧ v.Leads w ∧ Q (v.session.run p).1 w ∧ v.Changes G w := by
  induction p generalizing v with
  | done r => exact ⟨v, rfl, .refl hv hr, h, Or.inl rfl⟩
  | ask q next ih =>
    have hnd' : (v.asked q).session.minted.Nodup := hnd.sublist (Session.run_minted _ _).sublist
    obtain ⟨hc, hn⟩ := h v (.refl hv) (hr.admits hnd')
    have hstep := step_asked hv hc
    obtain ⟨w, hw, hleads, hQ, hlast⟩ := ih _ hstep.good (hr.asked hstep) hn hnd
    refine ⟨w, hw, hleads.asked hnd' hstep, hQ, ?_⟩
    have hsame : (v.asked q).store = v.store ∨
        v.store.commits < (v.asked q).store.commits ∧ G v (v.asked q) := by
      rcases Crowd.serve_cases q v.session with rfl | ⟨b, rfl, hf⟩ | ⟨hsame, -⟩
      · exact Or.inl rfl
      · refine Or.inr ⟨?_, (hc hf).2⟩
        rw [asked, answer, View.store, View.store, answer_of_accept hf]
        exact Nat.lt_succ_self _
      · exact Or.inl (congrArg Session.store hsame)
    rcases hlast with hlast | ⟨hcommits, hlast⟩
    · rw [Changes, hlast]
      exact hsame.imp_right fun ⟨hlt, hG⟩ => ⟨hlt, _, _, hlt, hG, rfl⟩
    · refine Or.inr ⟨?_, hlast⟩
      rcases hsame with hsame | ⟨hlt, -⟩
      · exact hsame ▸ hcommits
      · exact Nat.lt_trans hlt hcommits

/-- **What another client did** from beginning to end leads to a later view. -/
theorem later_of_run {G' : View → View → Prop} {Q' : Except EngineError β → View → Prop} {p' : Program β}
    (hv : v.Good) (hr : v.Recorded) (h : Keeps G' Q' p' ⟨v.session, v.used, [], [], v.relinks⟩)
    (hnd : (v.session.run p').2.minted.Nodup) :
    ∃ w, w.session = (v.session.run p').2 ∧ v.Later w ∧ w.Recorded := by
  have hgood : Good ⟨v.session, v.used, [], [], v.relinks⟩ := ⟨hv.ordered, hv.used⟩
  have hrecorded : Recorded ⟨v.session, v.used, [], [], v.relinks⟩ :=
    ⟨fun _ h => absurd h List.not_mem_nil, hr.used⟩
  obtain ⟨w, hw, hleads, -⟩ := h.run hgood hrecorded hnd
  refine ⟨⟨w.session, w.used, v.mine, v.trace, v.relinks⟩, hw, ⟨⟨⟨hleads.good.ordered, hleads.good.used⟩, rfl,
    hleads.used, hleads.versions, hleads.scans, hleads.rows⟩, rfl, rfl, fun {k id} hm hu hw' => ?_⟩,
    fun id hid => ?_, hleads.recorded.used⟩
  · rcases hleads.new hw' with h | h | h
    · exact hu h
    · cases h
    · exact h (hr.mine id hm)
  · show id ∈ w.session.minted
    rw [hw]
    exact (Session.run_minted _ _).subset (hr.mine id hid)

end View

end ExampleOverlay
