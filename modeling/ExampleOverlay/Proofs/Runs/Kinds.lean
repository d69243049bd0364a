import ExampleOverlay.Proofs.Runs.Requests

/-!
# Kinds do not interfere

The services of the three kinds share one store, one registry and one set of rows that are made to fail. All
the same a run can be cut down to one kind: without the demands on the other two, every demand that is left is
answered as before, and the table of the kind ends up the same (`Session.play_apart`).

A demand asks only about rows of its kind (`Demand.asks`). So it finds the same answers in two sessions that
agree on the kind (`Session.AgreeOn`) and leaves them in agreement, and a demand of another kind leaves a
session that agrees with what it was. Ids are given to each event of a run on its own, so that a shorter run
has the same ones.
-/

namespace ExampleOverlay

open Program

variable {k : Kind}

/-! ## Demands -/

/-- What a client can ask of the service of one kind: a call, or to read. -/
inductive Demand (k : Kind) where
  | call (c : Call k)
  | get (id : ItemId)
  | list (owner : ExampleId)
  | verify (owner : ExampleId)

namespace Demand

/-- What a demand gives when it succeeds. -/
@[reducible] def Answer : Demand k → Type
  | .call c => c.Answer
  | .get _ => Item k
  | .list _ => List (Item k)
  | .verify _ => ChainSummary

/-- The program that meets a demand. -/
def program (limit : Nat) : (d : Demand k) → Program d.Answer
  | .call c => c.program limit
  | .get id => Program.get k id
  | .list owner => Service.list k owner
  | .verify owner => Service.verify k owner

/-- A demand asks about rows of its kind or for new ids. -/
theorem asks (limit : Nat) (d : Demand k) : (d.program limit).Asks fun q => q.About k ∨ q = .mint := by
  cases d with
  | call c => exact (c.asks limit).mono fun _ => Or.imp_right And.right
  | get id => exact (asks_get id).mono fun _ => Or.inl
  | list owner | verify owner =>
    exact ((asks_chain owner).bind fun _ => asks_pure _).mono fun _ => Or.inl

end Demand

/-- An answer that was given. -/
structure Reply where
  kind : Kind
  demand : Demand kind
  result : Except EngineError demand.Answer

/-- What happens in a run of the three services. -/
inductive Happening where
  | demand {k : Kind} (d : Demand k)
  | aside (a : Aside)

/-- Something that happens, and the ids that are minted in it. -/
structure Moment where
  event : Happening
  ids : Nat → BitVec 128

/-- No demand of another kind. -/
def Moment.concerns (k : Kind) (m : Moment) : Bool :=
  match m.event with
  | .demand (k := l) _ => l = k
  | .aside _ => true

namespace Session

/-! ## Runs -/

/-- The session with other ids to be minted. -/
def supplied (s : Session) (ids : Nat → BitVec 128) : Session :=
  { s with world := { s.world with supply := ids } }

/-- The session after something happened; `limit` bounds how often an edit is planned. -/
def happen (limit : Nat) (s : Session) : Happening → Session
  | .demand d => (s.run (d.program limit)).2
  | .aside a => { s with world := s.world.aside a }

/-- The reply to a demand. -/
def reply? (limit : Nat) (s : Session) : Happening → Option Reply
  | .demand d => some ⟨_, d, (s.run (d.program limit)).1⟩
  | .aside _ => none

/-- The session after a run. -/
def play (limit : Nat) (s : Session) : List Moment → Session
  | [] => s
  | m :: ms => play limit ((s.supplied m.ids).happen limit m.event) ms

/-- The replies of a run. -/
def replies (limit : Nat) (s : Session) : List Moment → List Reply
  | [] => []
  | m :: ms => ((s.supplied m.ids).reply? limit m.event).toList ++
      replies limit ((s.supplied m.ids).happen limit m.event) ms

/-- What happens under one supply of ids is a run, in which each event is given what is left of them. -/
theorem exists_play_eq (limit : Nat) : ∀ (es : List Happening) (s : Session), ∃ ms : List Moment,
    ms.map (·.event) = es ∧ s.play limit ms = es.foldl (happen limit) s
  | [], _ => ⟨[], rfl, rfl⟩
  | e :: es, s => by
    obtain ⟨ms, hms, hplay⟩ := exists_play_eq limit es (s.happen limit e)
    exact ⟨⟨e, s.world.supply⟩ :: ms, by rw [List.map_cons, hms], hplay⟩

/-! ## Sessions that agree on one kind -/

/-- Two sessions show the same to whom asks about rows of one kind. -/
structure AgreeOn (k : Kind) (s t : Session) : Prop where
  table : s.store.table k = t.store.table k
  failing : s.store.failing = t.store.failing
  registry : s.world.registry = t.world.registry

variable {s t u : Session}

theorem AgreeOn.refl (k : Kind) (s : Session) : AgreeOn k s s := ⟨rfl, rfl, rfl⟩

theorem AgreeOn.trans (h : AgreeOn k s t) (h' : AgreeOn k t u) : AgreeOn k s u :=
  ⟨h.table.trans h'.table, h.failing.trans h'.failing, h.registry.trans h'.registry⟩

theorem AgreeOn.fault?_eq (h : AgreeOn k s t) {b : Batch} (hb : b.kind = k) :
    s.store.fault? b = t.store.fault? b := by
  subst hb
  rw [Store.fault?, Store.fault?, h.table, h.failing]

/-- **A request about rows of the kind** is answered alike, and leaves the sessions in agreement. -/
theorem AgreeOn.serve (h : AgreeOn k s t) (hsupply : s.world.supply = t.world.supply) {q : Request}
    (hq : q.About k ∨ q = .mint) : (Session.serve q s).1 = (Session.serve q t).1 ∧
      AgreeOn k (Session.serve q s).2 (Session.serve q t).2 ∧
      (Session.serve q s).2.world.supply = (Session.serve q t).2.world.supply := by
  obtain hq | rfl := hq
  · cases q with
    | get kind id =>
      obtain rfl : kind = k := hq
      exact ⟨congrArg (·.get? id) h.table, h, hsupply⟩
    | scan kind owner =>
      obtain rfl : kind = k := hq
      exact ⟨congrArg (fun table => Scan.mk (table.ofOwner owner) (table.version owner)) h.table, h, hsupply⟩
    | children kind parent =>
      obtain rfl : kind = k := hq
      exact ⟨congrArg (·.ofParent parent) h.table, h, hsupply⟩
    | versionOf owner => exact ⟨congrArg (·.versionOf owner) h.registry, h, hsupply⟩
    | mint => exact hq.elim
    | commit b =>
      obtain rfl : b.kind = k := hq
      rw [serve_commit, serve_commit, Store.commit_eq, Store.commit_eq, ← h.fault?_eq rfl]
      cases s.store.fault? b with
      | some e => exact ⟨rfl, h, hsupply⟩
      | none =>
        refine ⟨rfl, ⟨?_, h.failing, h.registry⟩, hsupply⟩
        show (s.store.accept b).table b.kind = (t.store.accept b).table b.kind
        rw [Store.table_accept, Store.table_accept, if_pos rfl, if_pos rfl, h.table]
  · exact ⟨congrArg (fun ids => Ident.mk (ids 0)) hsupply, ⟨h.table, h.failing, h.registry⟩,
      congrArg (fun ids n => ids (n + 1)) hsupply⟩

/-- **A request about another kind** leaves a session that agrees with what it was. -/
theorem agreeOn_serve_other {l : Kind} (hl : l ≠ k) {q : Request} (hq : q.About l ∨ q = .mint) (s : Session) :
    AgreeOn k (Session.serve q s).2 s := by
  refine ⟨?_, serve_failing q s, serve_registry q s⟩
  cases q with
  | commit b =>
    obtain rfl : b.kind = l := hq.resolve_right (by simp)
    rw [serve_commit, Store.commit_eq]
    cases s.store.fault? b with
    | some e => rfl
    | none => exact (Store.table_accept _ _ _).trans (if_neg (Ne.symm hl))
  | _ => rfl

variable {α : Type} {p : Program α}

theorem AgreeOn.run (hp : p.Asks fun q => q.About k ∨ q = .mint) :
    ∀ {s t : Session}, AgreeOn k s t → s.world.supply = t.world.supply →
      (s.run p).1 = (t.run p).1 ∧ AgreeOn k (s.run p).2 (t.run p).2 := by
  induction p with
  | done r => exact fun h _ => ⟨rfl, h⟩
  | ask q next ih =>
    intro s t h hsupply
    obtain ⟨hanswer, hagree, hsupply'⟩ := h.serve hsupply hp.1
    rw [run_ask, run_ask, ← hanswer]
    exact ih _ (hp.2 _) hagree hsupply'

theorem agreeOn_run_other {l : Kind} (hl : l ≠ k) (hp : p.Asks fun q => q.About l ∨ q = .mint) :
    ∀ s : Session, AgreeOn k (s.run p).2 s := by
  induction p with
  | done r => exact fun s => .refl k s
  | ask q next ih =>
    intro s
    rw [run_ask]
    exact (ih _ (hp.2 _) _).trans (agreeOn_serve_other hl hp.1 s)

theorem AgreeOn.aside (h : AgreeOn k s t) (hsupply : s.world.supply = t.world.supply) (limit : Nat) (a : Aside) :
    AgreeOn k (s.happen limit (.aside a)) (t.happen limit (.aside a)) := by
  have htable : ∀ s : Session, (s.happen limit (.aside a)).store.table k = s.store.table k := fun s =>
    congrArg (·.get k) (tables_aside s.world a)
  refine ⟨by rw [htable, htable, h.table], ?_, ?_⟩
  · cases a with
    | failWrites id => exact congrArg (·.insert id) h.failing
    | clearFailures => rfl
    | _ => exact h.failing
  · cases a with
    | failWrites | clearFailures => exact h.registry
    | register owner => exact congrArg (·.register owner) h.registry
    | registerVersion owner base => exact congrArg (·.registerVersion owner base) h.registry
    | createExample => exact congrArg₂ (fun r ids => r.register ⟨ids 0⟩) h.registry hsupply
    | createVersion base => exact congrArg₂ (fun r ids => r.registerVersion ⟨ids 0⟩ base) h.registry hsupply

/-! ## One event -/

variable {m : Moment}

/-- An event that concerns the kind goes alike, given the same ids. -/
theorem AgreeOn.happen (h : AgreeOn k s t) (hm : m.concerns k = true) (limit : Nat) :
    (s.supplied m.ids).reply? limit m.event = (t.supplied m.ids).reply? limit m.event ∧
      AgreeOn k ((s.supplied m.ids).happen limit m.event) ((t.supplied m.ids).happen limit m.event) := by
  have h' : AgreeOn k (s.supplied m.ids) (t.supplied m.ids) := ⟨h.table, h.failing, h.registry⟩
  obtain ⟨e, ids⟩ := m
  cases e with
  | aside a => exact ⟨rfl, h'.aside rfl limit a⟩
  | @demand l d =>
    obtain rfl : l = k := of_decide_eq_true hm
    obtain ⟨hresult, hagree⟩ := h'.run (d.asks limit) rfl
    exact ⟨congrArg (fun r => some (Reply.mk _ d r)) hresult, hagree⟩

/-- An event that does not concern the kind has a reply of another kind, and leaves a session that agrees with
what it was. -/
theorem agreeOn_happen_other (hm : m.concerns k = false) (limit : Nat) (s : Session) :
    (∀ r ∈ (s.supplied m.ids).reply? limit m.event, r.kind ≠ k) ∧
      AgreeOn k ((s.supplied m.ids).happen limit m.event) s := by
  obtain ⟨e, ids⟩ := m
  cases e with
  | aside a => cases hm
  | @demand l d =>
    have hl : l ≠ k := of_decide_eq_false hm
    refine ⟨fun r hr => ?_, (agreeOn_run_other hl (d.asks limit) _).trans ⟨rfl, rfl, rfl⟩⟩
    obtain rfl := Option.some.inj hr
    exact hl

/-- The replies to events that concern a kind are of this kind. -/
theorem kind_of_reply (hm : m.concerns k = true) (limit : Nat) (s : Session) :
    ∀ r ∈ s.reply? limit m.event, r.kind = k := by
  obtain ⟨e, ids⟩ := m
  intro r hr
  cases e with
  | aside a => cases hr
  | demand d =>
    obtain rfl := Option.some.inj hr
    exact of_decide_eq_true hm

/-! ## Whole runs -/

/-- What is left of a run goes alike in sessions that agree. -/
theorem AgreeOn.play (limit : Nat) : ∀ (ms : List Moment) {s t : Session}, AgreeOn k s t →
    (s.replies limit ms).filter (·.kind = k) = t.replies limit (ms.filter (·.concerns k)) ∧
      AgreeOn k (s.play limit ms) (t.play limit (ms.filter (·.concerns k)))
  | [], _, _, h => ⟨rfl, h⟩
  | m :: ms, s, t, h => by
    cases hm : m.concerns k with
    | true =>
      obtain ⟨hreply, hagree⟩ := h.happen hm limit
      obtain ⟨hreplies, hplay⟩ := hagree.play limit ms
      have hkeep : ((s.supplied m.ids).reply? limit m.event).toList.filter (·.kind = k) =
          ((s.supplied m.ids).reply? limit m.event).toList :=
        List.filter_eq_self.2 fun r hr => by simpa using kind_of_reply hm limit _ r (by simpa using hr)
      rw [List.filter_cons_of_pos hm, replies, replies, List.filter_append, hkeep, hreplies, hreply]
      exact ⟨rfl, hplay⟩
    | false =>
      obtain ⟨hreply, hagree⟩ := agreeOn_happen_other hm limit s
      obtain ⟨hreplies, hplay⟩ := (hagree.trans h).play limit ms
      have hdrop : ((s.supplied m.ids).reply? limit m.event).toList.filter (·.kind = k) = [] :=
        List.filter_eq_nil_iff.2 fun r hr => by simpa using hreply r (by simpa using hr)
      rw [List.filter_cons_of_neg (by simp [hm]), replies, List.filter_append, hdrop, hreplies]
      exact ⟨rfl, hplay⟩

/-- **Kinds do not interfere.** Take any run over the three services, whatever is made to fail or registered in
between, and take the demands of all kinds but one out of it, each event that is left being given the ids it
was given. The demands left are answered as they were, and the rows, indexes and versions of the kind and the
order of each of its lists end up the same. -/
theorem play_apart (limit : Nat) (s : Session) (k : Kind) (ms : List Moment) :
    (s.replies limit ms).filter (·.kind = k) = s.replies limit (ms.filter (·.concerns k)) ∧
      (s.play limit ms).store.table k = (s.play limit (ms.filter (·.concerns k))).store.table k ∧
      ∀ owner, (s.play limit ms).store.chain k owner =
        (s.play limit (ms.filter (·.concerns k))).store.chain k owner := by
  obtain ⟨hreplies, hagree⟩ := (AgreeOn.refl k s).play limit ms
  refine ⟨hreplies, hagree.table, fun owner => ?_⟩
  rw [Store.chain, Store.chain, Store.scan, Store.scan, hagree.table]

/-- A header and a query have one id; the query is deleted and the header stays. -/
example :
    let s := (start {} fun _ => 1).play 3 [
      ⟨.demand (.call (.create (k := .header) ⟨100⟩ (KeyValue.ofPair "a" "b"))), fun _ => 1⟩,
      ⟨.demand (.call (.create (k := .query) ⟨100⟩ (KeyValue.ofPair "a" "b"))), fun _ => 1⟩,
      ⟨.demand (.call (.delete (k := .query) ⟨1⟩)), fun _ => 1⟩]
    s.store.rowCount .header = 1 ∧ s.store.rowCount .query = 0 := by decide

end Session

end ExampleOverlay
