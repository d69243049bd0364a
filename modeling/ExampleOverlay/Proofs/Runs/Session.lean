import ExampleOverlay.Service
import ExampleOverlay.World
import Mathlib.Data.List.Nodup

/-!
# Sessions

A session is one client's use of a world: calls of the service one after another, and between them
events outside the service, which register examples and make writes fail. It records the row ids that
were minted, since what is promised of a run is promised as long as they are all different.
-/

namespace ExampleOverlay

/-! ## Calls -/

/-- A call of the service for rows of one kind. -/
inductive Call (k : Kind) where
  | create (owner : ExampleId) (fields : Fields k)
  | update (id : ItemId) (patch : Patch k)
  | delete (id : ItemId)
  | move (owner : ExampleId) (id target : ItemId) (side : Side)
  | deltaList (delta origin : ExampleId)
  | deltaCreate (delta : ExampleId) (origin : Option ExampleId) (parent : Option ItemId) (fields : Fields k)
  | deltaUpdate (id : ItemId) (patch : Patch k)
  | deltaDelete (id : ItemId)
  | deltaReset (id : ItemId)
  | deltaMove (delta : ExampleId) (id target : ItemId) (side : Side)

/-- What a call gives when it succeeds. -/
@[reducible] def Call.Answer {k : Kind} : Call k → Type
  | .create .. | .deltaCreate .. => ItemId
  | .update .. | .delete _ => Cascade.Report
  | .move .. | .deltaMove .. => Bool
  | .deltaList .. => List (OverlayRow k)
  | .deltaUpdate .. | .deltaReset _ => Item k
  | .deltaDelete _ => Unit

/-- The program that serves a call. -/
def Call.program {k : Kind} (limit : Nat) : (c : Call k) → Program c.Answer
  | .create owner fields => Service.create limit owner fields
  | .update id patch => Service.update limit id patch
  | .delete id => Service.delete limit k id
  | .move owner id target side => Editing.move limit k owner id target side
  | .deltaList delta origin => Service.deltaList limit k delta origin
  | .deltaCreate delta origin parent fields => Service.deltaCreate limit delta origin parent fields
  | .deltaUpdate id patch => Service.deltaUpdate limit id patch
  | .deltaDelete id => Service.deltaDelete limit k id
  | .deltaReset id => Service.deltaReset limit k id
  | .deltaMove delta id target side => Editing.move limit k delta id target side

/-! ## Events outside the service -/

/-- What happens to a world beside the calls. -/
inductive Aside where
  | failWrites (id : ItemId)
  | clearFailures
  | register (owner : ExampleId)
  | registerVersion (owner base : ExampleId)
  | createExample
  | createVersion (base : ExampleId)

def World.aside (w : World) : Aside → World
  | .failWrites id => { w with store := w.store.failWrites id }
  | .clearFailures => { w with store := w.store.clearFailures }
  | .register owner => { w with registry := w.registry.register owner }
  | .registerVersion owner base => { w with registry := w.registry.registerVersion owner base }
  | .createExample => w.createExample.2
  | .createVersion base => (w.createVersion base).2

/-! ## Sessions -/

/-- A world and the row ids that were minted in it, the latest first. -/
structure Session where
  world : World
  minted : List ItemId := []

namespace Session

/-- A session over an empty store. -/
def start (registry : Registry) (supply : Nat → BitVec 128) : Session := ⟨{ registry, supply }, []⟩

/-- What is stored. -/
abbrev store (s : Session) : Store := s.world.store

/-- Answers a request, and records the id if one was minted. -/
def serve (r : Request) (s : Session) : r.Answer × Session :=
  let answer := World.serve r s.world
  (answer.1, ⟨answer.2, match r, answer.1 with | .mint, id => id :: s.minted | _, _ => s.minted⟩)

/-- The session with another store. -/
def withStore (s : Session) (store : Store) : Session := { s with world := { s.world with store } }

/-- Runs a program. -/
def run {α : Type} (s : Session) (p : Program α) : Except EngineError α × Session := p.run serve s

/-- Something that happens in a session. -/
inductive Event where
  | call {k : Kind} (c : Call k)
  | aside (a : Aside)

/-- The session after an event; `limit` bounds how often an edit is planned. -/
def after (limit : Nat) (s : Session) : Event → Session
  | .call c => (s.run (c.program limit)).2
  | .aside a => { s with world := s.world.aside a }

/-- A session that another one leads to by events that are allowed where they happen. -/
inductive Reaches (limit : Nat) (allowed : Session → Event → Prop) (s : Session) : Session → Prop
  | refl : Reaches limit allowed s s
  | step {t : Session} (e : Event) : Reaches limit allowed s t → allowed t e →
      Reaches limit allowed s (t.after limit e)

/-! ## Answers -/

theorem serve_get (s : Session) (k : Kind) (id : ItemId) : serve (.get k id) s = (s.store.get? k id, s) := rfl

theorem serve_children (s : Session) (k : Kind) (parent : ItemId) :
    serve (.children k parent) s = (s.store.children k parent, s) := rfl

theorem serve_commit (s : Session) (b : Batch) : serve (.commit b) s = match s.store.commit b with
    | .ok st => (none, s.withStore st)
    | .error e => (some e, s) := by
  have h : serve (.commit b) s = ((s.world.commit b).1, ⟨(s.world.commit b).2, s.minted⟩) := rfl
  rw [h, World.commit]
  cases s.world.store.commit b <;> rfl

/-! ## Running programs -/

variable {α β : Type}

theorem run_done (s : Session) (r : Except EngineError α) : s.run (.done r) = (r, s) := rfl

theorem run_ask (s : Session) (r : Request) (next : r.Answer → Program α) :
    s.run (.ask r next) = (serve r s).2.run (next (serve r s).1) := rfl

theorem run_bind (s : Session) (p : Program α) (f : α → Program β) :
    s.run (p >>= f) = match s.run p with
      | (.ok a, s) => s.run (f a)
      | (.error e, s) => (.error e, s) := by
  unfold run
  rw [Program.run_bind]
  rcases p.run serve s with ⟨_ | _, _⟩ <;> rfl

theorem run_bind_ok {s t : Session} {p : Program α} {a : α} (h : s.run p = (.ok a, t)) (f : α → Program β) :
    s.run (p >>= f) = t.run (f a) := by rw [run_bind, h]

theorem run_bind_error {s t : Session} {p : Program α} {e : EngineError} (h : s.run p = (.error e, t))
    (f : α → Program β) : s.run (p >>= f) = (.error e, t) := by rw [run_bind, h]

theorem run_bind_eq_ok_iff {s u : Session} {p : Program α} {f : α → Program β} {b : β} :
    s.run (p >>= f) = (.ok b, u) ↔ ∃ a t, s.run p = (.ok a, t) ∧ t.run (f a) = (.ok b, u) := by
  rw [run_bind]
  rcases s.run p with ⟨_ | a, t⟩ <;> simp

theorem run_outcome (s : Session) (p : Program α) : s.run p.outcome = (.ok (s.run p).1, (s.run p).2) :=
  Program.run_outcome serve p s

/-! ## What programs leave alone -/

/-- A property of sessions that no request breaks is kept by programs. -/
theorem run_keeps (P : Session → Prop) (hP : ∀ (r : Request) (s : Session), P s → P (serve r s).2) :
    ∀ (p : Program α) (s : Session), P s → P (s.run p).2
  | .done _, _, h => h
  | .ask r next, s, h => run_keeps P hP (next (serve r s).1) (serve r s).2 (hP r s h)

theorem serve_registry (r : Request) (s : Session) : (serve r s).2.world.registry = s.world.registry := by
  cases r with
  | commit b =>
    rw [serve_commit]
    cases s.store.commit b <;> rfl
  | _ => rfl

theorem serve_failing (r : Request) (s : Session) : (serve r s).2.store.failing = s.store.failing := by
  cases r with
  | commit b =>
    rw [serve_commit, Store.commit]
    cases s.store.fault? b <;> rfl
  | _ => rfl

theorem run_failing (s : Session) (p : Program α) : (s.run p).2.store.failing = s.store.failing :=
  run_keeps (fun t => t.store.failing = s.store.failing) (fun r t h => (serve_failing r t).trans h) p s rfl

theorem tables_aside (w : World) (a : Aside) : (w.aside a).store.tables = w.store.tables := by
  cases a <;> rfl

theorem serve_minted (r : Request) (s : Session) : s.minted <:+ (serve r s).2.minted := by
  cases r with
  | mint => exact List.suffix_cons _ _
  | _ => exact List.suffix_rfl

/-- Ids that were minted stay recorded. -/
theorem run_minted (s : Session) (p : Program α) : s.minted <:+ (s.run p).2.minted :=
  run_keeps (fun t => s.minted <:+ t.minted) (fun r t h => h.trans (serve_minted r t)) p s List.suffix_rfl

theorem run_minted_bind (s : Session) (p : Program α) (f : α → Program β) :
    (s.run p).2.minted <:+ (s.run (p >>= f)).2.minted := by
  rw [run_bind]
  rcases s.run p with ⟨e | a, t⟩
  · exact List.suffix_rfl
  · exact run_minted t (f a)

end Session

end ExampleOverlay
