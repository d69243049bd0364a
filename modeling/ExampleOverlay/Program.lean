import ExampleOverlay.Error
import ExampleOverlay.Store

/-!
# Operations as programs

An operation of the engine is a program: it asks for one thing at a time, goes on with the answer,
and ends with a value or an error. What a program asks is all it can see or change, so whoever
serves the requests decides what happens between two of them: nothing, a batch of another client,
or a step of another program. `Program.run` serves a program to its end.
-/

namespace ExampleOverlay

/-- One access to what is stored or known outside the program. -/
inductive Request where
  /-- The row of an id. -/
  | get (kind : Kind) (id : ItemId)
  /-- The rows of an example and the version of their list. -/
  | scan (kind : Kind) (owner : ExampleId)
  /-- The rows linked to a row. -/
  | children (kind : Kind) (parent : ItemId)
  | commit (batch : Batch)
  /-- The example that an example is a version of. -/
  | versionOf (owner : ExampleId)
  /-- An id that was never used. -/
  | mint

/-- What a request is answered with; a commit that was refused, with the reason. -/
@[reducible] def Request.Answer : Request → Type
  | .get .. => Option Record
  | .scan .. => Scan
  | .children .. => List Record
  | .commit _ => Option StoreError
  | .versionOf _ => Option ExampleId
  | .mint => ItemId

/-- An operation with a result of type `α`. -/
inductive Program (α : Type) where
  | done (result : Except EngineError α)
  | ask (request : Request) (next : request.Answer → Program α)

namespace Program

variable {α β : Type}

/-! ## Sequence and failure -/

def fail (e : EngineError) : Program α := done (.error e)

/-- Goes on with the value of a program, unless it fails. -/
def bind (p : Program α) (f : α → Program β) : Program β :=
  match p with
  | done (.error e) => fail e
  | done (.ok a) => f a
  | ask r next => ask r fun a => (next a).bind f

instance : Monad Program where
  pure a := done (.ok a)
  bind := bind

/-- Runs a program for its value or its error, and fails with neither. -/
def outcome : Program α → Program (Except EngineError α)
  | done result => done (.ok result)
  | ask r next => ask r fun a => (next a).outcome

def ofExcept : Except EngineError α → Program α := done

/-- Runs a program for each element of a list in turn. -/
def collect (f : α → Program β) : List α → Program (List β)
  | [] => pure []
  | a :: as => do
    let b ← f a
    let bs ← collect f as
    return b :: bs

/-- Runs an attempt again while it ends in a version conflict, up to `limit` times; a limit of 0
counts as 1. -/
def retry (operation : Operation) (limit : Nat) (attempt : Program α) : Program α :=
  again (max limit 1)
where
  again : Nat → Program α
    | 0 => fail (.retriesExhausted operation (max limit 1))
    | left + 1 => do
      match ← attempt.outcome with
      | .ok a => return a
      | .error e => if e.isConflict then again left else fail e

/-! ## Serving -/

/-- Serves the requests of a program one after another and ends with its result. -/
def run {σ : Type} (serve : (r : Request) → σ → r.Answer × σ) : Program α → σ → Except EngineError α × σ
  | done result, s => (result, s)
  | ask r next, s => (next (serve r s).1).run serve (serve r s).2

/-! ## Laws -/

@[simp] theorem pure_def (a : α) : (pure a : Program α) = done (.ok a) := rfl

@[simp] theorem bind_done_ok (a : α) (f : α → Program β) : done (.ok a) >>= f = f a := rfl

@[simp] theorem bind_done_error (e : EngineError) (f : α → Program β) :
    done (.error e) >>= f = done (.error e) := rfl

@[simp] theorem bind_ask (r : Request) (next : r.Answer → Program α) (f : α → Program β) :
    ask r next >>= f = ask r fun a => next a >>= f := rfl

theorem bind_pure (p : Program α) : p >>= (fun a => done (.ok a)) = p := by
  induction p with
  | done result => cases result <;> rfl
  | ask r next ih => simp only [bind_ask, ih]

theorem bind_assoc {γ : Type} (p : Program α) (f : α → Program β) (g : β → Program γ) :
    p >>= f >>= g = p >>= fun a => f a >>= g := by
  induction p with
  | done result => cases result <;> rfl
  | ask r next ih => simp only [bind_ask, ih]

instance : LawfulMonad Program := LawfulMonad.mk' Program bind_pure (fun _ _ => rfl) bind_assoc

/-- Serving a sequence serves its parts one after the other. -/
theorem run_bind {σ : Type} (serve : (r : Request) → σ → r.Answer × σ) (p : Program α)
    (f : α → Program β) (s : σ) :
    (p >>= f).run serve s = match p.run serve s with
      | (.ok a, s) => (f a).run serve s
      | (.error e, s) => (.error e, s) := by
  induction p generalizing s with
  | done result => cases result <;> rfl
  | ask r next ih => exact ih _ _

theorem run_outcome {σ : Type} (serve : (r : Request) → σ → r.Answer × σ) (p : Program α) (s : σ) :
    p.outcome.run serve s = (.ok (p.run serve s).1, (p.run serve s).2) := by
  induction p generalizing s with
  | done result => rfl
  | ask r next ih => exact ih _ _

end Program

end ExampleOverlay
