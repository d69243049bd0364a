import ExampleOverlay.Program

/-!
# What programs run against

The registry knows which examples are versions of others. A world is a store, a registry and a
supply of unused ids; one client that has it to itself runs its programs there. In a contended
world other clients commit batches of their own before the accesses of a program.
-/

namespace ExampleOverlay

/-- The examples that were registered, each with the example it is a version of, if it is one. -/
structure Registry where
  examples : Std.ExtTreeMap ExampleId (Option ExampleId) := ∅

namespace Registry

/-- The example that an example is a version of. -/
def versionOf (r : Registry) (owner : ExampleId) : Option ExampleId := r.examples[owner]?.join

/-- Registers a plain example; one that is registered stays what it is. -/
def register (r : Registry) (owner : ExampleId) : Registry :=
  if owner ∈ r.examples then r else ⟨r.examples.insert owner none⟩

/-- Registers an example as a version of another. -/
def registerVersion (r : Registry) (owner base : ExampleId) : Registry :=
  ⟨r.examples.insert owner (some base)⟩

/-- How many examples are registered. -/
def size (r : Registry) : Nat := r.examples.size

end Registry

/-- A store, a registry, and the ids that will be minted, first things first. -/
structure World where
  store : Store := {}
  registry : Registry := {}
  supply : Nat → BitVec 128

namespace World

/-- Takes an unused id from the supply. -/
def mint {role : Role} (w : World) : Ident role × World :=
  (⟨w.supply 0⟩, { w with supply := fun n => w.supply (n + 1) })

/-- Makes a plain example. -/
def createExample (w : World) : ExampleId × World :=
  let (owner, w) := w.mint
  (owner, { w with registry := w.registry.register owner })

/-- Makes a version of an example. -/
def createVersion (w : World) (base : ExampleId) : ExampleId × World :=
  let (owner, w) := w.mint
  (owner, { w with registry := w.registry.registerVersion owner base })

/-- Commits a batch; the reason is given if it is refused. -/
def commit (w : World) (b : Batch) : Option StoreError × World :=
  match w.store.commit b with
  | .ok s => (none, { w with store := s })
  | .error e => (some e, w)

/-- Answers a request for the only client. -/
def serve : (r : Request) → World → r.Answer × World
  | .get kind id, w => (w.store.get? kind id, w)
  | .scan kind owner, w => (w.store.scan kind owner, w)
  | .children kind parent, w => (w.store.children kind parent, w)
  | .commit b, w => w.commit b
  | .versionOf owner, w => (w.registry.versionOf owner, w)
  | .mint, w => w.mint

/-- Runs a program with no other client. -/
def run {α : Type} (w : World) (p : Program α) : Except EngineError α × World := p.run serve w

end World

/-- A world in which other clients commit batches: before each read the first of `beforeReads`, and
before each commit the first of `beforeCommits`, as long as there are any. -/
structure Contended where
  world : World
  beforeReads : List (List Batch) := []
  beforeCommits : List (List Batch) := []

namespace Contended

/-- Lets other clients commit. What is refused has no effect. -/
def interfere (w : World) (batches : List Batch) : World := batches.foldl (fun w b => (w.commit b).2) w

/-- Lets other clients in before a read. -/
def awaitRead (c : Contended) : Contended :=
  match c.beforeReads with
  | [] => c
  | batches :: rest => { c with world := interfere c.world batches, beforeReads := rest }

/-- Lets other clients in before a commit. -/
def awaitCommit (c : Contended) : Contended :=
  match c.beforeCommits with
  | [] => c
  | batches :: rest => { c with world := interfere c.world batches, beforeCommits := rest }

/-- Lets other clients in before a request, if it is an access to the store. -/
def await (c : Contended) : Request → Contended
  | .get .. | .scan .. | .children .. => c.awaitRead
  | .commit _ => c.awaitCommit
  | .versionOf _ | .mint => c

/-- Answers a request once other clients have been let in. -/
def serve (r : Request) (c : Contended) : r.Answer × Contended :=
  let c := c.await r
  let (answer, world) := World.serve r c.world
  (answer, { c with world })

/-- Runs a program among other clients. -/
def run {α : Type} (c : Contended) (p : Program α) : Except EngineError α × Contended := p.run serve c

end Contended

end ExampleOverlay
