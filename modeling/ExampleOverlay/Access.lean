import ExampleOverlay.Chain.Splice
import ExampleOverlay.Program

/-!
# Typed access

Requests for items, where the store speaks of records. A record that is no item of the kind asked
for is an error of the store; rows that are no chain are a corrupt list.
-/

namespace ExampleOverlay.Program

variable {k : Kind}

/-- What was read, or the fault of a record as an error. -/
def ofRecords {α : Type} (read : Except RecordError α) : Program α :=
  match read with
  | .ok a => return a
  | .error e => fail (.store (.record e))

/-- The row of an id, if it is stored. -/
def find (k : Kind) (id : ItemId) : Program (Option (Item k)) :=
  ask (.get k id) fun
    | none => return none
    | some record => some <$> ofRecords (record.toItem k)

/-- The row of an id. -/
def get (k : Kind) (id : ItemId) : Program (Item k) := do
  match ← find k id with
  | none => fail (.notFound k id)
  | some item => return item

/-- The rows of an example in no order, and the version of their list. -/
def scan (k : Kind) (owner : ExampleId) : Program (List (Item k) × Nat) :=
  ask (.scan k owner) fun scan => (·, scan.version) <$> ofRecords (Record.toItems k scan.records)

/-- The list of an example. -/
def chain (k : Kind) (owner : ExampleId) : Program (Chain k) := do
  let (rows, version) ← scan k owner
  match Chain.ofRows owner version rows with
  | .ok chain => return chain
  | .error fault => fail (.corruptList k owner fault)

/-- The rows linked to a row, in ascending order of their ids. -/
def children (k : Kind) (parent : ItemId) : Program (List (Item k)) :=
  ask (.children k parent) fun records => ofRecords (Record.toItems k records)

/-- Commits a draft. -/
def commit (draft : Draft k) : Program Unit :=
  ask (.commit draft.toBatch) fun
    | none => return ()
    | some e => fail (.store e)

/-- Commits a splice against the list it was planned on. -/
def commitSplice (chain : Chain k) (splice : Splice k) : Program Unit :=
  commit (splice.toDraft chain.owner chain.version)

/-- Whether an example is a version of another. -/
def isVersion (owner : ExampleId) : Program Bool := ask (.versionOf owner) fun base => return base.isSome

/-- An id that was never used. -/
def mint : Program ItemId := ask .mint fun id => return id

end ExampleOverlay.Program
