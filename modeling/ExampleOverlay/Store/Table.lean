import ExampleOverlay.Store.Batch
import ExampleOverlay.Store.Index

/-!
# Tables

The table of one kind holds the rows of that kind, two indexes over them, and a version for each
example's list. A batch is judged against the table as it is before any of its writes; a batch that
passes has its writes applied in order, and the version of every list it touched goes up by one.
-/

namespace ExampleOverlay

/-- Why a store refuses a batch or cannot give a row. -/
inductive StoreError where
  /-- A list is not at the version the batch was planned at. -/
  | conflict (kind : Kind) (owner : ExampleId) (expected actual : Nat)
  | missingRow (kind : Kind) (id : ItemId)
  | rowExists (kind : Kind) (id : ItemId)
  /-- A row of one kind was written to the table of another. -/
  | kindMismatch (id : ItemId) (expected actual : Kind)
  /-- A row was written that no table may hold. -/
  | invariant (detail : String)
  | backend (detail : String)
  /-- A stored record is no item. -/
  | record (error : RecordError)
deriving DecidableEq

def StoreError.message : StoreError → String
  | .conflict kind owner expected actual =>
    s!"list version conflict on {kind} list of example {owner}: expected {expected}, found {actual}"
  | .missingRow kind id => s!"{kind} row {id} does not exist"
  | .rowExists kind id => s!"{kind} row {id} already exists"
  | .kindMismatch id expected actual => s!"record {id} of kind {actual} submitted to {expected} table"
  | .invariant detail => s!"store invariant violated: {detail}"
  | .backend detail => s!"backend error: {detail}"
  | .record error => s!"record error: {error.message}"

/-- The rows of one kind, their indexes, and the versions of their lists. -/
structure Table where
  rows : Std.ExtTreeMap ItemId Record := ∅
  byOwner : Index .owner := ∅
  byParent : Index .item := ∅
  versions : Std.ExtTreeMap ExampleId Nat := ∅

namespace Table

/-! ## Reading -/

def get? (t : Table) (id : ItemId) : Option Record := t.rows[id]?

/-- The version of a list; one that was never written is at 0. -/
def version (t : Table) (owner : ExampleId) : Nat := t.versions[owner]?.getD 0

/-- The rows of an example in ascending order of their ids. -/
def ofOwner (t : Table) (owner : ExampleId) : List Record := (t.byOwner.ids owner).filterMap t.get?

/-- The rows linked to a row, in ascending order of their ids. -/
def ofParent (t : Table) (parent : ItemId) : List Record := (t.byParent.ids parent).filterMap t.get?

/-! ## Judging a batch -/

/-- What is wrong with a guard. -/
def guardFault? (t : Table) (kind : Kind) : Guard → Option StoreError
  | .version owner expected =>
    if t.version owner = expected then none
    else some (.conflict kind owner expected (t.version owner))
  | .present id => if (t.get? id).isSome then none else some (.missingRow kind id)
  | .absent id => if (t.get? id).isSome then some (.rowExists kind id) else none

/-- A row names itself in one of its links. -/
def namesItself (r : Record) : Bool :=
  r.prev == some r.id || r.next == some r.id || r.parent == some r.id

/-- What is wrong with a write: the row is of another kind, names itself, or belongs to another
example than the stored row of its id. -/
def writeFault? (t : Table) (kind : Kind) : Write → Option StoreError
  | .delete _ => none
  | .put r =>
    if r.kind ≠ kind then some (.kindMismatch r.id kind r.kind)
    else if namesItself r then some (.invariant s!"{kind} row {r.id} references itself")
    else match t.get? r.id with
      | none => none
      | some old =>
        if old.owner = r.owner then none
        else some (.invariant
          s!"{kind} row {r.id} cannot move from example {old.owner} to {r.owner}")

/-- What is wrong with a batch: its first guard that fails, or else its first write that is not
allowed. -/
def fault? (t : Table) (b : Batch) : Option StoreError :=
  b.guards.findSome? (t.guardFault? b.kind) <|> b.writes.findSome? (t.writeFault? b.kind)

/-! ## Applying a batch -/

/-- Takes a row out of the indexes. -/
def unindex (t : Table) (r : Record) : Table :=
  { t with
    byOwner := t.byOwner.remove r.owner r.id
    byParent := match r.parent with
      | none => t.byParent
      | some p => t.byParent.remove p r.id }

/-- Puts a row into the indexes. -/
def index (t : Table) (r : Record) : Table :=
  { t with
    byOwner := t.byOwner.add r.owner r.id
    byParent := match r.parent with
      | none => t.byParent
      | some p => t.byParent.add p r.id }

/-- Removes the row of an id, if there is one, from the rows and the indexes. -/
def delete (t : Table) (id : ItemId) : Table :=
  match t.get? id with
  | none => t
  | some old => { t.unindex old with rows := t.rows.erase id }

/-- Stores a row in place of the one of the same id. -/
def put (t : Table) (r : Record) : Table :=
  let t := (t.delete r.id).index r
  { t with rows := t.rows.insert r.id r }

/-- The example whose list a write changes. -/
def touched? (t : Table) : Write → Option ExampleId
  | .put r => some r.owner
  | .delete id => (t.get? id).map (·.owner)

def write (t : Table) : Write → Table
  | .put r => t.put r
  | .delete id => t.delete id

/-- Applies writes in order, and adds the examples whose lists they change to `touched`. -/
def writeAll (t : Table) (touched : List ExampleId) : List Write → Table × List ExampleId
  | [] => (t, touched)
  | w :: ws => (t.write w).writeAll ((t.touched? w).elim touched (touched.insert ·)) ws

/-- Raises the version of a list. -/
def bump (t : Table) (owner : ExampleId) : Table :=
  { t with versions := t.versions.insert owner (t.version owner + 1) }

/-- The table after a batch. -/
def apply (t : Table) (b : Batch) : Table :=
  let (t, touched) := t.writeAll [] b.writes
  touched.foldl bump t

end Table

end ExampleOverlay
