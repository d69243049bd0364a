import ExampleOverlay.Editing
import ExampleOverlay.Source

/-!
# Cascades

A change to a row of an origin example is carried to its counterparts:

| change | counterpart | effect |
| --- | --- | --- |
| update | tracks its parent | takes the parent's fields |
| update | overridden, or of a version | none |
| delete | in a plain example | removed from its list |
| delete | in a version | kept, and its link cleared |

Each counterpart is written by a commit of its own. One that cannot be written does not undo or stop
the others; it is told in the report.
-/

namespace ExampleOverlay.Cascade

open Program Editing

variable {k : Kind}

/-! ## The counterparts of a row -/

/-- Which of the examples of some rows are versions, each example asked for once. -/
def versions (rows : List (Item k)) : Program (List (ExampleId × Bool)) :=
  collect (fun owner => return (owner, ← isVersion owner)) (rows.map (·.owner)).eraseDups

/-- Whether an example was found to be a version. -/
def known (versions : List (ExampleId × Bool)) (owner : ExampleId) : Bool :=
  (versions.lookup owner).getD false

/-- Carries a change to counterparts one after another and reports what became of each. -/
def carry (each : Item k → Program Outcome) (report : Report) : List (Item k) → Program Report
  | [] => return report
  | row :: rest => do
    match ← (each row).outcome with
    | .ok outcome => carry each (report.add row.id outcome) rest
    | .error e =>
      if e.isNotFound then carry each (report.add row.id .skipped) rest
      else carry each (report.addFailure ⟨row.id, row.owner, e.message⟩) rest

/-! ## Updates -/

/-- The edit that gives a counterpart its parent's fields, unless it tracks the parent no longer. -/
def takeFields (parent : ItemId) (fields : Fields k) (row : Item k) : Except EngineError (Item k × Bool) :=
  if row.parent ≠ some parent ∨ row.overridden ∨ row.fields = fields then .ok (row, false)
  else .ok ({ row with fields }, true)

/-- Carries an update to one counterpart. The fields are read anew, since another update may have
come after this one; if the parent is gone, those of this update are taken. -/
def updateOne (limit : Nat) (before after : Item k) (version : Bool) (row : Item k) : Program Outcome :=
  if Source.resolve row (some before) version ≠ .origin then return .skipped
  else do
    let fields ← match ← (get k before.id).outcome with
      | .ok parent => pure parent.fields
      | .error e => if e.isNotFound then pure after.fields else fail e
    let row ← modify limit row.id (takeFields before.id fields)
    return if row.parent = some before.id ∧ row.overridden = false then .updated else .skipped

/-- Carries an update of a row to its counterparts. -/
def update (limit : Nat) (before after : Item k) : Program Report := do
  let rows ← children k before.id
  let versions ← versions rows
  carry (fun row => updateOne limit before after (known versions row.owner) row) {} rows

/-! ## Deletions -/

/-- The edit that clears the link of a counterpart, unless it is linked to another row by now. -/
def clearLink (parent : ItemId) (row : Item k) : Except EngineError (Item k × Bool) :=
  if row.parent ≠ some parent then .ok (row, false) else .ok ({ row with parent := none }, true)

/-- Carries a deletion to one counterpart. -/
def deleteOne (limit : Nat) (origin : Item k) (version : Bool) (row : Item k) : Program Outcome :=
  match Source.resolve row (some origin) version with
  | .delta => do
    let _ : Item k ← modify limit row.id (clearLink origin.id)
    return .detached
  | .origin | .mixed => do
    let _ ← remove limit k row.id
    return .deleted

/-- Carries the deletion of a row to its counterparts. -/
def delete (limit : Nat) (origin : Item k) : Program Report := do
  let rows ← children k origin.id
  let versions ← versions rows
  carry (fun row => deleteOne limit origin (known versions row.owner) row) {} rows

/-! ## Resetting -/

/-- The edit that makes a row pristine with the given fields. -/
def restore (fields : Fields k) (row : Item k) : Except EngineError (Item k × Bool) :=
  if row.fields = fields ∧ row.overridden = false then .ok (row, false)
  else .ok ({ row with fields, overridden := false }, true)

/-- Gives a row the current fields of its parent, or clears it if it is not linked, and lets changes
to the parent reach it again. -/
def reset (limit : Nat) (k : Kind) (id : ItemId) : Program (Item k) := do
  let row ← get k id
  let fields ← match row.parent with
    | none => pure (Fields.cleared k)
    | some parent => (·.fields) <$> get k parent
  modify limit id (restore fields)

/-- A report as a result: counterparts that failed make it an error. -/
def Report.toResult (report : Report) : Except EngineError Report :=
  if report.isComplete then .ok report else .error (.cascadeIncomplete report)

end ExampleOverlay.Cascade
