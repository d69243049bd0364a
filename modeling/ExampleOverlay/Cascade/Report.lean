import ExampleOverlay.Ident

/-!
# Cascade reports

A change to a row of an origin example is carried to each of its counterparts; the report says what
became of every one of them.
-/

namespace ExampleOverlay.Cascade

/-- What became of a counterpart. -/
inductive Outcome where
  /-- It has the fields of its parent. -/
  | updated
  /-- It was removed from its list. -/
  | deleted
  /-- It was kept, and its link cleared. -/
  | detached
  /-- It is customized, of a version, or gone. -/
  | skipped
deriving DecidableEq

/-- A counterpart that could not be written, and why. -/
structure Failure where
  id : ItemId
  owner : ExampleId
  error : String
deriving DecidableEq

/-- The counterparts by what became of them. -/
structure Report where
  updated : List ItemId := []
  deleted : List ItemId := []
  detached : List ItemId := []
  skipped : List ItemId := []
  failed : List Failure := []
deriving DecidableEq

namespace Report

/-- No counterpart failed. -/
def isComplete (r : Report) : Bool := r.failed.isEmpty

/-- How many counterparts there were. -/
def total (r : Report) : Nat :=
  r.updated.length + r.deleted.length + r.detached.length + r.skipped.length + r.failed.length

/-- Adds a counterpart. -/
def add (r : Report) (id : ItemId) : Outcome → Report
  | .updated => { r with updated := r.updated ++ [id] }
  | .deleted => { r with deleted := r.deleted ++ [id] }
  | .detached => { r with detached := r.detached ++ [id] }
  | .skipped => { r with skipped := r.skipped ++ [id] }

/-- Adds a counterpart that could not be written. -/
def addFailure (r : Report) (failure : Failure) : Report := { r with failed := r.failed ++ [failure] }

/-- The numbers of the report and its first failure. -/
def message (r : Report) : String :=
  let first := match r.failed.head? with
    | none => ""
    | some f => s!" (first: {f.id} in {f.owner}: {f.error})"
  s!"{r.updated.length} updated, {r.deleted.length} deleted, {r.detached.length} detached, " ++
    s!"{r.skipped.length} skipped, {r.failed.length} failed{first}"

end Report

end ExampleOverlay.Cascade
