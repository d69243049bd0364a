import ExampleOverlay.Cascade
import ExampleOverlay.Overlay

/-!
# The service

What clients call, for rows of one kind: creating, changing, deleting and moving rows of an origin
example, and the same for a delta example, whose list is filled with counterparts of the origin's
rows when its overlay is read. `limit` bounds how often an edit is planned.
-/

namespace ExampleOverlay.Service

open Program Editing

variable {k : Kind}

/-! ## Any example -/

/-- The rows of an example in list order. -/
def list (k : Kind) (owner : ExampleId) : Program (List (Item k)) := (·.items) <$> chain k owner

/-- Walks the list of an example. -/
def verify (k : Kind) (owner : ExampleId) : Program ChainSummary := Chain.summary <$> chain k owner

/-- Stops at fields that break a rule. -/
def require (fault : Option FieldError) : Program Unit :=
  match fault with
  | none => return ()
  | some e => fail (.invalidFields e)

/-- Appends a row and gives its id. -/
def create (limit : Nat) (owner : ExampleId) (fields : Fields k) : Program ItemId := do
  require (Fields.fault? fields)
  let item ← append limit (Item.fresh (← mint) owner fields)
  return item.id

/-- The edit that patches a row. If the patch customizes, a linked row is marked as overridden even
when its values stay the same. -/
def applyPatch (patch : Patch k) (customize : Bool) (row : Item k) : Except EngineError (Item k × Bool) :=
  let fields := Fields.patch row.fields patch
  let mark := customize && row.isLinked && !row.overridden
  if fields = row.fields ∧ mark = false then .ok (row, false)
  else .ok ({ row with fields, overridden := row.overridden || mark }, true)

/-- Patches a row. -/
def patchRow (limit : Nat) (id : ItemId) (patch : Patch k) (customize : Bool) : Program (Item k) := do
  require (Patch.fault? patch)
  modify limit id (applyPatch patch customize)

/-! ## Origin examples -/

/-- Patches a row and carries the change to its counterparts. -/
def update (limit : Nat) (id : ItemId) (patch : Patch k) : Program Cascade.Report := do
  let before ← get k id
  let after ← patchRow limit id patch false
  if after.fields = before.fields then return {}
  let report ← Cascade.update limit before after
  ofExcept report.toResult

/-- Deletes a row and carries that to its counterparts. -/
def delete (limit : Nat) (k : Kind) (id : ItemId) : Program Cascade.Report := do
  let removed ← remove limit k id
  let report ← Cascade.delete limit removed
  ofExcept report.toResult

/-! ## Delta examples -/

/-- Appends a counterpart to the delta's list for every row of the origin that has none, all in one
commit, and gives the delta's list. -/
def materialize (limit : Nat) (origin : Chain k) (delta : ExampleId) : Program (Chain k) :=
  retry .materialize limit do
    let current ← chain k delta
    let missing := Overlay.uncovered origin current
    if missing.isEmpty then return current
    let rows ← collect (fun row => return Item.counterpart (← mint) delta row) missing
    commitSplice current (current.appendAll rows)
    chain k delta

/-- No example is the origin of itself. -/
def requireOther (delta origin : ExampleId) : Program Unit :=
  if delta = origin then fail (.invalidArgument s!"example {delta} cannot be its own origin") else return ()

/-- The overlay of an origin as seen from a delta, after every row of the origin got a counterpart. -/
def deltaList (limit : Nat) (k : Kind) (delta origin : ExampleId) : Program (List (OverlayRow k)) := do
  requireOther delta origin
  let originList ← chain k origin
  let deltaList ← materialize limit originList delta
  let version ← isVersion delta
  return Overlay.compose originList deltaList version

/-- The parent of a row to be created in a delta, which must be a row of the origin given. -/
def requireParent (k : Kind) (delta : ExampleId) (origin : Option ExampleId) (parent : ItemId) :
    Program Unit :=
  match origin with
  | none => fail (.invalidArgument "origin example is required when a parent item is given")
  | some origin => do
    requireOther delta origin
    let row ← get k parent
    if row.owner = origin then return () else fail (.parentMismatch parent origin)

/-- Appends a row to a delta. One with a parent starts out overridden. -/
def deltaCreate (limit : Nat) (delta : ExampleId) (origin : Option ExampleId) (parent : Option ItemId)
    (fields : Fields k) : Program ItemId := do
  require (Fields.fault? fields)
  match parent with
  | none => pure ()
  | some parent => requireParent k delta origin parent
  let row := Item.fresh (← mint) delta fields
  let item ← append limit { row with parent, overridden := parent.isSome }
  return item.id

/-- Patches a row of a delta. A linked one no longer follows its parent. -/
def deltaUpdate (limit : Nat) (id : ItemId) (patch : Patch k) : Program (Item k) :=
  patchRow limit id patch true

/-- Removes a row of a delta. -/
def deltaDelete (limit : Nat) (k : Kind) (id : ItemId) : Program Unit := do
  let _ ← remove limit k id

/-- Gives a row of a delta its parent's values back. -/
def deltaReset (limit : Nat) (k : Kind) (id : ItemId) : Program (Item k) := Cascade.reset limit k id

end ExampleOverlay.Service
