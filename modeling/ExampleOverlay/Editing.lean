import ExampleOverlay.Access

/-!
# Editing lists

Every edit reads a list, plans against it, and commits under the version it read. If another client
changed the list in between, the commit is refused and the edit is planned anew, up to `limit` times.
-/

namespace ExampleOverlay.Editing

open Program

variable {k : Kind}

/-- Links a row after the tail of its example's list; gives the row as it is stored. -/
def append (limit : Nat) (item : Item k) : Program (Item k) :=
  retry .append limit do
    let list ← chain k item.owner
    let splice := list.appendAll [item]
    commitSplice list splice
    return (splice.puts.find? (·.id == item.id)).getD item

/-- Takes a row out of its list; gives the row as it was. -/
def remove (limit : Nat) (k : Kind) (id : ItemId) : Program (Item k) :=
  retry .remove limit do
    let item ← get k id
    let list ← chain k item.owner
    match list.remove? id with
    | none => fail (.notFound k id)
    | some splice =>
      commitSplice list splice
      return item

/-- Moves a row next to another row of its list; tells whether it was not there already. -/
def move (limit : Nat) (k : Kind) (owner : ExampleId) (id target : ItemId) (side : Side) : Program Bool :=
  if id = target then fail (.selfReferentialMove id)
  else retry .move limit do
    let list ← chain k owner
    if !list.contains id then
      -- a row that is stored nowhere is told from one of another example
      let _ ← get k id
      fail (.exampleMismatch k id owner)
    else
      let splice ← ofExcept (list.move id target side)
      if splice.isEmpty then return false
      commitSplice list splice
      return true

/-- Changes a row in its place. `edit` gives the changed row and whether to store it; the changed row
is the result either way. -/
def modify (limit : Nat) (id : ItemId) (edit : Item k → Except EngineError (Item k × Bool)) :
    Program (Item k) :=
  retry .modify limit do
    let current ← get k id
    let list ← chain k current.owner
    match list.get? id with
    | none => fail (.notFound k id)
    | some item =>
      let (edited, store) ← ofExcept (edit item)
      if store then
        commit { versions := [(list.owner, list.version)], present := [id], puts := [edited] : Draft k }
      return edited

end ExampleOverlay.Editing
