import ExampleOverlay.Chain
import ExampleOverlay.Error

/-!
# Splices

A change to a chain is planned, not made: a splice names the rows to store and those to delete,
and only rows whose links change are stored. Committed under the version of the chain it was planned
on, it finds the list as it was then or is refused.
-/

namespace ExampleOverlay

/-- The rows to store and to delete for one change to a chain. -/
structure Splice (k : Kind) where
  puts : List (Item k) := []
  deletes : List ItemId := []
deriving DecidableEq

namespace Splice

variable {k : Kind}

/-- There is nothing to write. -/
def isEmpty (s : Splice k) : Bool := s.puts.isEmpty && s.deletes.isEmpty

/-- Stores a row in place of those of the same id. -/
def store (rows : List (Item k)) (i : Item k) : List (Item k) := rows.filter (·.id != i.id) ++ [i]

/-- The rows of a list after a splice. -/
def applyTo (s : Splice k) (rows : List (Item k)) : List (Item k) :=
  s.puts.foldl store (rows.filter fun i => !s.deletes.contains i.id)

/-- The batch of a splice, guarded by the version of the list and the presence of what is deleted. -/
def toDraft (s : Splice k) (owner : ExampleId) (version : Nat) : Draft k where
  versions := [(owner, version)]
  present := s.deletes
  puts := s.puts
  deletes := s.deletes

end Splice

namespace Chain

variable {k : Kind}

/-- Links new rows after the tail, in the order given. -/
def appendAll (c : Chain k) (items : List (Item k)) : Splice k :=
  match items with
  | [] => {}
  | first :: _ =>
    let tail := c.tail?.map fun t => { t with next := some first.id }
    { puts := tail.toList ++ link (c.tail?.map (·.id)) items }

/-- Takes a row out and links its neighbours to each other. -/
def remove? (c : Chain k) (id : ItemId) : Option (Splice k) :=
  match c.position? id with
  | none => none
  | some place =>
    let before := if place = 0 then none else c.items[place - 1]?
    let after := c.items[place + 1]?
    let relinkedBefore := before.map fun i => { i with next := after.map (·.id) }
    let relinkedAfter := after.map fun i => { i with prev := before.map (·.id) }
    some { puts := relinkedBefore.toList ++ relinkedAfter.toList, deletes := [id] }

/-- The rows of the chain without one of them. -/
def others (c : Chain k) (id : ItemId) : List (Item k) := c.items.filter (·.id != id)

/-- Rows whose links change when rows are put into a new order, with their new links. -/
def relinked (order : List (Item k)) : List (Item k) :=
  ((order.zip (link none order)).filter fun p => p.1 != p.2).map (·.2)

/-- Moves a row next to another. -/
def move (c : Chain k) (id target : ItemId) (side : Side) : Except EngineError (Splice k) :=
  if id = target then .error (.selfReferentialMove id)
  else match c.get? id with
    | none => .error (.exampleMismatch k id c.owner)
    | some moving =>
      match (c.others id).findIdx? (·.id == target) with
      | none => .error (.invalidTarget target c.owner)
      | some anchor =>
        let place := match side with
          | .before => anchor
          | .after => anchor + 1
        .ok { puts := relinked ((c.others id).insertIdx place moving) }

end Chain

end ExampleOverlay
