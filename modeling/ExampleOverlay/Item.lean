import ExampleOverlay.Fields
import ExampleOverlay.Ident

/-!
# Items

An item is one row of one of an example's lists. Its place is given by the ids of the rows before
and after it. A row of a delta example can be linked to the row it stands in for, its parent in the
origin example; it *tracks* the parent until it is overridden.
-/

namespace ExampleOverlay

/-- A row of a list of kind `k`. -/
@[ext] structure Item (k : Kind) where
  id : ItemId
  /-- The example whose list the row belongs to. -/
  owner : ExampleId
  /-- The row of the origin example that this row stands in for. -/
  parent : Option ItemId
  /-- The row before this one; the head has none. -/
  prev : Option ItemId
  /-- The row after this one; the tail has none. -/
  next : Option ItemId
  fields : Fields k
  /-- A linked row was customized, and changes to its parent no longer reach it. -/
  overridden : Bool
deriving DecidableEq

namespace Item

variable {k : Kind}

/-- A row that stands nowhere yet and is linked to nothing. -/
def fresh (id : ItemId) (owner : ExampleId) (fields : Fields k) : Item k :=
  ⟨id, owner, none, none, none, fields, false⟩

/-- A row of another example that stands in for `origin` and has its fields. -/
def counterpart (id : ItemId) (owner : ExampleId) (origin : Item k) : Item k :=
  { fresh id owner origin.fields with parent := some origin.id }

def isHead (i : Item k) : Bool := i.prev.isNone

def isTail (i : Item k) : Bool := i.next.isNone

def isLinked (i : Item k) : Bool := i.parent.isSome

/-- Linked to `origin` and never customized. -/
def tracks (i origin : Item k) : Bool := i.parent == some origin.id && !i.overridden

end Item

end ExampleOverlay
