import ExampleOverlay.Record

/-!
# Batches

A batch is a set of writes to the table of one kind that take effect together or not at all, under
guards that must hold when it is committed. A draft is a batch of items, not yet of records.
-/

namespace ExampleOverlay

/-- A condition on the table at the moment of the commit. -/
inductive Guard where
  /-- The list of an example is at this version. -/
  | version (owner : ExampleId) (version : Nat)
  /-- The row is stored. -/
  | present (id : ItemId)
  /-- The row is not stored. -/
  | absent (id : ItemId)
deriving DecidableEq

/-- One write to a row. -/
inductive Write where
  /-- Stores a row, in place of the one of the same id if there is one. -/
  | put (record : Record)
  /-- Removes a row; one that is not stored is let pass. -/
  | delete (id : ItemId)
deriving DecidableEq

/-- The row that a write names. -/
def Write.id : Write → ItemId
  | .put record => record.id
  | .delete id => id

/-- Writes to one table, under guards. -/
structure Batch where
  kind : Kind
  guards : List Guard := []
  writes : List Write := []
deriving DecidableEq

/-- A batch of items. -/
structure Draft (k : Kind) where
  versions : List (ExampleId × Nat) := []
  present : List ItemId := []
  absent : List ItemId := []
  puts : List (Item k) := []
  deletes : List ItemId := []
deriving DecidableEq

namespace Draft

variable {k : Kind}

/-- Nothing is written. -/
def isEmpty (d : Draft k) : Bool := d.puts.isEmpty && d.deletes.isEmpty

/-- The batch of a draft: guards on versions, on rows present and on rows absent, in this order, and
all stores before all removals. -/
def toBatch (d : Draft k) : Batch where
  kind := k
  guards := d.versions.map (fun v => .version v.1 v.2) ++ d.present.map .present ++ d.absent.map .absent
  writes := d.puts.map (.put ∘ Record.ofItem) ++ d.deletes.map .delete

end Draft

end ExampleOverlay
