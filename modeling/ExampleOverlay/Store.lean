import ExampleOverlay.Store.Table

/-!
# The store

A store keeps a table for each kind and counts the batches it accepted. A batch that is refused
leaves it as it was. For the sake of tests a store can be told to fail every batch that writes one
of a set of rows; that is judged before anything else.
-/

namespace ExampleOverlay

/-- Everything that is stored. -/
structure Store where
  tables : PerKind Table := .replicate {}
  /-- Rows that no batch can write at the moment. -/
  failing : Std.ExtTreeSet ItemId := ∅
  /-- How many batches were accepted. -/
  commits : Nat := 0

/-- The rows of a list and the version it is at. -/
structure Scan where
  records : List Record
  version : Nat
deriving DecidableEq

namespace Store

def table (s : Store) (kind : Kind) : Table := s.tables.get kind

/-! ## Reading -/

def get? (s : Store) (kind : Kind) (id : ItemId) : Option Record := (s.table kind).get? id

def scan (s : Store) (kind : Kind) (owner : ExampleId) : Scan :=
  ⟨(s.table kind).ofOwner owner, (s.table kind).version owner⟩

/-- The rows linked to a row. -/
def children (s : Store) (kind : Kind) (parent : ItemId) : List Record := (s.table kind).ofParent parent

def rowCount (s : Store) (kind : Kind) : Nat := (s.table kind).rows.size

/-! ## Writing -/

/-- Makes every batch fail that writes this row. -/
def failWrites (s : Store) (id : ItemId) : Store := { s with failing := s.failing.insert id }

/-- Makes no batch fail any more. -/
def clearFailures (s : Store) : Store := { s with failing := ∅ }

/-- Why a batch is refused. -/
def fault? (s : Store) (b : Batch) : Option StoreError :=
  match b.writes.find? (fun w => s.failing.contains w.id) with
  | some w => some (.backend s!"injected write failure for row {w.id}")
  | none => (s.table b.kind).fault? b

/-- Applies a whole batch or, with the reason, nothing of it. -/
def commit (s : Store) (b : Batch) : Except StoreError Store :=
  match s.fault? b with
  | some e => .error e
  | none => .ok { s with
      tables := s.tables.set b.kind ((s.table b.kind).apply b)
      commits := s.commits + 1 }

end Store

end ExampleOverlay
