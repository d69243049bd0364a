import ExampleOverlay.Fields.Json
import ExampleOverlay.Ident.Json
import ExampleOverlay.Item

/-!
# Stored records

Rows of every kind are stored in one shape: the kind, the columns that all rows have, and the fields
as a JSON payload. Main statement: `Record.toItem_ofItem`, an item comes back as it was stored.
-/

namespace ExampleOverlay

/-- A row as it is stored. -/
@[ext] structure Record where
  kind : Kind
  id : ItemId
  owner : ExampleId
  parent : Option ItemId
  prev : Option ItemId
  next : Option ItemId
  overridden : Bool
  payload : Json
deriving DecidableEq

/-- Why a record is no item of the kind asked for. -/
inductive RecordError where
  | kindMismatch (id : ItemId) (expected actual : Kind)
  /-- The payload is not the fields of a row of this kind. -/
  | payload (kind : Kind)
deriving DecidableEq

def RecordError.message : RecordError → String
  | .kindMismatch id expected actual => s!"record {id} is a {actual}, expected {expected}"
  | .payload kind => s!"payload codec error for {kind} record: not the fields of this kind"

namespace Record

/-! ## Items -/

def ofItem {k : Kind} (i : Item k) : Record :=
  ⟨k, i.id, i.owner, i.parent, i.prev, i.next, i.overridden, i.fields.toJson⟩

/-- The item that a record holds. Its kind is judged before its payload. -/
def toItem (k : Kind) (r : Record) : Except RecordError (Item k) :=
  if r.kind ≠ k then .error (.kindMismatch r.id k r.kind)
  else match Fields.ofJson? k r.payload with
    | none => .error (.payload k)
    | some fields => .ok ⟨r.id, r.owner, r.parent, r.prev, r.next, fields, r.overridden⟩

/-- The items that records hold, or the first fault. -/
def toItems (k : Kind) (rs : List Record) : Except RecordError (List (Item k)) := rs.mapM (toItem k)

@[simp] theorem toItem_ofItem {k : Kind} (i : Item k) : toItem k (ofItem i) = .ok i := by
  simp [toItem, ofItem]

/-! ## JSON -/

def memberNames : List String :=
  ["kind", "id", "example_id", "delta_parent_id", "prev", "next", "overridden", "payload"]

/-- A record as JSON; `overridden` is written only when it is true. -/
def toJson (r : Record) : Json :=
  Json.objectOfPresent [("kind", some (.text r.kind.name)), ("id", some r.id.toJson),
    ("example_id", some r.owner.toJson), ("delta_parent_id", some (Json.ofOption Ident.toJson r.parent)),
    ("prev", some (Json.ofOption Ident.toJson r.prev)), ("next", some (Json.ofOption Ident.toJson r.next)),
    ("overridden", if r.overridden then some (.bool true) else none), ("payload", some r.payload)]

/-- A record from JSON. The three links may be `null` or missing and `overridden` may be missing. -/
def ofJson? (j : Json) : Option Record :=
  match j.form? memberNames with
  | some [kind, id, owner, parent, prev, next, overridden, payload] => do
    return {
      kind := ← Json.required? (fun v => v.choice?.bind Kind.ofName?) kind
      id := ← Json.required? Ident.ofJson? id
      owner := ← Json.required? Ident.ofJson? owner
      parent := ← Json.optional? Ident.ofJson? parent
      prev := ← Json.optional? Ident.ofJson? prev
      next := ← Json.optional? Ident.ofJson? next
      overridden := ← match overridden with
        | none => some false
        | some v => v.bool?
      payload := ← payload }
  | _ => none

end Record

end ExampleOverlay
