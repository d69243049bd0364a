import ExampleOverlay.Chain
import ExampleOverlay.Source

/-!
# Overlays

A delta example sees the rows of an origin example through counterparts in its own list. The
overlay shows the delta's rows in the delta's order. Of several rows with one parent the customized
ones are shown and the pristine ones hidden, or, when all are pristine, the first of them is shown.
-/

namespace ExampleOverlay

/-- One row of an overlay. -/
structure OverlayRow (k : Kind) where
  id : ItemId
  parent : Option ItemId
  /-- The values in effect. -/
  fields : Fields k
  /-- The current values of the parent, for a row that does not show them itself. -/
  origin : Option (Fields k)
  source : Source
deriving DecidableEq

namespace Overlay

variable {k : Kind}

/-- The rows of the origin that no row of the delta is linked to. -/
def uncovered (origin delta : Chain k) : List (Item k) :=
  origin.items.filter fun row => !delta.items.any (·.parent == some row.id)

/-- The row of the origin that a row is linked to. -/
def parentIn (origin : Chain k) (row : Item k) : Option (Item k) := row.parent.bind origin.get?

/-- The source of a row of the delta. -/
def sourceOf (origin : Chain k) (version : Bool) (row : Item k) : Source :=
  Source.resolve row (parentIn origin row) version

/-- What is shown of a row. -/
def rowOf (origin : Chain k) (version : Bool) (row : Item k) : OverlayRow k :=
  let source := sourceOf origin version row
  { id := row.id
    parent := row.parent
    fields := row.fields
    origin := if source.isPristine then none else (parentIn origin row).map (·.fields)
    source }

/-- The parents that a customized row of the delta stands in for. -/
def customized (origin delta : Chain k) (version : Bool) : List ItemId :=
  (delta.items.filter fun row => !(sourceOf origin version row).isPristine).filterMap (·.parent)

/-- The rows to show of those left in the delta. A pristine row is hidden when its parent is in
`hidden`; once it is shown, its parent is put there. -/
def shown (origin : Chain k) (version : Bool) (hidden : List ItemId) : List (Item k) → List (Item k)
  | [] => []
  | row :: rest =>
    if (sourceOf origin version row).isPristine then
      match row.parent with
      | none => shown origin version hidden rest
      | some parent =>
        if parent ∈ hidden then shown origin version hidden rest
        else row :: shown origin version (parent :: hidden) rest
    else row :: shown origin version hidden rest

/-- The overlay of an origin as seen from a delta. -/
def compose (origin delta : Chain k) (version : Bool) : List (OverlayRow k) :=
  (shown origin version (customized origin delta version) delta.items).map (rowOf origin version)

end Overlay

end ExampleOverlay
