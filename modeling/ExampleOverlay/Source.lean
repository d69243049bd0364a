import ExampleOverlay.Item

/-!
# Where the values of a row come from

By itself a row is known by two facts, whether it is linked and whether its example is a version of
another: an unlinked row of a plain example is an origin's, a linked one is mixed, and all rows of a
version are its own. Seen in an overlay, a linked row that still tracks its parent shows the
origin's values, and an unlinked row is the delta example's own. Values are never compared.
-/

namespace ExampleOverlay

/-- Where the values of a row come from. -/
inductive Source where
  /-- Taken unchanged from the origin example. -/
  | origin
  /-- Linked to a row of the origin example and customized. -/
  | mixed
  /-- The delta example's own. -/
  | delta
deriving DecidableEq

namespace Source

def all : List Source := [.origin, .mixed, .delta]

def name : Source → String
  | .origin => "ORIGIN"
  | .mixed => "MIXED"
  | .delta => "DELTA"

/-- The row still shows what the origin's row shows. -/
def isPristine (s : Source) : Bool := s == .origin

/-- The source of a row by itself. -/
def classify (linked version : Bool) : Source :=
  match linked, version with
  | false, false => .origin
  | true, false => .mixed
  | _, true => .delta

/-- The source of a row seen in an overlay, beside its parent if that is known. A linked row whose
parent is not known stays mixed. -/
def resolve {k : Kind} (row : Item k) (parent : Option (Item k)) (version : Bool) : Source :=
  match classify row.isLinked version with
  | .mixed => if parent.any row.tracks then .origin else .mixed
  | .origin => .delta
  | .delta => .delta

end Source

end ExampleOverlay
