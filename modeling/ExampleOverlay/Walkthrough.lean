import ExampleOverlay.Service
import ExampleOverlay.World

/-!
# A walkthrough

Four headers in an origin example and a delta example that sees them: the overlay is read for the
first time, a row is moved and customized in the delta, another is edited in the origin, and the
customized one is reset. After each step the origin's keys and the overlay are recorded, and in the
end both lists are walked.
-/

namespace ExampleOverlay

/-- What was seen after one step. -/
structure WalkthroughStep where
  title : String
  /-- The keys of the origin's rows in list order. -/
  origin : List String
  overlay : List (OverlayRow .header)

/-- Everything that was seen. -/
structure Walkthrough where
  origin : ExampleId
  delta : ExampleId
  steps : List WalkthroughStep
  originCheck : ChainSummary
  deltaCheck : ChainSummary

namespace Walkthrough

open Program

/-- The keys of an example's headers in list order. -/
def keys (owner : ExampleId) : Program (List String) :=
  (·.map (·.fields.key)) <$> Service.list .header owner

/-- The first element with a key. -/
def withKey {α : Type} (keyOf : α → String) (key : String) (xs : List α) : Program α :=
  match xs.find? (keyOf · == key) with
  | some x => return x
  | none => fail (.invalidArgument s!"no row {key}")

/-- Records the origin's keys and the overlay. -/
def look (limit : Nat) (origin delta : ExampleId) (title : String) : Program WalkthroughStep := do
  let keys ← keys origin
  let overlay ← Service.deltaList limit .header delta origin
  return ⟨title, keys, overlay⟩

/-- The `n`th header of the origin. -/
def header (n : Nat) : Fields .header := KeyValue.ofPair s!"H{n}" s!"origin-{n}"

/-- The patch that sets a header's value. -/
def setValue (value : String) : Patch .header := { value := some value : KeyValue.Patch }

/-- The walkthrough of two examples without rows. -/
def program (limit : Nat) (origin delta : ExampleId) : Program Walkthrough := do
  let _ ← collect (fun n => Service.create limit origin (header n)) [1, 2, 3, 4]
  -- the first reading of the overlay is the step itself, so it comes before the origin's keys
  let overlay ← Service.deltaList limit .header delta origin
  let materialized : WalkthroughStep :=
    ⟨"first overlay read materializes counterparts", ← keys origin, overlay⟩
  let first ← withKey (·.fields.key) "H1" overlay
  let last ← withKey (·.fields.key) "H4" overlay
  let _ ← Editing.move limit .header delta last.id first.id .after
  let moved ← look limit origin delta "move H4 after H1 in the delta example"
  let _ ← Service.deltaUpdate limit first.id (setValue "delta-1")
  let customized ← look limit origin delta "customize H1 in the delta example"
  let second ← withKey (·.fields.key) "H2" (← Service.list .header origin)
  let _ ← Service.update limit second.id (setValue "origin-2b")
  let edited ← look limit origin delta
    "edit H2 in the origin example (propagates to the pristine counterpart)"
  let _ ← Service.deltaReset limit .header first.id
  let reset ← look limit origin delta "reset H1 in the delta example"
  let originCheck ← Service.verify .header origin
  let deltaCheck ← Service.verify .header delta
  return ⟨origin, delta, [materialized, moved, customized, edited, reset], originCheck, deltaCheck⟩

/-- Walks through two new examples. -/
def run (limit : Nat) (w : World) : Except EngineError Walkthrough × World :=
  let (origin, w) := w.createExample
  let (delta, w) := w.createExample
  w.run (program limit origin delta)

end Walkthrough

end ExampleOverlay
