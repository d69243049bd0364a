import ExampleOverlay.Fields.Json
import ExampleOverlay.Ident.Json
import ExampleOverlay.Json.Pretty
import ExampleOverlay.Text.Column
import ExampleOverlay.Walkthrough

/-!
# Reports of a walkthrough

A walkthrough is shown as text, with a line for each row of each overlay, or as JSON with all that
was recorded.
-/

namespace ExampleOverlay

/-! ## Text -/

/-- A row by where its values come from, its key and its value. -/
def OverlayRow.line (row : OverlayRow .header) : String :=
  let source := Text.pad .left 6 row.source.name
  s!"    {source} {row.fields.key} = {row.fields.value}\n"

def WalkthroughStep.text (step : WalkthroughStep) : String :=
  let keys := ", ".intercalate step.origin
  s!"\n== {step.title}\n  origin:  [{keys}]\n  overlay:\n" ++
    String.join (step.overlay.map OverlayRow.line)

def Walkthrough.text (w : Walkthrough) : String :=
  s!"origin example: {w.origin}\ndelta example:  {w.delta}\n" ++
    String.join (w.steps.map WalkthroughStep.text) ++
    s!"\nintegrity: origin {w.originCheck.count} rows (v{w.originCheck.version}), " ++
    s!"delta {w.deltaCheck.count} rows (v{w.deltaCheck.version})\n"

/-! ## JSON -/

def OverlayRow.toJson {k : Kind} (row : OverlayRow k) : Json :=
  .object [("id", row.id.toJson), ("delta_parent_id", Json.ofOption Ident.toJson row.parent),
    ("fields", Fields.toJson row.fields), ("origin", Json.ofOption Fields.toJson row.origin),
    ("source", .text row.source.name)]

def ChainSummary.toJson (s : ChainSummary) : Json :=
  .object [("example", s.owner.toJson), ("count", .number s.count 0), ("head", Json.ofOption Ident.toJson s.head),
    ("tail", Json.ofOption Ident.toJson s.tail), ("version", .number s.version 0)]

def WalkthroughStep.toJson (step : WalkthroughStep) : Json :=
  .object [("title", .text step.title), ("origin", .array (step.origin.map .text)),
    ("overlay", .array (step.overlay.map OverlayRow.toJson))]

def Walkthrough.toJson (w : Walkthrough) : Json :=
  .object [("origin_example", w.origin.toJson), ("delta_example", w.delta.toJson),
    ("steps", .array (w.steps.map WalkthroughStep.toJson)), ("origin_check", w.originCheck.toJson),
    ("delta_check", w.deltaCheck.toJson)]

end ExampleOverlay
