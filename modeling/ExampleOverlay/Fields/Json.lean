import ExampleOverlay.Fields
import ExampleOverlay.Json

/-!
# Fields and patches as JSON

Fields are written with all their members and read with all of them. A patch is written without
the fields it leaves alone; read, a member that is `null` or missing leaves its field alone.
Main statement: `Fields.ofJson?_toJson`, what is written reads back.
-/

namespace ExampleOverlay

/-! ## Headers and query parameters -/

def KeyValue.memberNames : List String := ["key", "value", "enabled", "description"]

def KeyValue.toJson (f : KeyValue) : Json :=
  .object [("key", .text f.key), ("value", .text f.value), ("enabled", .bool f.enabled),
    ("description", .text f.description)]

def KeyValue.ofJson? (j : Json) : Option KeyValue :=
  match j.form? KeyValue.memberNames with
  | some [key, value, enabled, description] => do
    return {
      key := ← Json.required? Json.text? key
      value := ← Json.required? Json.text? value
      enabled := ← Json.required? Json.bool? enabled
      description := ← Json.required? Json.text? description }
  | _ => none

def KeyValue.Patch.toJson (p : KeyValue.Patch) : Json :=
  Json.objectOfPresent [("key", p.key.map .text), ("value", p.value.map .text),
    ("enabled", p.enabled.map .bool), ("description", p.description.map .text)]

def KeyValue.Patch.ofJson? (j : Json) : Option KeyValue.Patch :=
  match j.form? KeyValue.memberNames with
  | some [key, value, enabled, description] => do
    return {
      key := ← Json.optional? Json.text? key
      value := ← Json.optional? Json.text? value
      enabled := ← Json.optional? Json.bool? enabled
      description := ← Json.optional? Json.text? description }
  | _ => none

/-! ## Assertions -/

def Comparison.ofJson? (j : Json) : Option Comparison := j.choice?.bind Comparison.ofName?

def Condition.toJson (c : Condition) : Json :=
  .object [("comparison", .text c.comparison.name), ("path", .text c.path), ("value", .text c.value)]

def Condition.ofJson? (j : Json) : Option Condition :=
  match j.form? ["comparison", "path", "value"] with
  | some [comparison, path, value] => do
    return {
      comparison := ← Json.required? Comparison.ofJson? comparison
      path := ← Json.required? Json.text? path
      value := ← Json.required? Json.text? value }
  | _ => none

def Assertion.memberNames : List String := ["condition", "enabled"]

def Assertion.toJson (f : Assertion) : Json :=
  .object [("condition", f.condition.toJson), ("enabled", .bool f.enabled)]

def Assertion.ofJson? (j : Json) : Option Assertion :=
  match j.form? Assertion.memberNames with
  | some [condition, enabled] => do
    return {
      condition := ← Json.required? Condition.ofJson? condition
      enabled := ← Json.required? Json.bool? enabled }
  | _ => none

def Assertion.Patch.toJson (p : Assertion.Patch) : Json :=
  Json.objectOfPresent [("condition", p.condition.map Condition.toJson), ("enabled", p.enabled.map .bool)]

def Assertion.Patch.ofJson? (j : Json) : Option Assertion.Patch :=
  match j.form? Assertion.memberNames with
  | some [condition, enabled] => do
    return {
      condition := ← Json.optional? Condition.ofJson? condition
      enabled := ← Json.optional? Json.bool? enabled }
  | _ => none

/-! ## Any kind -/

namespace Fields

def toJson : {k : Kind} → Fields k → Json
  | .header, f | .query, f => KeyValue.toJson f
  | .assertion, f => Assertion.toJson f

def ofJson? : (k : Kind) → Json → Option (Fields k)
  | .header, j | .query, j => KeyValue.ofJson? j
  | .assertion, j => Assertion.ofJson? j

end Fields

namespace Patch

def toJson : {k : Kind} → Patch k → Json
  | .header, p | .query, p => KeyValue.Patch.toJson p
  | .assertion, p => Assertion.Patch.toJson p

def ofJson? : (k : Kind) → Json → Option (Patch k)
  | .header, j | .query, j => KeyValue.Patch.ofJson? j
  | .assertion, j => Assertion.Patch.ofJson? j

end Patch

/-! ## What is written reads back -/

@[simp] theorem KeyValue.ofJson?_toJson (f : KeyValue) : KeyValue.ofJson? f.toJson = some f := rfl

@[simp] theorem Condition.ofJson?_toJson (c : Condition) : Condition.ofJson? c.toJson = some c := by
  cases c with
  | mk comparison path value => cases comparison <;> rfl

@[simp] theorem Assertion.ofJson?_toJson (f : Assertion) : Assertion.ofJson? f.toJson = some f := by
  have h := Condition.ofJson?_toJson f.condition
  simp [Assertion.ofJson?, Assertion.toJson, Json.form?, Assertion.memberNames, Json.lookup,
    Json.required?, Json.bool?, h]

@[simp] theorem Fields.ofJson?_toJson {k : Kind} (f : Fields k) :
    Fields.ofJson? k (Fields.toJson f) = some f := by
  cases k with
  | header | query => exact KeyValue.ofJson?_toJson f
  | assertion => exact Assertion.ofJson?_toJson f

end ExampleOverlay
