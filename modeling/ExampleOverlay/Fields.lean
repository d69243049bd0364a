import ExampleOverlay.Kind
import ExampleOverlay.Text.Blank

/-!
# Fields

What a row says, apart from where it stands: a key and a value for headers and query parameters, a
condition for assertions. A patch sets some of the fields and leaves the others. Both are judged:
a key, or the path of a condition, must not be blank. A patch is judged by the fields it sets
alone, so that a cleared row can be filled in one field at a time.
-/

namespace ExampleOverlay

/-- The rules that fields can break. -/
inductive FieldError where
  | emptyKey
  | emptyConditionPath
deriving DecidableEq

def FieldError.message : FieldError → String
  | .emptyKey => "key must not be empty"
  | .emptyConditionPath => "assertion condition path must not be empty"

/-! ## Headers and query parameters -/

/-- The fields of a header or a query parameter. -/
structure KeyValue where
  key : String := ""
  value : String := ""
  enabled : Bool := false
  description : String := ""
deriving DecidableEq

/-- A change to the fields of a header or a query parameter. -/
structure KeyValue.Patch where
  key : Option String := none
  value : Option String := none
  enabled : Option Bool := none
  description : Option String := none
deriving DecidableEq

namespace KeyValue

/-- An enabled pair without a description. -/
def ofPair (key value : String) : KeyValue := ⟨key, value, true, ""⟩

def patch (f : KeyValue) (p : Patch) : KeyValue where
  key := p.key.getD f.key
  value := p.value.getD f.value
  enabled := p.enabled.getD f.enabled
  description := p.description.getD f.description

def fault? (f : KeyValue) : Option FieldError :=
  if Text.isBlank f.key then some .emptyKey else none

def Patch.fault? (p : Patch) : Option FieldError :=
  if p.key.any Text.isBlank then some .emptyKey else none

end KeyValue

/-! ## Assertions -/

/-- How an assertion compares what it reads with its value. -/
inductive Comparison where
  | equal
  | notEqual
  | contains
  | notContains
  | greaterThan
  | greaterOrEqual
  | lessThan
  | lessOrEqual
deriving DecidableEq

namespace Comparison

def all : List Comparison :=
  [.equal, .notEqual, .contains, .notContains, .greaterThan, .greaterOrEqual, .lessThan, .lessOrEqual]

/-- The name a comparison is stored under. -/
def name : Comparison → String
  | .equal => "equal"
  | .notEqual => "not_equal"
  | .contains => "contains"
  | .notContains => "not_contains"
  | .greaterThan => "greater_than"
  | .greaterOrEqual => "greater_or_equal"
  | .lessThan => "less_than"
  | .lessOrEqual => "less_or_equal"

/-- The comparison of a stored name. -/
def ofName? (s : String) : Option Comparison := all.find? (·.name == s)

@[simp] theorem ofName?_name (c : Comparison) : ofName? c.name = some c := by cases c <;> decide

end Comparison

/-- What an assertion tests: the response value at `path`, compared with `value`. -/
structure Condition where
  comparison : Comparison := .equal
  path : String := ""
  value : String := ""
deriving DecidableEq

/-- The fields of an assertion. -/
structure Assertion where
  condition : Condition := {}
  enabled : Bool := false
deriving DecidableEq

/-- A change to the fields of an assertion; a condition is replaced whole. -/
structure Assertion.Patch where
  condition : Option Condition := none
  enabled : Option Bool := none
deriving DecidableEq

namespace Assertion

/-- An enabled assertion. -/
def ofCondition (c : Condition) : Assertion := ⟨c, true⟩

def patch (f : Assertion) (p : Patch) : Assertion where
  condition := p.condition.getD f.condition
  enabled := p.enabled.getD f.enabled

def fault? (f : Assertion) : Option FieldError :=
  if Text.isBlank f.condition.path then some .emptyConditionPath else none

def Patch.fault? (p : Patch) : Option FieldError :=
  if p.condition.any (Text.isBlank ·.path) then some .emptyConditionPath else none

end Assertion

/-! ## Any kind -/

/-- The fields of a row of a kind. -/
@[reducible] def Fields : Kind → Type
  | .header | .query => KeyValue
  | .assertion => Assertion

/-- A change to the fields of a row of a kind. -/
@[reducible] def Patch : Kind → Type
  | .header | .query => KeyValue.Patch
  | .assertion => Assertion.Patch

instance : (k : Kind) → DecidableEq (Fields k)
  | .header | .query => inferInstanceAs (DecidableEq KeyValue)
  | .assertion => inferInstanceAs (DecidableEq Assertion)

instance : (k : Kind) → DecidableEq (Patch k)
  | .header | .query => inferInstanceAs (DecidableEq KeyValue.Patch)
  | .assertion => inferInstanceAs (DecidableEq Assertion.Patch)

namespace Fields

/-- The fields of a cleared row: all texts empty, not enabled. -/
def cleared : (k : Kind) → Fields k
  | .header | .query => ({} : KeyValue)
  | .assertion => ({} : Assertion)

/-- The fields after a patch. -/
def patch : {k : Kind} → Fields k → Patch k → Fields k
  | .header, f, p | .query, f, p => KeyValue.patch f p
  | .assertion, f, p => Assertion.patch f p

/-- The rule that the fields of a row break, if they break one. -/
def fault? : {k : Kind} → Fields k → Option FieldError
  | .header, f | .query, f => KeyValue.fault? f
  | .assertion, f => Assertion.fault? f

end Fields

/-- The rule that the fields set by a patch break, if they break one. -/
def Patch.fault? : {k : Kind} → Patch k → Option FieldError
  | .header, p | .query, p => KeyValue.Patch.fault? p
  | .assertion, p => Assertion.Patch.fault? p

theorem KeyValue.fault?_patch {f : KeyValue} {p : KeyValue.Patch} (hf : f.fault? = none)
    (hp : p.fault? = none) : (f.patch p).fault? = none := by
  cases h : p.key <;> simp_all [KeyValue.fault?, KeyValue.Patch.fault?, KeyValue.patch]

theorem Assertion.fault?_patch {f : Assertion} {p : Assertion.Patch} (hf : f.fault? = none)
    (hp : p.fault? = none) : (f.patch p).fault? = none := by
  cases h : p.condition <;> simp_all [Assertion.fault?, Assertion.Patch.fault?, Assertion.patch]

/-- Sound fields stay sound under a sound patch. -/
theorem Fields.fault?_patch {k : Kind} {f : Fields k} {p : Patch k} (hf : Fields.fault? f = none)
    (hp : Patch.fault? p = none) : Fields.fault? (Fields.patch f p) = none := by
  cases k with
  | header | query => exact KeyValue.fault?_patch hf hp
  | assertion => exact Assertion.fault?_patch hf hp

end ExampleOverlay
