/-!
# Kinds of rows

An example owns three lists: the headers and the query parameters of a request, and the assertions
on its response. The three never mix: a store keeps a table for each.
-/

namespace ExampleOverlay

/-- The kinds of rows. -/
inductive Kind where
  | header
  | query
  | assertion
deriving DecidableEq

namespace Kind

/-- The kinds, in the order in which they are listed. -/
def all : List Kind := [.header, .query, .assertion]

/-- The name a kind is stored under. -/
def name : Kind → String
  | .header => "header"
  | .query => "query"
  | .assertion => "assertion"

instance : ToString Kind := ⟨name⟩

/-- The kind of a stored name. -/
def ofName? (s : String) : Option Kind := all.find? (·.name == s)

@[simp] theorem ofName?_name (k : Kind) : ofName? k.name = some k := by cases k <;> decide

end Kind

/-- One value for each kind. -/
structure PerKind (α : Type) where
  header : α
  query : α
  assertion : α

namespace PerKind

variable {α : Type}

/-- The same value for every kind. -/
def replicate (a : α) : PerKind α := ⟨a, a, a⟩

/-- The value for one kind. -/
def get (p : PerKind α) : Kind → α
  | .header => p.header
  | .query => p.query
  | .assertion => p.assertion

/-- Changes the value for one kind. -/
def set (p : PerKind α) (k : Kind) (a : α) : PerKind α :=
  match k with
  | .header => { p with header := a }
  | .query => { p with query := a }
  | .assertion => { p with assertion := a }

@[ext] theorem ext {p q : PerKind α} (h : ∀ k, p.get k = q.get k) : p = q := by
  cases p; cases q
  have hh := h .header; have hq := h .query; have ha := h .assertion
  simp only [get] at hh hq ha
  simp [hh, hq, ha]

@[simp] theorem get_replicate (a : α) (k : Kind) : (replicate a).get k = a := by cases k <;> rfl

theorem get_set (p : PerKind α) (k l : Kind) (a : α) :
    (p.set k a).get l = if l = k then a else p.get l := by
  cases k <;> cases l <;> rfl

end PerKind

end ExampleOverlay
