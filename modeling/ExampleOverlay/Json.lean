/-!
# JSON values

The payload of a stored record is a JSON value, and so is the record itself when it is handed over.

A *form* is a value with named members. It reads from an object, whose other members are ignored,
or from an array that lists the members in their fixed order; an array may stop early but not go
on. What a missing member means, a fault or a default, is decided member by member. A *name* out of
a fixed set reads from a text, or from an object with that name as its only member and `null` in it.
-/

namespace ExampleOverlay

/-- A JSON value. A number is `mantissa / 10 ^ places`. -/
inductive Json where
  | null
  | bool (b : Bool)
  | number (mantissa : Int) (places : Nat)
  | text (s : String)
  | array (elements : List Json)
  | object (members : List (String × Json))
deriving Inhabited

namespace Json

/-! ## Equality -/

mutual

def decEq : (a b : Json) → Decidable (a = b)
  | .null, .null => isTrue rfl
  | .bool a, .bool b => if h : a = b then isTrue (by rw [h]) else isFalse (by simp [h])
  | .number m p, .number n q =>
    if h : m = n ∧ p = q then isTrue (by rw [h.1, h.2]) else isFalse (by simpa using h)
  | .text a, .text b => if h : a = b then isTrue (by rw [h]) else isFalse (by simp [h])
  | .array xs, .array ys =>
    match decEqElements xs ys with
    | isTrue h => isTrue (by rw [h])
    | isFalse h => isFalse (by simp [h])
  | .object xs, .object ys =>
    match decEqMembers xs ys with
    | isTrue h => isTrue (by rw [h])
    | isFalse h => isFalse (by simp [h])
  | .null, .bool _ | .null, .number .. | .null, .text _ | .null, .array _ | .null, .object _
  | .bool _, .null | .bool _, .number .. | .bool _, .text _ | .bool _, .array _ | .bool _, .object _
  | .number .., .null | .number .., .bool _ | .number .., .text _ | .number .., .array _
  | .number .., .object _
  | .text _, .null | .text _, .bool _ | .text _, .number .. | .text _, .array _ | .text _, .object _
  | .array _, .null | .array _, .bool _ | .array _, .number .. | .array _, .text _
  | .array _, .object _
  | .object _, .null | .object _, .bool _ | .object _, .number .. | .object _, .text _
  | .object _, .array _ => isFalse nofun

def decEqElements : (xs ys : List Json) → Decidable (xs = ys)
  | [], [] => isTrue rfl
  | x :: xs, y :: ys =>
    match decEq x y, decEqElements xs ys with
    | isTrue h, isTrue h' => isTrue (by rw [h, h'])
    | isFalse h, _ => isFalse (by simp [h])
    | _, isFalse h => isFalse (by simp [h])
  | [], _ :: _ | _ :: _, [] => isFalse nofun

def decEqMembers : (xs ys : List (String × Json)) → Decidable (xs = ys)
  | [], [] => isTrue rfl
  | (a, x) :: xs, (b, y) :: ys =>
    if ha : a = b then
      match decEq x y, decEqMembers xs ys with
      | isTrue h, isTrue h' => isTrue (by rw [ha, h, h'])
      | isFalse h, _ => isFalse (by simp [h])
      | _, isFalse h => isFalse (by simp [h])
    else isFalse (by simp [ha])
  | [], _ :: _ | _ :: _, [] => isFalse nofun

end

instance : DecidableEq Json := decEq

/-! ## Reading -/

/-- The value of a member of an object. -/
def lookup (name : String) (members : List (String × Json)) : Option Json :=
  (members.find? (·.1 == name)).map (·.2)

/-- The members of a form, in their fixed order, each absent or present. -/
def form? (names : List String) : Json → Option (List (Option Json))
  | .object members => some (names.map (lookup · members))
  | .array xs =>
    if xs.length ≤ names.length then
      some (xs.map some ++ List.replicate (names.length - xs.length) none)
    else none
  | _ => none

/-- The name that a value gives out of a fixed set of names. -/
def choice? : Json → Option String
  | .text s => some s
  | .object [(s, .null)] => some s
  | _ => none

def text? : Json → Option String
  | .text s => some s
  | _ => none

def bool? : Json → Option Bool
  | .bool b => some b
  | _ => none

/-- Reads a member that may be `null` or left out. -/
def optional? {α : Type} (read : Json → Option α) : Option Json → Option (Option α)
  | none | some .null => some none
  | some v => (read v).map some

/-- Reads a member that must be given. -/
def required? {α : Type} (read : Json → Option α) (member : Option Json) : Option α :=
  member.bind read

/-- Writes a value, or `null` for none. -/
def ofOption {α : Type} (write : α → Json) : Option α → Json
  | none => .null
  | some a => write a

/-- Writes the members that are present. -/
def objectOfPresent (members : List (String × Option Json)) : Json :=
  .object (members.filterMap fun m => m.2.map (m.1, ·))

end Json

end ExampleOverlay
