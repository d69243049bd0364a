/-!
# TOML documents as trees

A document is a table. It is put together from assignments and headers in the order they are
written; each may add to what is there but not define anything twice. How a table came about
decides what can still be added to it.
-/

namespace ExampleOverlay.Toml

/-- How a table came about. -/
inductive Form where
  /-- Written as a value; it is complete. -/
  | inline
  /-- Opened by a header of its own. -/
  | header
  /-- Implied by the header of a table inside it. -/
  | implied
  /-- Implied by an assignment to a dotted key. -/
  | dotted
deriving DecidableEq

/-- A value, a table, or the tables of headers in double brackets. Numbers with a point or an exponent
and times are kept as they are written. -/
inductive Node where
  | text (s : String)
  | integer (n : Int)
  | float (written : String)
  | boolean (b : Bool)
  | time (written : String)
  | array (elements : List Node)
  | table (form : Form) (members : List (String × Node))
  | tables (elements : List (List (String × Node)))
deriving Inhabited

/-- What a table holds, in the order it was written. -/
abbrev Members := List (String × Node)

namespace Members

/-- Puts another value in the place of a member. -/
def replace (ms : Members) (key : String) (v : Node) : Members :=
  ms.map fun m => if m.1 = key then (key, v) else m

/-- Changes the last of several tables. -/
def changeLast (f : Members → Option Members) : List Members → Option (List Members)
  | [] => none
  | [last] => do return [← f last]
  | first :: rest => do return first :: (← changeLast f rest)

/-- Assigns to a key inside the tables that a dotted key names. Those it makes are open to further
dotted keys; a table with a header of its own, or a complete one, is not, and a table implied by a
header can only be passed through. -/
def assign (key : String) (v : Node) : (path : List String) → Members → Option Members
  | [], ms => if (ms.lookup key).isSome then none else some (ms ++ [(key, v)])
  | p :: path, ms =>
    match ms.lookup p with
    | none => do
      let inner ← assign key v path []
      return ms ++ [(p, .table .dotted inner)]
    | some (.table form inner) =>
      if form = .dotted ∨ form = .implied ∧ path ≠ [] then do
        let inner ← assign key v path inner
        return ms.replace p (.table form inner)
      else none
    | some (.tables elements) =>
      if path = [] then none
      else do
        let elements ← changeLast (assign key v path) elements
        return ms.replace p (.tables elements)
    | some _ => none

/-- Changes the table that a header names, and makes the tables on the way that are missing. Of
several tables of one name the last is meant. -/
def within (f : Members → Option Members) : (path : List String) → Members → Option Members
  | [], ms => f ms
  | p :: path, ms =>
    match ms.lookup p with
    | none => do
      let inner ← within f path []
      return ms ++ [(p, .table .implied inner)]
    | some (.table form inner) =>
      if form = .inline then none
      else do
        let inner ← within f path inner
        return ms.replace p (.table form inner)
    | some (.tables elements) => do
      let elements ← changeLast (within f path) elements
      return ms.replace p (.tables elements)
    | some _ => none

/-- Opens a table; one that is there must be there only because a longer header implied it. -/
def openTable (key : String) (ms : Members) : Option Members :=
  match ms.lookup key with
  | none => some (ms ++ [(key, .table .header [])])
  | some (.table .implied inner) => some (ms.replace key (.table .header inner))
  | some _ => none

/-- Opens one more of several tables of a name. -/
def openElement (key : String) (ms : Members) : Option Members :=
  match ms.lookup key with
  | none => some (ms ++ [(key, .tables [[]])])
  | some (.tables elements) => some (ms.replace key (.tables (elements ++ [[]])))
  | some _ => none

end Members

/-! ## Statements -/

/-- One line of a document that says something. A dotted key is its last part behind the path of
the others. -/
inductive Statement where
  | assign (path : List String) (key : String) (v : Node)
  | table (path : List String) (key : String)
  | element (path : List String) (key : String)

/-- The tree of a document, while its statements are read: `here` is the table that the last header
opened. -/
structure Draft where
  root : Members := []
  here : List String := []

def Draft.add (d : Draft) : Statement → Option Draft
  | .assign path key v => do
    let root ← d.root.within (Members.assign key v path) d.here
    return { d with root }
  | .table path key => do
    let root ← d.root.within (Members.openTable key) path
    return ⟨root, path ++ [key]⟩
  | .element path key => do
    let root ← d.root.within (Members.openElement key) path
    return ⟨root, path ++ [key]⟩

/-- The table that statements define, unless one of them defines something twice. -/
def Members.ofStatements (ss : List Statement) : Option Members :=
  (ss.foldlM Draft.add {}).map (·.root)

end ExampleOverlay.Toml
