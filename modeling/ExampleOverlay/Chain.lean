import ExampleOverlay.Store.Batch

/-!
# Chains

The rows of an example are stored in no order; their links give the order. A chain is what a walk
along the links finds: it starts at the only row without a predecessor, follows `next`, and has to
be led back by each row's `prev` until it has seen every row. Rows that are anything but one chain
are refused with the first fault of the walk.
-/

namespace ExampleOverlay

/-- How rows can fail to be one chain. -/
inductive ChainFault where
  /-- A row belongs to another example. -/
  | foreignRow (id : ItemId) (actual : ExampleId)
  /-- Every row has a predecessor. -/
  | noHead (count : Nat)
  /-- Several rows have no predecessor. -/
  | multipleHeads (count : Nat)
  /-- The walk came to a row it had seen. -/
  | cycle (id : ItemId)
  /-- A row's successor is not among the rows. -/
  | dangling (source target : ItemId)
  /-- A row's successor has another predecessor. -/
  | brokenBacklink (source target : ItemId) (back : Option ItemId)
  /-- The walk ended before it had seen every row. -/
  | unreached (reached total : Nat)
deriving DecidableEq

def ChainFault.message : ChainFault → String
  | .foreignRow id actual => s!"row {id} belongs to example {actual}"
  | .noHead count => s!"no head among {count} rows"
  | .multipleHeads count => s!"{count} heads"
  | .cycle id => s!"row {id} visited twice"
  | .dangling source target => s!"row {source} links to missing row {target}"
  | .brokenBacklink source target back =>
    let back := match back with
      | none => "None"
      | some id => s!"Some({id.raw})"
    s!"row {source} links forward to {target}, but {target} links back to {back}"
  | .unreached reached total => s!"walk reached {reached} of {total} rows"

/-- The rows of one example in list order, and the version of the list they were read at. -/
structure Chain (k : Kind) where
  owner : ExampleId
  version : Nat
  items : List (Item k)
deriving DecidableEq

/-- What is told of a chain that was found sound. -/
structure ChainSummary where
  owner : ExampleId
  count : Nat
  head : Option ItemId
  tail : Option ItemId
  version : Nat
deriving DecidableEq

/-- Which side of its target a moved row lands on. -/
inductive Side where
  | before
  | after
deriving DecidableEq

namespace Chain

variable {k : Kind}

/-! ## Looking into a chain -/

def empty (owner : ExampleId) : Chain k := ⟨owner, 0, []⟩

def ids (c : Chain k) : List ItemId := c.items.map (·.id)

def size (c : Chain k) : Nat := c.items.length

def get? (c : Chain k) (id : ItemId) : Option (Item k) := c.items.find? (·.id == id)

def contains (c : Chain k) (id : ItemId) : Bool := c.items.any (·.id == id)

/-- Where a row stands, counted from 0. -/
def position? (c : Chain k) (id : ItemId) : Option Nat := c.items.findIdx? (·.id == id)

def head? (c : Chain k) : Option (Item k) := c.items.head?

def tail? (c : Chain k) : Option (Item k) := c.items.getLast?

def summary (c : Chain k) : ChainSummary :=
  ⟨c.owner, c.size, c.head?.map (·.id), c.tail?.map (·.id), c.version⟩

/-! ## Linking rows in a given order -/

/-- Links rows to each other in the order given, the first to `prev`. -/
def link (prev : Option ItemId) : List (Item k) → List (Item k)
  | [] => []
  | i :: rest => { i with prev := prev, next := rest.head?.map (·.id) } :: link (some i.id) rest

/-! ## Walking the links -/

/-- For each id the last of the rows with that id. -/
def latest : List (Item k) → List (Item k)
  | [] => []
  | i :: rest => if rest.any (·.id == i.id) then latest rest else i :: latest rest

/-- Follows the links from `cursor`. `seen` holds the rows passed so far, the last one first. Each
step passes another row, so a walk of more steps than there are rows cannot run out of `steps`. -/
def walk (rows : List (Item k)) : (steps : Nat) → (seen : List (Item k)) → (cursor : Option ItemId) →
    Except ChainFault (List (Item k))
  | _, seen, none => .ok seen.reverse
  | steps, seen, some id =>
    let back := seen.head?.map (·.id)
    if seen.any (·.id == id) then .error (.cycle id)
    else match rows.find? (·.id == id), steps with
      | none, _ | _, 0 => .error (.dangling (back.getD id) id)
      | some row, steps + 1 =>
        if row.prev ≠ back then .error (.brokenBacklink (back.getD id) id row.prev)
        else walk rows steps (row :: seen) row.next

/-- The chain that rows of an example make, or why they make none. Of several rows of one id the
last counts, but each of them counts towards their number. -/
def ofRows (owner : ExampleId) (version : Nat) (rows : List (Item k)) : Except ChainFault (Chain k) :=
  match rows.find? (·.owner != owner) with
  | some foreign => .error (.foreignRow foreign.id foreign.owner)
  | none =>
    let total := rows.length
    let rows := latest rows
    match rows, rows.filter Item.isHead with
    | [], _ => .ok ⟨owner, version, []⟩
    | _, [] => .error (.noHead total)
    | _, [head] => do
      let items ← walk rows rows.length [] (some head.id)
      if items.length ≠ total then .error (.unreached items.length total)
      else .ok ⟨owner, version, items⟩
    | _, heads => .error (.multipleHeads heads.length)

end Chain

end ExampleOverlay
