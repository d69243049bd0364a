import ExampleOverlay.Cascade.Report
import ExampleOverlay.Chain
import ExampleOverlay.Store.Table

/-!
# Errors

Why an operation of the engine fails. Callers act on the status of an error, people read its
message.
-/

namespace ExampleOverlay

/-- The operations that plan on a list and commit against its version. -/
inductive Operation where
  | append
  | remove
  | move
  | modify
  | materialize
deriving DecidableEq

namespace Operation

def all : List Operation := [.append, .remove, .move, .modify, .materialize]

def name : Operation → String
  | .append => "append"
  | .remove => "remove"
  | .move => "move"
  | .modify => "rewrite"
  | .materialize => "materialize"

end Operation

/-- What a caller can do about an error. -/
inductive Status where
  | invalidArgument
  | notFound
  | permissionDenied
  | internal
deriving DecidableEq

namespace Status

def all : List Status := [.invalidArgument, .notFound, .permissionDenied, .internal]

def name : Status → String
  | .invalidArgument => "INVALID_ARGUMENT"
  | .notFound => "NOT_FOUND"
  | .permissionDenied => "PERMISSION_DENIED"
  | .internal => "INTERNAL"

end Status

/-- Why an operation fails. -/
inductive EngineError where
  | invalidArgument (detail : String)
  | invalidId (error : IdError)
  | invalidFields (error : FieldError)
  | selfReferentialMove (id : ItemId)
  /-- The row to move next to is not in the list. -/
  | invalidTarget (target : ItemId) (owner : ExampleId)
  /-- The row is stored, but not in this example. -/
  | exampleMismatch (kind : Kind) (id : ItemId) (owner : ExampleId)
  /-- The row to link to is not in the origin example given. -/
  | parentMismatch (parent : ItemId) (owner : ExampleId)
  | notFound (kind : Kind) (id : ItemId)
  | permissionDenied (detail : String)
  /-- The stored rows of a list are not one chain. -/
  | corruptList (kind : Kind) (owner : ExampleId) (fault : ChainFault)
  /-- The change was made, but did not reach every counterpart. -/
  | cascadeIncomplete (report : Cascade.Report)
  /-- Other writers changed the list before every commit. -/
  | retriesExhausted (operation : Operation) (attempts : Nat)
  | store (error : StoreError)
deriving DecidableEq

namespace EngineError

def message : EngineError → String
  | .invalidArgument detail => s!"invalid argument: {detail}"
  | .invalidId error => s!"invalid id: {error.message}"
  | .invalidFields error => s!"invalid fields: {error.message}"
  | .selfReferentialMove id => s!"cannot move {id} relative to itself"
  | .invalidTarget target owner => s!"move target {target} does not belong to example {owner}"
  | .exampleMismatch kind id owner => s!"{kind} {id} does not belong to example {owner}"
  | .parentMismatch parent owner => s!"parent {parent} does not belong to the specified example {owner}"
  | .notFound kind id => s!"{kind} {id} not found"
  | .permissionDenied detail => s!"permission denied: {detail}"
  | .corruptList kind owner fault => s!"{kind} list of example {owner} is corrupted: {fault.message}"
  | .cascadeIncomplete report => s!"cascade incomplete: {report.message}"
  | .retriesExhausted operation attempts =>
    s!"{operation.name} gave up after {attempts} conflicting commits"
  | .store error => s!"store error: {error.message}"

def status : EngineError → Status
  | .invalidArgument _ | .invalidId _ | .invalidFields _ | .selfReferentialMove _
  | .invalidTarget .. | .exampleMismatch .. | .parentMismatch .. => .invalidArgument
  | .notFound .. | .store (.missingRow ..) => .notFound
  | .permissionDenied _ => .permissionDenied
  | .corruptList .. | .cascadeIncomplete _ | .retriesExhausted .. | .store _ => .internal

/-- The operation may succeed when it is planned anew. -/
def isConflict : EngineError → Bool
  | .store (.conflict ..) => true
  | _ => false

/-- The row, or one that was to exist, is not stored. -/
def isNotFound (e : EngineError) : Bool := e.status == .notFound

end EngineError

end ExampleOverlay
