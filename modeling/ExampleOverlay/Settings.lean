import ExampleOverlay.Toml.Document

/-!
# Settings

How often an edit is planned, how many counterparts a cascade writes at a time, and what is logged.
Settings are kept as a TOML document, in which all that is not given has its default and all that
is not known is ignored. What `render` writes, `parse` reads.
-/

namespace ExampleOverlay

/-- How log lines are laid out. -/
inductive LogFormat where
  | pretty
  | json
deriving DecidableEq

namespace LogFormat

def all : List LogFormat := [.pretty, .json]

def name : LogFormat → String
  | .pretty => "pretty"
  | .json => "json"

def ofName? (s : String) : Option LogFormat := all.find? (·.name == s)

end LogFormat

structure LogSettings where
  /-- Which lines are logged. -/
  filter : String := "info"
  format : LogFormat := .pretty
deriving DecidableEq

structure Settings where
  /-- How often an edit is planned before it is given up. -/
  retries : UInt32 := 8
  /-- How many counterparts are written at a time. -/
  concurrency : UInt64 := 8
  log : LogSettings := {}
deriving DecidableEq

/-- Why there are no settings. -/
inductive SettingsError where
  /-- The file cannot be read. -/
  | unreadable (path : String)
  /-- The text is no TOML, or a value is not of its type. -/
  | malformed
  /-- A limit is zero. -/
  | invalid (detail : String)
  /-- A limit does not fit into a TOML integer. -/
  | unrenderable
deriving DecidableEq

def SettingsError.message : SettingsError → String
  | .unreadable path => s!"failed to read {path}"
  | .malformed => "failed to parse config"
  | .invalid detail => s!"invalid config: {detail}"
  | .unrenderable => "failed to render config"

namespace Settings

open Toml (Node Members)

/-- The limit that is zero, if one is. -/
def fault? (s : Settings) : Option SettingsError :=
  if s.retries = 0 then some (.invalid "max_commit_retries must be at least 1")
  else if s.concurrency = 0 then some (.invalid "cascade_concurrency must be at least 1")
  else none

/-! ## Reading -/

/-- A number up to `bound`. -/
def limit? (bound : Nat) : Node → Option Nat
  | .integer n => if 0 ≤ n ∧ n < bound then some n.toNat else none
  | _ => none

def text? : Node → Option String
  | .text s => some s
  | _ => none

/-- A table or an array with nothing in it. -/
def isNothing : Node → Bool
  | .array xs => xs.isEmpty
  | .table _ ms => ms.isEmpty
  | .tables ts => ts.isEmpty
  | _ => false

/-- A format, by its name alone or as the only key of a table with nothing under it. -/
def format? : Node → Option LogFormat
  | .text s => LogFormat.ofName? s
  | .table _ [(s, v)] => if isNothing v then LogFormat.ofName? s else none
  | _ => none

/-- Reads a member that may be left out. -/
def orDefault {α : Type} (default : α) (read : Node → Option α) : Option Node → Option α
  | none => some default
  | some v => read v

/-- The members of the log settings by name, or in an array by place. A time counts as a table that
holds nothing known. -/
def log? : Node → Option LogSettings
  | .table _ ms => do
    let filter ← orDefault "info" text? (ms.lookup "filter")
    let format ← orDefault .pretty format? (ms.lookup "format")
    return { filter, format }
  | .array xs => do
    let filter ← orDefault "info" text? xs[0]?
    let format ← orDefault .pretty format? xs[1]?
    return { filter, format }
  | .time _ => some {}
  | _ => none

def ofMembers? (ms : Members) : Option Settings := do
  let retries ← orDefault 8 (limit? UInt32.size) (ms.lookup "max_commit_retries")
  let concurrency ← orDefault 8 (limit? UInt64.size) (ms.lookup "cascade_concurrency")
  let log ← orDefault {} log? (ms.lookup "log")
  return { retries := .ofNat retries, concurrency := .ofNat concurrency, log }

/-- The settings of a document. -/
def parse (s : String) : Except SettingsError Settings :=
  match (Toml.parse s).bind ofMembers? with
  | none => .error .malformed
  | some settings =>
    match settings.fault? with
    | some e => .error e
    | none => .ok settings

/-! ## Writing -/

/-- The document of settings. -/
def render (s : Settings) : Except SettingsError String :=
  if Int64.maxValue.toInt < s.concurrency.toNat then .error .unrenderable
  else
    let filter := String.ofList (Toml.Text.write s.log.filter.toList)
    let format := String.ofList (Toml.Text.write s.log.format.name.toList)
    .ok (s!"max_commit_retries = {s.retries.toNat}\ncascade_concurrency = {s.concurrency.toNat}\n\n" ++
      s!"[log]\nfilter = {filter}\nformat = {format}\n")

end Settings

end ExampleOverlay
