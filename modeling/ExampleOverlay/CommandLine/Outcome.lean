import ExampleOverlay.CommandLine
import ExampleOverlay.Settings
import ExampleOverlay.Walkthrough.Report

/-!
# What an invocation comes to

Given the text of the file of settings and a supply of ids, an invocation comes to what is printed
and an exit code: 0 if it was done, 1 if it failed, 2 if the arguments were refused.
-/

namespace ExampleOverlay.CommandLine

/-- What the program leaves behind. -/
structure Outcome where
  exit : UInt32
  stdout : String := ""
  stderr : String := ""
deriving DecidableEq

def Outcome.done (text : String) : Outcome := { exit := 0, stdout := text }

def Outcome.failed (message : String) : Outcome := { exit := 1, stderr := s!"error: {message}\n" }

def Outcome.refused (message : String) : Outcome := { exit := 2, stderr := s!"error: {message}\n" }

namespace Invocation

/-- The file that has to be read first. -/
def path? : Invocation → Option String
  | .perform _ path _ => path
  | .print _ | .refuse _ => none

/-- The settings in effect. `text` is what stands in the file, if it can be read. -/
def settings (path filter text : Option String) : Except SettingsError Settings := do
  let s ← match path, text with
    | none, _ => .ok {}
    | some path, none => .error (.unreadable path)
    | some _, some text => Settings.parse text
  match filter with
  | none => return s
  | some filter => return { s with log := { s.log with filter } }

/-- Does a task in a world of its own. -/
def complete (task : Task) (s : Settings) (supply : Nat → BitVec 128) : Outcome :=
  match task with
  | .overview => .done (Command.program.page.render ++ "\n")
  | .showSettings =>
    match s.render with
    | .ok text => .done text
    | .error e => .failed e.message
  | .walkthrough json =>
    match (Walkthrough.run s.retries.toNat { supply }).1 with
    | .ok w => .done (if json then w.toJson.pretty ++ "\n" else w.text)
    | .error e => .failed e.message

/-- What an invocation comes to. -/
def outcome (i : Invocation) (text : Option String) (supply : Nat → BitVec 128) : Outcome :=
  match i with
  | .print text => .done text
  | .refuse reason => .refused reason.message
  | .perform task path filter =>
    match settings path filter text with
    | .error e => .failed e.message
    | .ok s => complete task s supply

end Invocation

end ExampleOverlay.CommandLine
