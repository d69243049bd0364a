import ExampleOverlay.CommandLine.Help

/-!
# The command line

Arguments are read from left to right. An option is long or short; one that takes a value finds it
behind `=` or in the next argument, if that is no option. The same options can be given before and
behind the name of a command, and those behind it count. Help and the version are printed as soon as
they are asked for, whatever comes after.
-/

namespace ExampleOverlay.CommandLine

/-- Why arguments are refused. -/
inductive UsageError where
  | unknownOption (written : String)
  | unexpectedArgument (written : String)
  /-- A value was given to an option that takes none. -/
  | unexpectedValue (option : Opt)
  | missingValue (option : Opt)
  | emptyValue (option : Opt)
  | repeated (option : Opt)
deriving DecidableEq

def UsageError.message : UsageError → String
  | .unknownOption written => s!"unknown option {written}"
  | .unexpectedArgument written => s!"unexpected argument {written}"
  | .unexpectedValue o => s!"option --{o.long} takes no value"
  | .missingValue o => s!"option --{o.long} needs a value"
  | .emptyValue o => s!"the value of option --{o.long} is empty"
  | .repeated o => s!"option --{o.long} is given more than once"

/-- The work that is left to do once the settings are known. -/
inductive Task where
  /-- No command was named: show what there is. -/
  | overview
  | walkthrough (json : Bool)
  | showSettings
deriving DecidableEq

/-- What arguments ask for. -/
inductive Invocation where
  /-- A text, and nothing else. -/
  | print (text : String)
  | refuse (reason : UsageError)
  /-- A task, under the settings of a file if one is named, and with another log filter if one is
  given. -/
  | perform (task : Task) (path filter : Option String)
deriving DecidableEq

/-- A step of reading; it ends early with what can be told without the arguments left. -/
abbrev Reading (α : Type) := Except Invocation α

/-! ## The options of one command -/

/-- The options given to one command so far. -/
structure Given where
  path : Option String := none
  filter : Option String := none
  json : Bool := false
  /-- The option read last, if it takes a value from an argument of its own, and that value once it
  has come. It is looked at when the next option comes or the arguments end. -/
  pending : Option (Opt × Option String) := none

namespace Given

def refuse {α : Type} (e : UsageError) : Reading α := .error (.refuse e)

/-- Gives an option its value. -/
def set (g : Given) (o : Opt) (value : String) : Reading Given :=
  match o with
  | .config =>
    if g.path.isSome then refuse (.repeated o)
    else if value.isEmpty then refuse (.emptyValue o)
    else .ok { g with path := some value }
  | .logLevel => if g.filter.isSome then refuse (.repeated o) else .ok { g with filter := some value }
  | .json | .help | .version => refuse (.unexpectedValue o)

/-- Looks at the option that is pending. -/
def settle (g : Given) : Reading Given :=
  match g.pending with
  | none => .ok g
  | some (o, none) => refuse (.missingValue o)
  | some (o, some value) => { g with pending := none }.set o value

/-- Takes an option of a command, with the value attached to it, if one is. -/
def take (c : Command) (g : Given) (o : Opt) (attached : Option String) : Reading Given :=
  match o, attached with
  | .config, some value | .logLevel, some value => do (← g.settle).set o value
  | .config, none | .logLevel, none => do return { ← g.settle with pending := some (o, none) }
  | .json, none => do
    let g ← g.settle
    if g.json then refuse (.repeated o) else return { g with json := true }
  | .help, none => do
    let _ ← g.settle
    .error (.print c.page.render)
  | .version, none => do
    let _ ← g.settle
    .error (.print versionText)
  | .json, some _ | .help, some _ | .version, some _ => refuse (.unexpectedValue o)

/-- Takes what is written behind two dashes. -/
def takeLong (c : Command) (g : Given) (written : List Char) : Reading Given :=
  let name := String.ofList (written.takeWhile (· != '='))
  let attached := match written.dropWhile (· != '=') with
    | [] => none
    | _ :: value => some (String.ofList value)
  match c.options.find? (·.long == name) with
  | none => refuse (.unknownOption s!"--{name}")
  | some o => g.take c o attached

/-- Takes a letter written behind one dash. -/
def takeShort (c : Command) (g : Given) (letter : Char) : Reading Given :=
  match c.options.find? (·.short? == some letter) with
  | none => refuse (.unknownOption (String.ofList ['-', letter]))
  | some o => g.take c o none

end Given

/-! ## All arguments -/

/-- Reads the options of a command; ends with the name of a command that follows, if one does, and
the arguments behind it. Two dashes end the options. -/
def options (c : Command) (g : Given) : List String → Reading (Given × Option (Command × List String))
  | [] => .ok (g, none)
  | arg :: rest =>
    match arg.toList with
    | ['-', '-'] =>
      match rest with
      | [] => .ok (g, none)
      | next :: _ => Given.refuse (.unexpectedArgument next)
    | '-' :: '-' :: written => do options c (← g.takeLong c written) rest
    | '-' :: letter :: letters => do options c (← (letter :: letters).foldlM (Given.takeShort c) g) rest
    | _ =>
      match g.pending with
      | some (o, none) => options c { g with pending := some (o, some arg) } rest
      | _ =>
        match if c = .program then Command.ofName? arg else none with
        | none => Given.refuse (.unexpectedArgument arg)
        | some sub => .ok (g, some (sub, rest))

/-- The page that is asked for by the names behind the command for help. -/
def helpPage : List String → Invocation
  | [] => .print Command.program.page.render
  | name :: rest =>
    match Command.ofName? name, rest with
    | none, _ => .refuse (.unexpectedArgument name)
    | some c, [] => .print c.page.render
    | some _, next :: _ => .refuse (.unexpectedArgument next)

/-- The task of a command, under the options in front of its name and those behind it. -/
def perform (task : Given → Task) (outer inner : Given) : Reading Invocation := do
  let inner ← inner.settle
  let outer ← outer.settle
  return .perform (task inner) (inner.path <|> outer.path) (inner.filter <|> outer.filter)

def reading (args : List String) : Reading Invocation := do
  let (outer, sub) ← options .program {} args
  match sub with
  | none | some (.program, _) => perform (fun _ => .overview) outer {}
  | some (.help, names) => return helpPage names
  | some (.demo, rest) =>
    let (inner, _) ← options .demo {} rest
    perform (fun g => .walkthrough g.json) outer inner
  | some (.config, rest) =>
    let (inner, _) ← options .config {} rest
    perform (fun _ => .showSettings) outer inner

/-- What arguments ask for. -/
def invocation (args : List String) : Invocation :=
  match reading args with
  | .ok i | .error i => i

end ExampleOverlay.CommandLine
