import ExampleOverlay.Text.Column

/-!
# Commands, options and their help

The program is called by its own name or with one of its commands behind it. Each of them takes some
of the options and has a page of help that lists what it takes.
-/

namespace ExampleOverlay.CommandLine

/-! ## Pages -/

/-- A page of help: what a command does, how it is called, and titled lists of what it takes, each
entry with its explanation. -/
structure Page where
  about : String
  usage : String
  lists : List (String × List (String × String))

namespace Page

/-- The entries of a list in two columns, the first as wide as its longest entry. -/
def renderEntries (entries : List (String × String)) : String :=
  let width := (entries.map (·.1.length)).foldl max 0
  String.join (entries.map fun e => "  " ++ Text.pad .left width e.1 ++ "  " ++ e.2 ++ "\n")

def render (p : Page) : String :=
  p.about ++ "\n\nUsage: " ++ p.usage ++ "\n" ++
    String.join (p.lists.map fun l => "\n" ++ l.1 ++ ":\n" ++ renderEntries l.2)

end Page

/-! ## Options -/

inductive Opt where
  | config
  | logLevel
  | json
  | help
  | version
deriving DecidableEq

namespace Opt

/-- The name that is written behind two dashes. -/
def long : Opt → String
  | .config => "config"
  | .logLevel => "log-level"
  | .json => "json"
  | .help => "help"
  | .version => "version"

/-- The letter that can be written behind one dash. -/
def short? : Opt → Option Char
  | .help => some 'h'
  | .version => some 'V'
  | .config | .logLevel | .json => none

def takesValue : Opt → Bool
  | .config | .logLevel => true
  | .json | .help | .version => false

def about : Opt → String
  | .config => "Path to a TOML engine configuration"
  | .logLevel => "Log filter directive, e.g. `debug` or `info,ovl_engine=trace`"
  | .json => "Output as JSON"
  | .help => "Print help"
  | .version => "Print version"

/-- The option as help shows it. -/
def label (o : Opt) : String :=
  let short := match o.short? with
    | none => "    "
    | some c => String.ofList ['-', c, ',', ' ']
  short ++ "--" ++ o.long ++ if o.takesValue then " <" ++ o.long ++ ">" else ""

end Opt

/-! ## Commands -/

/-- The program itself, or one of its commands. -/
inductive Command where
  | program
  | demo
  | config
  | help
deriving DecidableEq

namespace Command

/-- The commands that can stand behind the program's name. -/
def subcommands : List Command := [.demo, .config, .help]

def name : Command → String
  | .program => "ovl"
  | .demo => "demo"
  | .config => "config"
  | .help => "help"

def ofName? (s : String) : Option Command := subcommands.find? (·.name == s)

def about : Command → String
  | .program => "Overlay/delta resolution engine for request examples"
  | .demo => "Run the overlay walkthrough against an in-memory store"
  | .config => "Print the effective configuration"
  | .help => "Print this message or the help of the given subcommand(s)"

/-- The options of a command in the order that help shows them. -/
def options : Command → List Opt
  | .program => [.config, .logLevel, .help, .version]
  | .demo => [.config, .json, .logLevel, .help]
  | .config => [.config, .logLevel, .help]
  | .help => []

def usage : Command → String
  | .program => "ovl [OPTIONS] [COMMAND]"
  | .demo => "ovl demo [OPTIONS]"
  | .config => "ovl config [OPTIONS]"
  | .help => "ovl help [COMMAND]..."

def page (c : Command) : Page where
  about := c.about
  usage := c.usage
  lists :=
    let commands := ("Commands", subcommands.map fun c => (c.name, c.about))
    let options := ("Options", c.options.map fun o => (o.label, o.about))
    match c with
    | .program => [commands, options]
    | .demo | .config => [options]
    | .help => [("Arguments", [("[COMMAND]...", "Print help for the subcommand(s)")])]

end Command

/-- What the option for the version prints. -/
def versionText : String := "ovl 0.1.0\n"

end ExampleOverlay.CommandLine
