import ExampleOverlay.Toml.Number
import ExampleOverlay.Toml.Text

/-!
# Reading TOML

A document is read line by line into statements, and these into a table. Arrays and inline tables
are read with `fuel`, of which twice the length of the input is enough, and no deeper than 79
levels; a dotted key has no more than 79 parts.
-/

namespace ExampleOverlay.Toml

/-! ## Blanks, breaks and comments -/

def skipBlanks (cs : List Char) : List Char := cs.dropWhile Text.isBlank

/-- What is left behind a line break; the end of the input counts as one. -/
def lineBreak? : List Char → Option (List Char)
  | [] => some []
  | '\n' :: rest => some rest
  | '\r' :: '\n' :: rest => some rest
  | _ => none

/-- What is left behind the end of a line, which may hold blanks and a comment. -/
def lineEnd? (cs : List Char) : Option (List Char) :=
  match skipBlanks cs with
  | '#' :: rest => lineBreak? (rest.dropWhile Text.isPlain)
  | rest => lineBreak? rest

/-- What is left behind blanks, line breaks and comments inside an array. A comment must end. -/
def skipGap (inComment : Bool) : List Char → Option (List Char)
  | [] => if inComment then none else some []
  | '\n' :: rest => skipGap false rest
  | '\r' :: '\n' :: rest => skipGap false rest
  | c :: rest =>
    if inComment then if Text.isPlain c then skipGap true rest else none
    else if Text.isBlank c then skipGap false rest
    else if c = '#' then skipGap true rest
    else some (c :: rest)

/-! ## Keys -/

def isBareKeyChar (c : Char) : Bool := c.isAlphanum || c == '-' || c == '_'

/-- One part of a key, bare or quoted on one line. -/
def keyPart : Scan String
  | '"' :: rest => (Text.scanLine true rest).map fun (s, rest) => (String.ofList s, rest)
  | '\'' :: rest => (Text.scanLine false rest).map fun (s, rest) => (String.ofList s, rest)
  | cs =>
    match cs.takeWhile isBareKeyChar with
    | [] => none
    | s => some (String.ofList s, cs.dropWhile isBareKeyChar)

/-- The parts of a key, with blanks around each. -/
def keyParts : (fuel : Nat) → Scan (List String)
  | 0, _ => none
  | fuel + 1, cs => do
    let (part, rest) ← keyPart (skipBlanks cs)
    match skipBlanks rest with
    | '.' :: rest => do
      let (parts, rest) ← keyParts fuel rest
      return (part :: parts, rest)
    | rest => return ([part], rest)

/-- How deep arrays and inline tables can be nested, and how many parts a key can have. -/
def depthLimit : Nat := 79

/-- A key as the path of all its parts but the last, and the last. -/
def key (cs : List Char) : Option ((List String × String) × List Char) := do
  let (parts, rest) ← keyParts (cs.length + 1) cs
  let last ← parts.getLast?
  if parts.length ≤ depthLimit then some ((parts.dropLast, last), rest) else none

/-! ## Values -/

/-- A value that is written without quotes. A blank can stand between a day and a time. -/
def bareValue (cs : List Char) : Option (Node × List Char) :=
  let word := cs.takeWhile isBareValueChar
  let rest := cs.dropWhile isBareValueChar
  match rest with
  | ' ' :: more =>
    let time := more.takeWhile isBareValueChar
    if isDate word && isTime true time then
      some (.time (String.ofList (word ++ ' ' :: time)), more.dropWhile isBareValueChar)
    else (bareValue? word).map (·, rest)
  | _ => (bareValue? word).map (·, rest)

mutual

/-- A value of any form, with `depth` levels left inside it. -/
def value : (fuel depth : Nat) → Scan Node
  | 0, _, _ => none
  | fuel + 1, depth, cs =>
    match cs, depth with
    | '[' :: _, 0 | '\x7b' :: _, 0 => none
    | '[' :: rest, depth + 1 => do elements fuel depth [] (← skipGap false rest)
    | '\x7b' :: rest, depth + 1 =>
      match skipBlanks rest with
      | '\x7d' :: rest => some (.table .inline [], rest)
      | rest => pairs fuel depth [] rest
    | '"' :: _, _ | '\'' :: _, _ => (Text.scan cs).map fun (s, rest) => (.text (String.ofList s), rest)
    | _, _ => bareValue cs

/-- The elements of an array behind those in `before`; a comma may stand before the bracket. -/
def elements : (fuel depth : Nat) → (before : List Node) → Scan Node
  | 0, _, _, _ => none
  | fuel + 1, depth, before, cs =>
    match cs with
    | ']' :: rest => some (.array before, rest)
    | _ => do
      let (v, rest) ← value fuel depth cs
      match ← skipGap false rest with
      | ',' :: rest => elements fuel depth (before ++ [v]) (← skipGap false rest)
      | ']' :: rest => some (.array (before ++ [v]), rest)
      | _ => none

/-- The pairs of an inline table behind those in `before`; all stand on one line, and no comma
stands before the brace. -/
def pairs : (fuel depth : Nat) → (before : Members) → Scan Node
  | 0, _, _, _ => none
  | fuel + 1, depth, before, cs => do
    let ((path, last), rest) ← key cs
    match rest with
    | '=' :: rest =>
      let (v, rest) ← value fuel depth (skipBlanks rest)
      let members ← before.assign last v path
      match skipBlanks rest with
      | ',' :: rest => pairs fuel depth members rest
      | '\x7d' :: rest => some (.table .inline members, rest)
      | _ => none
    | _ => none

end

/-! ## Lines -/

/-- A line, and what it states. -/
def line (cs : List Char) : Option (Option Statement × List Char) :=
  match cs with
  | '[' :: '[' :: rest => do
    let ((path, last), rest) ← key rest
    match rest with
    | ']' :: ']' :: rest => return (some (.element path last), ← lineEnd? rest)
    | _ => none
  | '[' :: rest => do
    let ((path, last), rest) ← key rest
    match rest with
    | ']' :: rest => return (some (.table path last), ← lineEnd? rest)
    | _ => none
  | _ =>
    match lineEnd? cs with
    | some rest => some (none, rest)
    | none => do
      let ((path, last), rest) ← key cs
      match rest with
      | '=' :: rest =>
        let (v, rest) ← value (2 * cs.length) depthLimit (skipBlanks rest)
        return (some (.assign path last v), ← lineEnd? rest)
      | _ => none

/-- The statements of a document; each line takes one unit of fuel. -/
def statements : (fuel : Nat) → List Char → Option (List Statement)
  | 0, _ => none
  | fuel + 1, cs =>
    match skipBlanks cs with
    | [] => some []
    | cs => do
      let (statement, rest) ← line cs
      let more ← statements fuel rest
      return statement.toList ++ more

/-- The table that a document defines. A byte order mark before it is passed over. -/
def parse (s : String) : Option Members := do
  let cs := match s.toList with
    | '\ufeff' :: cs => cs
    | cs => cs
  Members.ofStatements (← statements (cs.length + 1) cs)

end ExampleOverlay.Toml
