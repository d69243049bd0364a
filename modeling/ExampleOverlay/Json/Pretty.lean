import ExampleOverlay.Json

/-!
# JSON laid out for reading

Each element and each member stands on a line of its own, two spaces further in than the bracket
that holds it. An array or object with nothing in it is written without a break.
-/

namespace ExampleOverlay.Json

/-! ## Texts and numbers -/

def hexDigit (n : Nat) : Char := "0123456789abcdef".toList.getD n '0'

/-- A character as it is written inside quotes. Only control characters, the quote and the backslash
do not stand for themselves. -/
def escape (c : Char) : List Char :=
  match c with
  | '"' => ['\\', '"']
  | '\\' => ['\\', '\\']
  | '\x08' => ['\\', 'b']
  | '\x0c' => ['\\', 'f']
  | '\n' => ['\\', 'n']
  | '\r' => ['\\', 'r']
  | '\t' => ['\\', 't']
  | c => if c.toNat < 0x20 then ['\\', 'u', '0', '0', hexDigit (c.toNat / 16), hexDigit (c.toNat % 16)] else [c]

def quoted (s : String) : String := String.ofList ('"' :: s.toList.flatMap escape ++ ['"'])

/-- A number with as many digits behind the point as it has places. -/
def numeral (mantissa : Int) (places : Nat) : String :=
  let digits := Nat.toDigits 10 mantissa.natAbs
  let digits := List.replicate (places + 1 - digits.length) '0' ++ digits
  let whole := digits.take (digits.length - places)
  let behind := digits.drop (digits.length - places)
  (if mantissa < 0 then "-" else "") ++ String.ofList whole ++
    if places = 0 then "" else "." ++ String.ofList behind

/-! ## Layout -/

/-- A new line that is indented for `depth` open brackets. -/
def lineStart (depth : Nat) : String := String.ofList ('\n' :: List.replicate (2 * depth) ' ')

/-- Lines between brackets, with `depth` brackets open around them. -/
def block (opening closing : String) (depth : Nat) (lines : List String) : String :=
  if lines.isEmpty then opening ++ closing
  else
    opening ++ lineStart (depth + 1) ++ (("," ++ lineStart (depth + 1)).intercalate lines) ++
      lineStart depth ++ closing

mutual

/-- The layout of a value inside `depth` open brackets. -/
def layOut (depth : Nat) : Json → String
  | .null => "null"
  | .bool b => if b then "true" else "false"
  | .number mantissa places => numeral mantissa places
  | .text s => quoted s
  | .array xs => block "[" "]" depth (layOutElements (depth + 1) xs)
  | .object ms => block "\x7b" "\x7d" depth (layOutMembers (depth + 1) ms)

def layOutElements (depth : Nat) : List Json → List String
  | [] => []
  | x :: xs => layOut depth x :: layOutElements depth xs

def layOutMembers (depth : Nat) : List (String × Json) → List String
  | [] => []
  | (name, x) :: ms => (quoted name ++ ": " ++ layOut depth x) :: layOutMembers depth ms

end

/-- The layout of a whole value. -/
def pretty (j : Json) : String := layOut 0 j

end ExampleOverlay.Json
