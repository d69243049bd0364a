import ExampleOverlay.Radix
import ExampleOverlay.Toml.Node

/-!
# Unquoted values in TOML

Integers, floats, booleans and times are written without quotes. Digits may be grouped by single
underscores. Integers have 64 bits; a float must not be so large that it rounds to infinity.
-/

namespace ExampleOverlay.Toml

/-- A character that an unquoted value can hold. -/
def isBareValueChar (c : Char) : Bool :=
  c.isAlphanum || c == '+' || c == '-' || c == '_' || c == '.' || c == ':'

/-! ## Digits -/

/-- Digits, with at most one underscore between two of them. -/
def isGrouped (isDigit : Char → Bool) : List Char → Bool
  | [] => false
  | [c] => isDigit c
  | c :: '_' :: rest => isDigit c && isGrouped isDigit rest
  | c :: rest => isDigit c && isGrouped isDigit rest

/-- The value of a digit in any base up to 16. -/
def digitValue (c : Char) : Nat :=
  if c.isDigit then c.toNat - '0'.toNat else c.toLower.toNat - 'a'.toNat + 10

/-- The number that grouped digits denote. -/
def groupedValue (base : Nat) (ds : List Char) : Nat :=
  Radix.value base ((ds.filter (· != '_')).map digitValue)

def isHexDigit (c : Char) : Bool := c.isDigit || ('a' ≤ c && c ≤ 'f') || ('A' ≤ c && c ≤ 'F')

/-- Decimal digits without a leading zero. -/
def isDecimal (ds : List Char) : Bool := isGrouped Char.isDigit ds && (ds.length == 1 || ds.head? != some '0')

/-- Takes a sign off; tells whether it was a minus. -/
def unsign : List Char → Bool × List Char
  | '-' :: ds => (true, ds)
  | '+' :: ds => (false, ds)
  | ds => (false, ds)

/-! ## Integers -/

/-- An integer of 64 bits. -/
def inRange (n : Int) : Option Int :=
  if Int64.minValue.toInt ≤ n ∧ n ≤ Int64.maxValue.toInt then some n else none

/-- Digits of a base behind its mark; they have no sign. -/
def marked (base : Nat) (isDigit : Char → Bool) (ds : List Char) : Option Int :=
  if isGrouped isDigit ds then inRange (groupedValue base ds) else none

def integer? : List Char → Option Int
  | '0' :: 'x' :: ds => marked 16 isHexDigit ds
  | '0' :: 'o' :: ds => marked 8 (fun c => '0' ≤ c && c ≤ '7') ds
  | '0' :: 'b' :: ds => marked 2 (fun c => c == '0' || c == '1') ds
  | written =>
    let (negative, ds) := unsign written
    if isDecimal ds then inRange (if negative then -(groupedValue 10 ds : Int) else groupedValue 10 ds)
    else none

/-! ## Floats -/

/-- Whether `m * 10 ^ e` rounds to infinity: it is at least half a unit above the largest number of
53 bits with exponent 971. Numbers of very many or very few places are judged by their length. -/
def roundsToInfinity (m : Nat) (e : Int) : Bool :=
  let places : Int := (Nat.toDigits 10 m).length + e
  if m = 0 ∨ places < 300 then false
  else if 320 < places then true
  else
    let bound := 1 <<< 1024 - 1 <<< 970
    if 0 ≤ e then bound ≤ m * Nat.pow 10 e.toNat else bound * Nat.pow 10 (-e).toNat ≤ m

/-- The exponent behind an `e`. -/
def exponent? : List Char → Option Int
  | 'e' :: ds | 'E' :: ds =>
    let (negative, ds) := unsign ds
    if isGrouped Char.isDigit ds then
      some (if negative then -(groupedValue 10 ds : Int) else groupedValue 10 ds)
    else none
  | _ => none

def isDigitOrGap (c : Char) : Bool := c.isDigit || c == '_'

/-- A number with a fraction, an exponent or both, or one of the special values. -/
def isFloat (written : List Char) : Bool :=
  let (negative, ds) := unsign written
  let whole := ds.takeWhile isDigitOrGap
  let fine (frac : List Char) (e : Int) : Bool :=
    let digits := (whole ++ frac).filter (· != '_')
    negative || !roundsToInfinity (groupedValue 10 digits) (e - (frac.filter (· != '_')).length)
  if ds = "inf".toList ∨ ds = "nan".toList then true
  else isDecimal whole && match ds.dropWhile isDigitOrGap with
    | '.' :: rest =>
      let frac := rest.takeWhile isDigitOrGap
      isGrouped Char.isDigit frac && match rest.dropWhile isDigitOrGap with
        | [] => fine frac 0
        | rest => (exponent? rest).any (fine frac)
    | rest => (exponent? rest).any (fine [])

/-! ## Times -/

/-- Two digits whose number is in a range. -/
def twoDigits (low high : Nat) (a b : Char) : Bool :=
  a.isDigit && b.isDigit && low ≤ groupedValue 10 [a, b] && groupedValue 10 [a, b] ≤ high

def daysIn (year month : Nat) : Nat :=
  if month = 2 then
    if year % 4 = 0 ∧ (year % 100 ≠ 0 ∨ year % 400 = 0) then 29 else 28
  else if month = 4 ∨ month = 6 ∨ month = 9 ∨ month = 11 then 30
  else 31

/-- A day of the calendar. -/
def isDate : List Char → Bool
  | [a, b, c, d, '-', m, n, '-', x, y] =>
    [a, b, c, d].all Char.isDigit && twoDigits 1 12 m n &&
      twoDigits 1 (daysIn (groupedValue 10 [a, b, c, d]) (groupedValue 10 [m, n])) x y
  | _ => false

/-- The distance to universal time. -/
def isOffset : List Char → Bool
  | ['Z'] | ['z'] => true
  | [s, a, b, ':', c, d] => (s == '+' || s == '-') && twoDigits 0 23 a b && twoDigits 0 59 c d
  | _ => false

/-- A time of day, with an offset behind it where `zoned` allows one. -/
def isTime (zoned : Bool) : List Char → Bool
  | a :: b :: ':' :: c :: d :: ':' :: x :: y :: rest =>
    let ends (rest : List Char) : Bool := rest.isEmpty || (zoned && isOffset rest)
    twoDigits 0 23 a b && twoDigits 0 59 c d && twoDigits 0 60 x y && match rest with
      | '.' :: rest => (rest.head?.any Char.isDigit) && ends (rest.dropWhile Char.isDigit)
      | rest => ends rest
  | _ => false

/-- A day, a time of day, or both joined by a `T`. -/
def isMoment (written : List Char) : Bool :=
  isDate written || isTime false written ||
    (isDate (written.take 10) && match written.drop 10 with
      | 'T' :: rest | 't' :: rest => isTime true rest
      | _ => false)

/-! ## Any unquoted value -/

/-- The value that a word stands for. -/
def bareValue? (written : List Char) : Option Node :=
  if written = "true".toList then some (.boolean true)
  else if written = "false".toList then some (.boolean false)
  else match integer? written with
    | some n => some (.integer n)
    | none =>
      if isFloat written then some (.float (String.ofList written))
      else if isMoment written then some (.time (String.ofList written))
      else none

end ExampleOverlay.Toml
