/-!
# Quoted text in TOML

A text is quoted in one of four styles: on one line or in a block, which may hold line breaks, and
with escapes between `"` or as it is between `'`. A block opens and closes with three quotes, and a
line break right after the opening ones is not part of the text. `write` takes the style that needs
the fewest marks, `scan` reads all four.
-/

namespace ExampleOverlay.Toml

/-- What reading takes off the front of the input, and what is left. -/
abbrev Scan (α : Type) := List Char → Option (α × List Char)

namespace Text

/-- How a text is quoted. -/
structure Style where
  /-- A backslash begins an escape; the quote is `"`, and otherwise `'`. -/
  escapes : Bool
  /-- Line breaks may stand in the text; the quote is written three times. -/
  block : Bool
deriving DecidableEq

def Style.quote (s : Style) : Char := if s.escapes then '"' else '\''

/-- A character that may stand for itself. -/
def isPlain (c : Char) : Bool := c == '\t' || (0x20 ≤ c.toNat && c.toNat != 0x7F)

def isBlank (c : Char) : Bool := c == ' ' || c == '\t'

/-! ## Escapes -/

def hexDigit? (c : Char) : Option Nat :=
  if '0' ≤ c ∧ c ≤ '9' then some (c.toNat - '0'.toNat)
  else if 'a' ≤ c ∧ c ≤ 'f' then some (c.toNat - 'a'.toNat + 10)
  else if 'A' ≤ c ∧ c ≤ 'F' then some (c.toNat - 'A'.toNat + 10)
  else none

/-- The character of a code point in hexadecimal, unless it is a surrogate or out of range. -/
def codePoint? (digits : List Char) : Option Char := do
  let ds ← digits.mapM hexDigit?
  let n := ds.foldl (fun n d => n * 16 + d) 0
  if n.isValidChar then some (Char.ofNat n) else none

/-- The character that a backslash and one other character stand for. -/
def shortEscape? : Char → Option Char
  | 'b' => some '\x08'
  | 't' => some '\t'
  | 'n' => some '\n'
  | 'f' => some '\x0c'
  | 'r' => some '\r'
  | '"' => some '"'
  | '\\' => some '\\'
  | _ => none

/-- Reads the character that a backslash and what follows it stand for, from behind the backslash. -/
def unescape : Scan Char
  | 'u' :: a :: b :: c :: d :: rest => (codePoint? [a, b, c, d]).map (·, rest)
  | 'U' :: a :: b :: c :: d :: e :: f :: g :: h :: rest =>
    (codePoint? [a, b, c, d, e, f, g, h]).map (·, rest)
  | e :: rest => (shortEscape? e).map (·, rest)
  | [] => none

theorem length_lt_of_unescape {cs rest : List Char} {c : Char} (h : unescape cs = some (c, rest)) :
    rest.length < cs.length := by
  unfold unescape at h
  split at h <;> simp only [Option.map_eq_some_iff, Prod.mk.injEq, reduceCtorEq] at h
  all_goals
    obtain ⟨-, -, -, rfl⟩ := h
    simp only [List.length_cons]
    omega

/-! ## Reading -/

/-- Reads a text on one line, from behind its opening quote to behind its closing one. -/
def scanLine (escapes : Bool) : Scan (List Char)
  | [] => none
  | c :: rest =>
    if c = Style.quote ⟨escapes, false⟩ then some ([], rest)
    else if escapes ∧ c = '\\' then
      match h : unescape rest with
      | some (x, behind) =>
        have := length_lt_of_unescape h
        (scanLine escapes behind).map fun (text, rest) => (x :: text, rest)
      | none => none
    else if isPlain c then (scanLine escapes rest).map fun (text, rest) => (c :: text, rest)
    else none
termination_by cs => cs.length

/-- A backslash at the end of a line takes away the break and all blanks and breaks after it. -/
inductive Fold where
  /-- There is no such backslash before this place. -/
  | off
  /-- The backslash was read and its line break not yet. -/
  | pending
  /-- The line break was read. -/
  | on
deriving DecidableEq

/-- What follows the first three of a run of quotes: up to two more belong to the text. -/
def closeBlock (quote : Char) (rest : List Char) : List Char × List Char :=
  let more := min 2 (rest.takeWhile (· == quote)).length
  (List.replicate more quote, rest.drop more)

/-- Reads a block, from behind its opening quotes to behind its closing ones. A line break is read as
a line feed, however it is written; a backslash that begins no escape must end its line. -/
def scanBlock (escapes : Bool) (fold : Fold) : Scan (List Char)
  | [] => none
  | c :: rest =>
    if c = '\r' ∧ rest.head? = some '\n' then scanBlock escapes fold rest
    else if fold = .pending then
      if isBlank c then scanBlock escapes .pending rest
      else if c = '\n' then scanBlock escapes .on rest
      else none
    else if fold = .on ∧ (isBlank c ∨ c = '\n') then scanBlock escapes .on rest
    else if c = Style.quote ⟨escapes, true⟩ then
      if rest.take 2 = [c, c] then some (closeBlock c (rest.drop 2))
      else (scanBlock escapes .off rest).map fun (text, rest) => (c :: text, rest)
    else if escapes ∧ c = '\\' then
      match h : unescape rest with
      | some (x, behind) =>
        have := length_lt_of_unescape h
        (scanBlock escapes .off behind).map fun (text, rest) => (x :: text, rest)
      | none => scanBlock escapes .pending rest
    else if isPlain c ∨ c = '\n' then
      (scanBlock escapes .off rest).map fun (text, rest) => (c :: text, rest)
    else none
termination_by cs => cs.length

/-- What is left after a line break, if there is one. -/
def dropBreak : List Char → List Char
  | '\n' :: rest => rest
  | '\r' :: '\n' :: rest => rest
  | rest => rest

/-- Reads a quoted text of any style. -/
def scan : Scan (List Char)
  | '"' :: '"' :: '"' :: rest => scanBlock true .off (dropBreak rest)
  | '\'' :: '\'' :: '\'' :: rest => scanBlock false .off (dropBreak rest)
  | '"' :: rest => scanLine true rest
  | '\'' :: rest => scanLine false rest
  | _ => none

/-! ## Writing -/

/-- The length of the longest run of a character, when a run of `current` stands before the text. -/
def longestRun (c : Char) (current : Nat) : List Char → Nat
  | [] => current
  | d :: rest => if d = c then longestRun c (current + 1) rest else max current (longestRun c 0 rest)

/-- A control character that only an escape can stand for. -/
def needsEscape (c : Char) : Bool := !isPlain c && c != '\n'

/-- The style that a text is written in. -/
def styleOf (s : List Char) : Style :=
  let control := s.any needsEscape
  let backslash := s.contains '\\'
  let lines := s.contains '\n'
  let singles := longestRun '\'' 0 s
  let doubles := longestRun '"' 0 s
  if !control && !backslash && doubles == 0 && !lines then ⟨true, false⟩
  else if !control && singles == 0 && !lines then ⟨false, false⟩
  else if !control && !backslash && doubles ≤ 2 then ⟨true, true⟩
  else if !control && singles ≤ 2 then ⟨false, true⟩
  else ⟨true, lines⟩

def hexDigit (n : Nat) : Char := "0123456789ABCDEF".toList.getD n '0'

/-- A character as it is written where escapes are read. -/
def escape (c : Char) : List Char :=
  match c with
  | '\x08' => ['\\', 'b']
  | '\t' => ['\\', 't']
  | '\n' => ['\\', 'n']
  | '\x0c' => ['\\', 'f']
  | '\r' => ['\\', 'r']
  | '"' => ['\\', '"']
  | '\\' => ['\\', '\\']
  | c => if isPlain c then [c] else ['\\', 'u', '0', '0', hexDigit (c.toNat / 16), hexDigit (c.toNat % 16)]

/-- The text between the quotes where escapes are read. In a block line breaks stand for themselves,
and so do quotes, up to two in a row; `quotes` counts those written last. -/
def writeEscaped (block : Bool) (quotes : Nat) : List Char → List Char
  | [] => []
  | c :: rest =>
    if block ∧ c = '\n' then c :: writeEscaped block 0 rest
    else if block ∧ c = '"' ∧ quotes < 2 then c :: writeEscaped block (quotes + 1) rest
    else escape c ++ writeEscaped block 0 rest

/-- A text in quotes. -/
def write (s : List Char) : List Char :=
  let style := styleOf s
  let quotes := List.replicate (if style.block then 3 else 1) style.quote
  let opening := if style.block && s.contains '\n' then quotes ++ ['\n'] else quotes
  opening ++ (if style.escapes then writeEscaped style.block 0 s else s) ++ quotes

end Text

end ExampleOverlay.Toml
