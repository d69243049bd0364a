import ExampleOverlay.Radix

/-!
# Identifiers

Rows and examples are named by 128-bit numbers. Their text is twenty-six symbols of base 32, ten
digits and the letters without `I`, `L`, `O` and `U`; it is written in upper case and read in either.
Twenty-six symbols hold 130 bits, of which reading drops the top two. Ids are ordered by value.
-/

namespace ExampleOverlay

/-- What an id names. -/
inductive Role where
  /-- A header, query or assertion row. -/
  | item
  /-- An example, which owns one ordered list of rows of each kind. -/
  | owner
deriving DecidableEq

/-- A 128-bit name. -/
@[ext] structure Ident (role : Role) where
  value : BitVec 128
deriving DecidableEq

/-- Names a row. -/
abbrev ItemId := Ident .item

/-- Names an example. -/
abbrev ExampleId := Ident .owner

/-- Why an id cannot be read. -/
inductive IdError where
  /-- The id was given as this many bytes, not sixteen. -/
  | invalidLength (actual : Nat)
  /-- The text is no id; `detail` quotes it and says why. -/
  | malformed (detail : String)
deriving DecidableEq

def IdError.message : IdError → String
  | .invalidLength actual => s!"invalid id length: expected 16 bytes, got {actual}"
  | .malformed detail => s!"malformed id: {detail}"

namespace Base32

/-- The symbols in the order of their values. -/
def symbols : List Char := "0123456789ABCDEFGHJKMNPQRSTVWXYZ".toList

/-- The symbol of a digit below 32. -/
def symbol (d : Nat) : Char := symbols.getD d '0'

/-- The digit that a symbol stands for, in either case. -/
def digit? (c : Char) : Option Nat := symbols.findIdx? (· == c.toUpper)

end Base32

namespace Ident

variable {role : Role}

/-! ## Order -/

instance : Ord (Ident role) := ⟨fun a b => compare a.value.toNat b.value.toNat⟩

theorem compare_def (a b : Ident role) : compare a b = compare a.value.toNat b.value.toNat := rfl

instance : Std.TransOrd (Ident role) where
  eq_swap := Std.OrientedOrd.eq_swap (α := Nat)
  isLE_trans h h' := Std.TransOrd.isLE_trans (α := Nat) h h'

instance : Std.LawfulEqOrd (Ident role) where
  eq_of_compare {a b} h := by
    have hv : a.value.toNat = b.value.toNat := Std.LawfulEqOrd.eq_of_compare h
    exact Ident.ext (BitVec.eq_of_toNat_eq hv)

/-! ## Bytes -/

/-- The sixteen bytes of an id, most significant first. -/
def toBytes (id : Ident role) : List Nat := Radix.digits 256 16 id.value.toNat

/-- An id from exactly sixteen bytes. -/
def ofBytes (bytes : List Nat) : Except IdError (Ident role) :=
  if bytes.length = 16 then .ok ⟨BitVec.ofNat 128 (Radix.value 256 bytes)⟩
  else .error (.invalidLength bytes.length)

/-! ## Text -/

/-- The twenty-six symbols of an id. -/
def toText (id : Ident role) : String :=
  String.ofList ((Radix.digits 32 26 id.value.toNat).map Base32.symbol)

/-- An id from its text. The length, counted in bytes, is judged before the symbols. -/
def parse (text : String) : Except IdError (Ident role) :=
  if text.utf8ByteSize ≠ 26 then .error (.malformed s!"{text}: invalid length")
  else match text.toList.mapM Base32.digit? with
    | none => .error (.malformed s!"{text}: invalid character")
    | some ds => .ok ⟨BitVec.ofNat 128 (Radix.value 32 ds)⟩

instance : ToString (Ident role) := ⟨toText⟩

/-- The id shown raw: its role and its number in decimal. -/
def raw (id : Ident role) : String :=
  let role := match role with
    | .item => "ItemId"
    | .owner => "ExampleId"
  s!"{role}(Ulid({id.value.toNat}))"

end Ident

end ExampleOverlay
