/-!
# Positional notation of a fixed width

A number is written in a base as a list of digits of a given length, most significant first.
`digits` drops what does not fit the width; `value` reads the digits back. The identifiers use it
twice: sixteen digits of base 256 for their bytes, twenty-six of base 32 for their text.
-/

namespace ExampleOverlay.Radix

/-- The last `width` digits of `n`, most significant first. -/
def digits (base : Nat) : (width : Nat) → (n : Nat) → List Nat
  | 0, _ => []
  | width + 1, n => digits base width (n / base) ++ [n % base]

/-- The number that a list of digits denotes. -/
def value (base : Nat) (ds : List Nat) : Nat :=
  ds.foldl (fun n d => n * base + d) 0

@[simp] theorem length_digits (base width n : Nat) : (digits base width n).length = width := by
  induction width generalizing n with
  | zero => rfl
  | succ width ih => simp [digits, ih]

@[simp] theorem value_nil (base : Nat) : value base [] = 0 := rfl

theorem value_append_singleton (base : Nat) (ds : List Nat) (d : Nat) :
    value base (ds ++ [d]) = value base ds * base + d := by
  simp [value]

end ExampleOverlay.Radix
