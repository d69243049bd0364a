/-!
# Blank text

A text is blank when nothing is left of it after trimming, that is when every character of it has
the Unicode property `White_Space`.
-/

namespace ExampleOverlay.Text

/-- The characters with the property `White_Space`, as ranges of code points, both ends included. -/
def whiteSpace : List (Nat × Nat) :=
  [(0x9, 0xD), (0x20, 0x20), (0x85, 0x85), (0xA0, 0xA0), (0x1680, 0x1680), (0x2000, 0x200A),
   (0x2028, 0x2029), (0x202F, 0x202F), (0x205F, 0x205F), (0x3000, 0x3000)]

/-- Whether a character has the property `White_Space`. -/
def isSpace (c : Char) : Bool := whiteSpace.any fun r => r.1 ≤ c.toNat && c.toNat ≤ r.2

/-- Whether a text is empty once trimmed. -/
def isBlank (s : String) : Bool := s.toList.all isSpace

end ExampleOverlay.Text
