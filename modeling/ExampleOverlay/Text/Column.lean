/-!
# Text set into a column

A text is first cut to a number of characters, if one is given, then filled with spaces up to a
width. What is already wide enough is left alone.
-/

namespace ExampleOverlay.Text

/-- Where a text stands in its column. -/
inductive Align where
  | left
  | right
  | center
deriving DecidableEq

/-- At most `limit` characters of a text, all of it if there is no limit. -/
def clip (limit : Option Nat) (s : String) : String :=
  match limit with
  | none => s
  | some n => String.ofList (s.toList.take n)

/-- `n` spaces. -/
def spaces (n : Nat) : String := String.ofList (List.replicate n ' ')

/-- Fills a text with spaces up to `width` characters; when a centred text leaves an odd number of
spaces, the one to spare goes to the right. -/
def pad (align : Align) (width : Nat) (s : String) : String :=
  let missing := width - s.length
  match align with
  | .left => s ++ spaces missing
  | .right => spaces missing ++ s
  | .center => spaces (missing / 2) ++ s ++ spaces (missing - missing / 2)

end ExampleOverlay.Text
