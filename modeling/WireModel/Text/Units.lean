/-!
# Lengths and order in 16-bit units

Widths of terminal lines and the order of file paths are measured in UTF-16 code units: a
character above U+FFFF counts as two, and is ordered by its leading surrogate. Text itself stays
a `String`; the units are a view of it.
-/

namespace WireModel.Text

/-- The UTF-16 code units of one character. -/
def charUnits (c : Char) : List Nat :=
  if c.toNat < 0x10000 then [c.toNat]
  else [0xD800 + (c.toNat - 0x10000) / 0x400, 0xDC00 + (c.toNat - 0x10000) % 0x400]

/-- The UTF-16 code units of a text. -/
def units (s : String) : List Nat := s.toList.flatMap charUnits

/-- The number of UTF-16 code units of a text. -/
def width (s : String) : Nat := (units s).length

/-- Lexicographic order on sequences of code units. -/
def unitsLE : List Nat → List Nat → Bool
  | [], _ => true
  | _ :: _, [] => false
  | a :: as, b :: bs => a < b || (a == b && unitsLE as bs)

/-- The order of texts by their code units. -/
def le (s t : String) : Bool := unitsLE (units s) (units t)

end WireModel.Text
