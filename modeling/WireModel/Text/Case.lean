/-!
# Letter case

Case mapping matters for ASCII letters only. Lower-casing knows two characters beyond ASCII,
the only ones whose lower case contains an ASCII letter: U+212A becomes `k`, and U+0130 becomes
`i` followed by U+0307. Every other character stands for itself, which is enough for a text
that is compared with, or cut down to, ASCII.
-/

namespace WireModel.Text

/-- An ASCII letter from `a` to `z`. -/
def isLower (c : Char) : Bool := 'a' ≤ c && c ≤ 'z'

/-- An ASCII letter from `A` to `Z`. -/
def isUpper (c : Char) : Bool := 'A' ≤ c && c ≤ 'Z'

/-- An ASCII decimal digit. -/
def isDigit (c : Char) : Bool := '0' ≤ c && c ≤ '9'

/-- An ASCII letter of either case. -/
def isLetter (c : Char) : Bool := isLower c || isUpper c

/-- An ASCII letter or digit. -/
def isAlphanumeric (c : Char) : Bool := isLetter c || isDigit c

/-- The lower case of an ASCII letter; any other character is kept. -/
def lowerChar (c : Char) : Char :=
  if isUpper c then Char.ofNat (c.toNat + 32) else c

/-- The upper case of an ASCII letter; any other character is kept. -/
def upperChar (c : Char) : Char :=
  if isLower c then Char.ofNat (c.toNat - 32) else c

/-- The lower case of one character, which may be two characters. -/
def lowerChars (c : Char) : List Char :=
  if c.toNat = 0x212A then ['k']
  else if c.toNat = 0x0130 then ['i', Char.ofNat 0x307]
  else [lowerChar c]

/-- The text in lower case. -/
def lower (s : String) : String :=
  String.ofList (s.toList.flatMap lowerChars)

/-- The text with its ASCII letters in upper case. -/
def upper (s : String) : String :=
  String.ofList (s.toList.map upperChar)

end WireModel.Text
