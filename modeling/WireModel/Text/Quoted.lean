/-!
# Quoted text

Two ways to write a text between quotes. `quote` is the JSON form in double quotes. `literal` is
a string literal in single quotes, as emitted code holds it. Both write the controls below
U+0020 and the backslash as escapes, and each escapes its own quote only; every other character
stands for itself.
-/

namespace WireModel.Text

/-- The single quote. -/
def apostrophe : Char := Char.ofNat 39

/-- The double quote. -/
def doubleQuote : Char := Char.ofNat 34

/-- A hexadecimal digit, in lower case. -/
def hexDigit (n : Nat) : Char :=
  if n < 10 then Char.ofNat (48 + n) else Char.ofNat (87 + n)

/-- The escape of a control below U+0020. -/
def controlEscape (c : Char) : List Char :=
  match c.toNat with
  | 8 => ['\\', 'b']
  | 9 => ['\\', 't']
  | 10 => ['\\', 'n']
  | 12 => ['\\', 'f']
  | 13 => ['\\', 'r']
  | n => ['\\', 'u', '0', '0', hexDigit (n / 16), hexDigit (n % 16)]

/-- How one character is written between quotes of the kind `mark`. -/
def escapeChar (mark c : Char) : List Char :=
  if c = mark ∨ c = '\\' then ['\\', c]
  else if c.toNat < 0x20 then controlEscape c
  else [c]

/-- The text between two quotes of the kind `mark`. -/
def quoteWith (mark : Char) (s : String) : String :=
  String.ofList (mark :: s.toList.flatMap (escapeChar mark) ++ [mark])

/-- The JSON form of a text. -/
def quote (s : String) : String := quoteWith doubleQuote s

/-- A string literal in single quotes. -/
def literal (s : String) : String := quoteWith apostrophe s

end WireModel.Text
