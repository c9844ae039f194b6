import WireModel.Json.Basic

/-!
# Tokens of JSON text

The tokens of a JSON text, read one character at a time. The machine stands between tokens or
inside one; inside a text it collects code units, so that a pair of surrogate escapes becomes one
character when the text is closed.
-/

namespace WireModel.Json

inductive Token where
  | openBracket
  | closeBracket
  | openBrace
  | closeBrace
  | comma
  | colon
  | null
  | bool (value : Bool)
  | number (value : Binary64)
  | text (value : String)
  deriving Repr

/-! ## Numbers -/

/-- The natural number with the given decimal digits. -/
def ofDigits (cs : List Char) : Nat := cs.foldl (fun n c => 10 * n + (c.toNat - 48)) 0

/-- The exponent of a number: `e` or `E`, a sign or none, and at least one digit. -/
def exponentOf : List Char → Option Int
  | [] => some 0
  | e :: rest =>
    if e ≠ 'e' ∧ e ≠ 'E' then none
    else
      let (negative, digits) : Bool × List Char :=
        match rest with
        | '-' :: ds => (true, ds)
        | '+' :: ds => (false, ds)
        | ds => (false, ds)
      if digits.isEmpty || !digits.all Text.isDigit then none
      else
        let n : Int := ofDigits digits
        some (if negative then -n else n)

/-- The fraction of a number, a point and at least one digit or nothing, and what follows it. -/
def fractionOf : List Char → Option (List Char × List Char)
  | '.' :: rest =>
    let digits := rest.takeWhile Text.isDigit
    if digits.isEmpty then none else some (digits, rest.dropWhile Text.isDigit)
  | rest => some ([], rest)

/-- The number that a sequence of characters spells, by the grammar of JSON. -/
def numberOf (cs : List Char) : Option Binary64 := do
  let (negative, body) : Bool × List Char :=
    match cs with
    | '-' :: rest => (true, rest)
    | rest => (false, rest)
  let whole := body.takeWhile Text.isDigit
  if whole.isEmpty || (1 < whole.length && whole.head? == some '0') then none
  let (fraction, rest) ← fractionOf (body.dropWhile Text.isDigit)
  let exponent ← exponentOf rest
  some (Binary64.ofDecimal negative (ofDigits (whole ++ fraction)) (exponent - fraction.length))

/-! ## Texts -/

/-- A code unit that begins a pair of surrogates. -/
def isLeading (n : Nat) : Bool := 0xD800 ≤ n && n < 0xDC00

/-- A code unit that ends a pair of surrogates. -/
def isTrailing (n : Nat) : Bool := 0xDC00 ≤ n && n < 0xE000

/-- The character of a code unit; a surrogate without a partner becomes U+FFFD. -/
def charOfUnit (n : Nat) : Char :=
  if isLeading n || isTrailing n then Char.ofNat 0xFFFD else Char.ofNat n

/-- The characters of a sequence of code units. -/
def charsOfUnits : List Nat → List Char
  | [] => []
  | [n] => [charOfUnit n]
  | m :: n :: rest =>
    if isLeading m && isTrailing n then
      Char.ofNat (0x10000 + (m - 0xD800) * 0x400 + (n - 0xDC00)) :: charsOfUnits rest
    else charOfUnit m :: charsOfUnits (n :: rest)

/-- The value of a hexadecimal digit. -/
def hexValue? (c : Char) : Option Nat :=
  if Text.isDigit c then some (c.toNat - 48)
  else if 'a' ≤ c ∧ c ≤ 'f' then some (c.toNat - 87)
  else if 'A' ≤ c ∧ c ≤ 'F' then some (c.toNat - 55)
  else none

/-- The code unit of a two-character escape. -/
def escapeUnit? (c : Char) : Option Nat :=
  match c with
  | '"' => some 34
  | '\\' => some 92
  | '/' => some 47
  | 'b' => some 8
  | 'f' => some 12
  | 'n' => some 10
  | 'r' => some 13
  | 't' => some 9
  | _ => none

/-! ## The machine -/

/-- Where the machine stands. Collected characters and code units are in reverse order. -/
inductive Mode where
  | between
  | number (seen : List Char)
  | word (seen : List Char)
  | text (units : List Nat)
  | escape (units : List Nat)
  | hex (units : List Nat) (digits : Nat) (value : Nat)

/-- The place in the text and the tokens so far, in reverse order. -/
structure Scan where
  mode : Mode := .between
  tokens : List Token := []

/-- A character that can be part of a number. -/
def isNumeric (c : Char) : Bool :=
  Text.isDigit c || c == '-' || c == '+' || c == '.' || c == 'e' || c == 'E'

/-- A character that a number can start with. -/
def startsNumber (c : Char) : Bool := Text.isDigit c || c == '-'

/-- The token of a bare word. -/
def wordToken? (cs : List Char) : Option Token :=
  match String.ofList cs with
  | "null" => some .null
  | "true" => some (.bool true)
  | "false" => some (.bool false)
  | _ => none

/-- The token of a single punctuation character. -/
def punctuation? (c : Char) : Option Token :=
  match c with
  | '[' => some .openBracket
  | ']' => some .closeBracket
  | ',' => some .comma
  | ':' => some .colon
  | _ => if c.toNat = 0x7B then some .openBrace
    else if c.toNat = 0x7D then some .closeBrace else none

/-- Space between tokens. -/
def isSeparator (c : Char) : Bool := c == ' ' || c == '\t' || c == '\n' || c == '\r'

/-- A character that stands between tokens. -/
def begin (tokens : List Token) (c : Char) : Option Scan :=
  if isSeparator c then some ⟨.between, tokens⟩
  else if startsNumber c then some ⟨.number [c], tokens⟩
  else if Text.isLower c then some ⟨.word [c], tokens⟩
  else if c = '"' then some ⟨.text [], tokens⟩
  else (punctuation? c).map fun token => ⟨.between, token :: tokens⟩

/-- The effect of one character. A number or a word ends at the first character that cannot be
part of it. -/
def Scan.step (scan : Scan) (c : Char) : Option Scan :=
  match scan.mode with
  | .between => begin scan.tokens c
  | .number seen =>
    if isNumeric c then some { scan with mode := .number (c :: seen) }
    else (numberOf seen.reverse).bind fun x => begin (.number x :: scan.tokens) c
  | .word seen =>
    if Text.isLower c then some { scan with mode := .word (c :: seen) }
    else (wordToken? seen.reverse).bind fun token => begin (token :: scan.tokens) c
  | .text units =>
    if c = '"' then
      some ⟨.between, .text (String.ofList (charsOfUnits units.reverse)) :: scan.tokens⟩
    else if c = '\\' then some { scan with mode := .escape units }
    else if c.toNat < 0x20 then none
    else some { scan with mode := .text (c.toNat :: units) }
  | .escape units =>
    if c = 'u' then some { scan with mode := .hex units 4 0 }
    else (escapeUnit? c).map fun unit => { scan with mode := .text (unit :: units) }
  | .hex units digits value =>
    (hexValue? c).map fun digit =>
      let value := 16 * value + digit
      if digits ≤ 1 then { scan with mode := .text (value :: units) }
      else { scan with mode := .hex units (digits - 1) value }

/-- The tokens when the text ends here. -/
def Scan.finish (scan : Scan) : Option (List Token) :=
  match scan.mode with
  | .between => some scan.tokens.reverse
  | .number seen => (numberOf seen.reverse).map fun x => (.number x :: scan.tokens).reverse
  | .word seen => (wordToken? seen.reverse).map fun token => (token :: scan.tokens).reverse
  | _ => none

/-- The tokens of a text, unless it holds something that is no token. -/
def tokens? (s : String) : Option (List Token) :=
  (s.toList.foldlM Scan.step {}).bind Scan.finish

end WireModel.Json
