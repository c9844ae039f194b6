import WireModel.Text.Case

/-!
# Base64

Bytes as text in the standard alphabet with mandatory padding: three bytes make four characters,
and one or two bytes left over make two or three characters and the padding. The bits of the last
character that no byte needs are ignored when a text is decoded, and zero when it is encoded.
-/

namespace WireModel.Base64

/-- The character for a value below 64. -/
def charOf (n : Nat) : Char :=
  if n < 26 then Char.ofNat (65 + n)
  else if n < 52 then Char.ofNat (71 + n)
  else if n < 62 then Char.ofNat (n - 4)
  else if n = 62 then '+'
  else '/'

/-- The value of a character of the alphabet. -/
def valueOf? (c : Char) : Option Nat :=
  if Text.isUpper c then some (c.toNat - 65)
  else if Text.isLower c then some (c.toNat - 71)
  else if Text.isDigit c then some (c.toNat + 4)
  else if c = '+' then some 62
  else if c = '/' then some 63
  else none

/-- The characters for bytes. -/
def encodeChars : List UInt8 → List Char
  | [] => []
  | [a] =>
    let x := a.toNat
    [charOf (x / 4), charOf (x % 4 * 16), '=', '=']
  | [a, b] =>
    let x := a.toNat
    let y := b.toNat
    [charOf (x / 4), charOf (x % 4 * 16 + y / 16), charOf (y % 16 * 4), '=']
  | a :: b :: c :: rest =>
    let x := a.toNat
    let y := b.toNat
    let z := c.toNat
    charOf (x / 4) :: charOf (x % 4 * 16 + y / 16) :: charOf (y % 16 * 4 + z / 64)
      :: charOf (z % 64) :: encodeChars rest

/-- The text for bytes. -/
def encode (bytes : List UInt8) : String := String.ofList (encodeChars bytes)

/-- The first byte of a group, from its first two values. -/
def firstByte (p q : Nat) : UInt8 := UInt8.ofNat (p * 4 + q / 16)

/-- The second byte of a group, from its second and third value. -/
def secondByte (q r : Nat) : UInt8 := UInt8.ofNat (q % 16 * 16 + r / 4)

/-- The third byte of a group, from its last two values. -/
def thirdByte (r s : Nat) : UInt8 := UInt8.ofNat (r % 4 * 64 + s)

/-- The bytes of a group of four characters without padding. -/
def fullGroup? (a b c d : Char) : Option (List UInt8) := do
  let p ← valueOf? a
  let q ← valueOf? b
  let r ← valueOf? c
  let s ← valueOf? d
  some [firstByte p q, secondByte q r, thirdByte r s]

/-- The bytes of the last group, which may have padding. -/
def lastGroup? (a b c d : Char) : Option (List UInt8) :=
  if d = '=' then
    if c = '=' then do
      let p ← valueOf? a
      let q ← valueOf? b
      some [firstByte p q]
    else do
      let p ← valueOf? a
      let q ← valueOf? b
      let r ← valueOf? c
      some [firstByte p q, secondByte q r]
  else fullGroup? a b c d

/-- The bytes of groups of four characters. -/
def decodeChars? : List Char → Option (List UInt8)
  | [] => some []
  | [a, b, c, d] => lastGroup? a b c d
  | a :: b :: c :: d :: rest => do
    let group ← fullGroup? a b c d
    let more ← decodeChars? rest
    some (group ++ more)
  | _ => none

/-- The bytes of a text, if it is Base64. -/
def decode? (s : String) : Option (List UInt8) := decodeChars? s.toList

end WireModel.Base64
