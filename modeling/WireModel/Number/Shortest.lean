import WireModel.Number.Binary64

/-!
# The shortest decimal that reads back

A number is printed with the fewest significant digits that read back as the same number; among
those, with the digits nearest to it, and a tie goes to the even digit. For `count = 1, 2, …` the
search looks at the two neighbours of the number on the grid of decimals with `count` significant
digits; seventeen digits always suffice.

The digits are laid out positionally when the decimal point falls at most 21 places right of the
first digit or at most 6 places left of it, and with an exponent otherwise: `100000`, `0.000001`,
`1e+21`, `1e-7`.
-/

namespace WireModel.Binary64

/-- A decimal `digits * 10 ^ exponent`. -/
structure Decimal where
  digits : Nat
  exponent : Int
  deriving DecidableEq, Repr

/-- The position of the decimal point: the least `p` with `num / den < 10 ^ p`. -/
def pointOf (num den : Nat) : Int :=
  if den ≤ num then decimalSize (num / den)
  else
    match (List.range 330).find? fun j => den ≤ num * Nat.pow 10 (j + 1) with
    | some j => -(j : Int)
    | none => -330

/-- `num / den` divided by `10 ^ e`, as a numerator and a denominator. -/
def decimalScaled (num den : Nat) (e : Int) : Nat × Nat :=
  if 0 ≤ e then (num, den * Nat.pow 10 e.toNat) else (num * Nat.pow 10 (-e).toNat, den)

/-- The decimal with `count` significant digits that reads back as the number `num / den` and is
nearest to it. -/
def nearest? (num den : Nat) (count : Nat) : Option Decimal :=
  let exponent := pointOf num den - count
  let (n, d) := decimalScaled num den exponent
  let low := n / d
  let value := ofRatio false num den
  let reads (c : Nat) : Bool := ofDecimal false c exponent == value
  match reads low, reads (low + 1) with
  | true, true =>
    let rest := 2 * (n % d)
    let takeLow := rest < d || (rest == d && low % 2 == 0)
    some ⟨if takeLow then low else low + 1, exponent⟩
  | true, false => some ⟨low, exponent⟩
  | false, true => some ⟨low + 1, exponent⟩
  | false, false => none

/-- The shortest decimal that reads back as the positive number `num / den`. -/
def shortest (num den : Nat) : Decimal :=
  match (List.range 17).findSome? fun k => nearest? num den (k + 1) with
  | some decimal => decimal
  | none => ⟨num / den, 0⟩

/-- A decimal without zeros at the end of its digits, as the digits and the place of the point
relative to the first of them. -/
def Decimal.normalize (decimal : Decimal) : List Char × Int :=
  let all := Nat.toDigits 10 decimal.digits
  ((all.reverse.dropWhile (· == '0')).reverse, all.length + decimal.exponent)

/-- The sign and the digits of an exponent. -/
def exponentText (e : Int) : String :=
  (if e < 0 then "e-" else "e+") ++ String.ofList (Nat.toDigits 10 e.natAbs)

/-- The digits of a positive number with the point at its place. -/
def layout (digits : List Char) (point : Int) : String :=
  let count : Int := digits.length
  if count ≤ point ∧ point ≤ 21 then
    String.ofList (digits ++ List.replicate (point - count).toNat '0')
  else if 0 < point ∧ point ≤ 21 then
    String.ofList (digits.take point.toNat ++ '.' :: digits.drop point.toNat)
  else if -6 < point ∧ point ≤ 0 then
    String.ofList ('0' :: '.' :: List.replicate (-point).toNat '0' ++ digits)
  else
    match digits with
    | [d] => String.ofList [d] ++ exponentText (point - 1)
    | d :: rest => String.ofList (d :: '.' :: rest) ++ exponentText (point - 1)
    | [] => "0"

/-- The text of a number. Zero has no sign. -/
def text : Binary64 → String
  | .infinite negative => if negative then "-Infinity" else "Infinity"
  | .finite negative mantissa exponent =>
    if mantissa = 0 then "0"
    else
      let (num, den) := ratio mantissa exponent
      let (digits, point) := (shortest num den).normalize
      (if negative then "-" else "") ++ layout digits point

end WireModel.Binary64
