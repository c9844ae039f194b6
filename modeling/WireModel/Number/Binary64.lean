/-!
# Binary64: numbers of 64 bits, exactly

A number of a JSON document is a binary floating-point number with a significand of 53 bits.
Here it is kept as the exact dyadic rational that it denotes, so that reading, comparing and
printing are integer arithmetic. A finite number is in *normal form*: zero has mantissa and
exponent zero, and any other number has a mantissa in `[2^52, 2^53)`, or the least exponent and
a smaller mantissa. Normal forms are equal exactly when the numbers are equal (and have the same
sign, for zero).

`ofRatio` is the one place where rounding happens: to the nearest representable number, and to
the even mantissa when two are equally near.
-/

namespace WireModel

/-- A finite number `± mantissa * 2 ^ exponent`, or an infinity. -/
inductive Binary64 where
  | finite (negative : Bool) (mantissa : Nat) (exponent : Int)
  | infinite (negative : Bool)
  deriving DecidableEq, Repr

namespace Binary64

/-- The least exponent of a finite number. -/
def minExponent : Int := -1074

/-- The greatest exponent of a finite number. -/
def maxExponent : Int := 971

/-- The quotient of two natural numbers, rounded to the nearest integer, a half to the even one. -/
def roundDiv (num den : Nat) : Nat :=
  let q := num / den
  let r := num % den
  if 2 * r < den then q
  else if den < 2 * r then q + 1
  else if q % 2 = 0 then q else q + 1

/-- `num / den` divided by `2 ^ e`, as a numerator and a denominator. -/
def scaled (num den : Nat) (e : Int) : Nat × Nat :=
  if 0 ≤ e then (num, den * Nat.pow 2 e.toNat) else (num * Nat.pow 2 (-e).toNat, den)

/-- The exponent of the greatest power of two that is at most `num / den`. -/
def magnitude (num den : Nat) : Int :=
  let k : Int := (num.log2 : Int) - (den.log2 : Int)
  let (n, d) := scaled num den k
  if n < d then k - 1 else k

/-- The number with the given mantissa, at most `2 ^ 53`, and exponent. -/
def pack (negative : Bool) (mantissa : Nat) (exponent : Int) : Binary64 :=
  if mantissa = 0 then .finite negative 0 0
  else
    let (m, e) :=
      if mantissa < Nat.pow 2 53 then (mantissa, exponent) else (mantissa / 2, exponent + 1)
    if maxExponent < e then .infinite negative else .finite negative m e

/-- The number nearest to `± num / den`. -/
def ofRatio (negative : Bool) (num den : Nat) : Binary64 :=
  if num = 0 then .finite negative 0 0
  else
    let e := max (magnitude num den - 52) minExponent
    let (n, d) := scaled num den e
    pack negative (roundDiv n d) e

/-- The number nearest to an integer. -/
def ofInt (n : Int) : Binary64 := ofRatio (decide (n < 0)) n.natAbs 1

/-- The number of decimal digits of a natural number. -/
def decimalSize (n : Nat) : Nat := (Nat.toDigits 10 n).length

/-- The number nearest to `± digits * 10 ^ exponent`. A magnitude of `10 ^ 310` or more is
infinite and one below `10 ^ (-330)` is zero, whatever the digits. -/
def ofDecimal (negative : Bool) (digits : Nat) (exponent : Int) : Binary64 :=
  let top : Int := decimalSize digits + exponent
  if digits = 0 then .finite negative 0 0
  else if 310 < top then .infinite negative
  else if top < -330 then .finite negative 0 0
  else if 0 ≤ exponent then ofRatio negative (digits * Nat.pow 10 exponent.toNat) 1
  else ofRatio negative digits (Nat.pow 10 (-exponent).toNat)

/-- The magnitude of a finite number as a fraction. -/
def ratio (mantissa : Nat) (exponent : Int) : Nat × Nat :=
  if 0 ≤ exponent then (mantissa * Nat.pow 2 exponent.toNat, 1)
  else (mantissa, Nat.pow 2 (-exponent).toNat)

/-- The integer that a number is, if it is one. -/
def toInt? : Binary64 → Option Int
  | .infinite _ => none
  | .finite negative mantissa exponent =>
    let (num, den) := ratio mantissa exponent
    if num % den = 0 then
      let n : Int := (num / den : Nat)
      some (if negative then -n else n)
    else none

/-- An infinity is not finite, everything else is. -/
def isFinite : Binary64 → Bool
  | .infinite _ => false
  | .finite .. => true

/-- A number is greater than zero. -/
def isPositive : Binary64 → Bool
  | .infinite negative => !negative
  | .finite negative mantissa _ => !negative && mantissa != 0

/-- A natural number is greater than a number. -/
def isBelow (x : Binary64) (n : Nat) : Bool :=
  match x with
  | .infinite negative => negative
  | .finite negative mantissa exponent =>
    let (num, den) := ratio mantissa exponent
    if negative then 0 < n || mantissa != 0 else num < n * den

/-- An integer that no other integer rounds to: its magnitude is below `2 ^ 53`. -/
def isSafeInteger (x : Binary64) : Bool :=
  match x.toInt? with
  | some n => n.natAbs < Nat.pow 2 53
  | none => false

end Binary64
end WireModel
