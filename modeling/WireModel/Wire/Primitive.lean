import WireModel.Json.Basic
import WireModel.Number.Shortest
import WireModel.Wire.Base64
import WireModel.Wire.ErrorPath

/-!
# Primitives on the wire

How the primitives are read from JSON nodes and written to them. Booleans, floating-point numbers
and strings stand for themselves, bytes are Base64, and an integer of 64 bits is a number that
is read and written only without loss.
-/

namespace WireModel.Wire

/-- The kind of a node, where `none` stands for something that is not JSON. -/
def kindOf : Option Json → String
  | some .null => "null"
  | some (.bool _) => "boolean"
  | some (.number _) => "number"
  | some (.text _) => "string"
  | some (.array _) => "array"
  | some (.object _) => "object"
  | none => "non-JSON value"

def isObject : Option Json → Bool
  | some (.object _) => true
  | _ => false

def isArray : Option Json → Bool
  | some (.array _) => true
  | _ => false

/-- A value, or the path of the failure. -/
abbrev Parsed (α : Type) := Except ErrorPath α

def fail {α : Type} (cause : String) : Parsed α := .error (.new cause)

/-- A node of another kind was expected. -/
def unexpected {α : Type} (expected : String) (node : Option Json) : Parsed α :=
  fail ("Expected " ++ expected ++ ", but got " ++ kindOf node)

def parseBool : Option Json → Parsed Bool
  | some (.bool b) => .ok b
  | node => unexpected "a boolean" node

def parseString : Option Json → Parsed String
  | some (.text s) => .ok s
  | node => unexpected "a string" node

/-- The least integer of 64 bits. -/
def minInt64 : Int := -9223372036854775808

/-- The greatest integer of 64 bits. -/
def maxInt64 : Int := 9223372036854775807

def isInt64 (n : Int) : Bool := minInt64 ≤ n && n ≤ maxInt64

/-- The integer of 64 bits that a number is. -/
def int64Of? (x : Binary64) : Option Int := x.toInt?.filter isInt64

def parseInt64 : Option Json → Parsed Int
  | some (.number x) =>
    match int64Of? x with
    | some n => .ok n
    | none => fail ("Expected a 64-bit integer, but the conversion failed from " ++ x.text)
  | node => unexpected "a 64-bit integer" node

def parseFloat64 : Option Json → Parsed Binary64
  | some (.number x) =>
    if x.isFinite then .ok x
    else fail ("Expected a 64-bit float, but the conversion failed from " ++ x.text)
  | node => unexpected "a 64-bit float" node

def parseBytes : Option Json → Parsed (List UInt8)
  | some (.text s) =>
    match Base64.decode? s with
    | some bytes => .ok bytes
    | none => fail "Expected Base64-encoded bytes, but the decoding failed"
  | node => unexpected "a string" node

/-- An integer that no JSON number stands for without loss. -/
structure LossyInteger where
  value : Int
  deriving DecidableEq, Repr

def LossyInteger.message (e : LossyInteger) : String :=
  "The number can not be losslessly represented in JSON: " ++ toString e.value

/-- The number that stands for an integer of 64 bits, if there is one. -/
def writeInt64 (n : Int) : Except LossyInteger Binary64 :=
  let x := Binary64.ofInt n
  if isInt64 n && x.toInt? == some n then .ok x else .error ⟨n⟩

/-- The text that stands for bytes. -/
def writeBytes (bytes : List UInt8) : String := Base64.encode bytes

end WireModel.Wire
