import WireModel.Codec.Plan
import WireModel.Number.Shortest
import WireModel.TypeScript.Name
import WireModel.TypeScript.Row

/-!
# Type expressions and default values

The type of a field in generated code, and the expression for the default of an argument. Names
of generated types are written with a qualifier when they are used from another module.
-/

namespace WireModel.TypeScript

inductive TypeExpr where
  | primitive (kind : Primitive)
  | named (name : String)
  | array (item : TypeExpr)
  | orNull (type : TypeExpr)
  deriving DecidableEq, Repr

/-- The type of a primitive. -/
def primitiveType : Primitive → String
  | .bool => "boolean"
  | .int => "bigint"
  | .float => "number"
  | .str => "string"
  | .bytearray => "Uint8Array"

namespace TypeExpr

def text (qualifier : String) : TypeExpr → String
  | .primitive kind => primitiveType kind
  | .named name => qualifier ++ name
  | .array item => "Array<" ++ item.text qualifier ++ ">"
  | .orNull type => type.text qualifier ++ " | null"

/-- The type of what a carrier carries. -/
def ofCarrier : Carrier → TypeExpr
  | .primitive kind => .primitive kind
  | .enumeration name => .named (typeName name)
  | .choice name => .named (interfaceName name)
  | .object name => .named (typeName name)

/-- The type of a field when it is there. -/
def required (s : Strategy) : TypeExpr :=
  if s.isList then .array (ofCarrier s.item) else ofCarrier s.item

/-- The type of a field; an optional one may be `null`. -/
def ofStrategy (s : Strategy) : TypeExpr :=
  if s.isOptional then .orNull (required s) else required s

/-- The generated type that a type expression mentions. -/
def names : TypeExpr → List String
  | .primitive _ => []
  | .named name => [name]
  | .array item => item.names
  | .orNull type => type.names

end TypeExpr

/-- A value in generated code. -/
inductive Value where
  | null
  | bool (value : Bool)
  /-- A number that stands for a floating-point number. -/
  | number (value : Binary64)
  /-- A number that stands for an integer. -/
  | bigint (value : Binary64)
  | text (value : String)
  | literal (enumeration literal : String)
  deriving DecidableEq, Repr

namespace Value

def piece : Value → Piece
  | .null => .code "null"
  | .bool b => .code (if b then "true" else "false")
  | .number x => .code x.text
  | .bigint x => .code (x.text ++ "n")
  | .text s => .literal s
  | .literal enumeration l => .code (enumeration ++ "." ++ l)

/-- The value of a default for a field with a strategy. -/
def ofDefault (s : Strategy) : Default → Value
  | .bool b => .bool b
  | .number x => if s.item = .primitive .int ∧ ¬s.isList then .bigint x else .number x
  | .text v => .text v
  | .literal enumeration l => .literal (typeName enumeration) (typeName l)

end Value
end WireModel.TypeScript
