import WireModel.Diagnostic
import WireModel.Json.Basic
import WireModel.Name
import WireModel.Text.Quoted

/-!
# Conformance of a document

A JSON value is a document if it has the right form: the right members of the right kinds, and
names that are identifiers. A *check* goes through a value and lists all violations, each with
the place where it was found. The checks are put together from a few combinators; their order is
the order of the report:

1. the kind of a value comes first, and a value of the wrong kind is not looked at further;
2. then what is asked of a text;
3. in an object, the missing members, then the members that are not allowed, then the members
   themselves in the order in which the rules list them.
-/

namespace WireModel

/-- Why a value does not conform. -/
inductive Breach where
  | notOfKind (kinds : String)
  | notIdentifier
  | empty
  | notAllowedValue
  | missing (key : String)
  | additional (key : String)
  | tagNotText
  | unknownTag
  deriving DecidableEq, Repr

def Breach.message : Breach → String
  | .notOfKind kinds => "must be " ++ kinds
  | .notIdentifier => "must match pattern \"^[A-Za-z][A-Za-z0-9]*(_[A-Za-z0-9]+)*$\""
  | .empty => "must NOT have fewer than 1 characters"
  | .notAllowedValue => "must be equal to one of the allowed values"
  | .missing key => "must have required property '" ++ key ++ "'"
  | .additional key => "must NOT have additional properties (" ++ Text.quote key ++ ")"
  | .tagNotText => "tag \"kind\" must be string"
  | .unknownTag => "value of tag \"kind\" must be in oneOf"

/-- A breach and the place of the value, as a JSON pointer. -/
structure Violation where
  pointer : String
  breach : Breach
  deriving DecidableEq, Repr

def Violation.diagnostic (v : Violation) : Diagnostic :=
  ⟨.modelSchemaViolation, if v.pointer.isEmpty then "/" else v.pointer, v.breach.message⟩

/-- Lists the violations of a value at a place. -/
abbrev Check := String → Json → List Violation

namespace Check

/-- Text without further rules. -/
def text : Check
  | _, .text _ => []
  | place, _ => [⟨place, .notOfKind "string"⟩]

def boolean : Check
  | _, .bool _ => []
  | place, _ => [⟨place, .notOfKind "boolean"⟩]

/-- A name of the model. -/
def identifier : Check
  | place, .text s => if Name.isIdentifier s then [] else [⟨place, .notIdentifier⟩]
  | place, _ => [⟨place, .notOfKind "string"⟩]

/-- The text of a type, which is not empty. -/
def typeText : Check
  | place, .text s => if s.isEmpty then [⟨place, .empty⟩] else []
  | place, _ => [⟨place, .notOfKind "string"⟩]

/-- A default: anything but an array, an object or an infinite number. -/
def constant : Check
  | _, .null => []
  | _, .bool _ => []
  | _, .text _ => []
  | place, .number x =>
    if x.isFinite then [] else [⟨place, .notOfKind "boolean,number,string,null"⟩]
  | place, _ => [⟨place, .notOfKind "boolean,number,string,null"⟩]

/-- One of the given texts. -/
def oneOf (allowed : List String) : Check
  | place, .text s => if allowed.contains s then [] else [⟨place, .notAllowedValue⟩]
  | place, _ => [⟨place, .notAllowedValue⟩]

/-- No rule. -/
def anything : Check := fun _ _ => []

/-- The items of an array, one after the other, from a given index on. -/
def itemsFrom (check : Check) (place : String) : Nat → List Json → List Violation
  | _, [] => []
  | index, item :: rest =>
    check (place ++ "/" ++ toString index) item ++ itemsFrom check place (index + 1) rest

/-- An array of which each item is checked. -/
def items (check : Check) : Check
  | place, .array values => itemsFrom check place 0 values
  | place, _ => [⟨place, .notOfKind "array"⟩]

/-- The rules for the members of an object: those that are required, and the check of each
member that is allowed. -/
structure Rules where
  required : List String
  members : List (String × Check)

/-- The members that are required and not there. -/
def missing (required : List String) (place : String) (members : Json.Members) : List Violation :=
  (required.filter fun key => !members.has key).map fun key => ⟨place, .missing key⟩

/-- The members that are there and not allowed. -/
def additional (rules : Rules) (place : String) (members : Json.Members) : List Violation :=
  (members.filter fun m => !rules.members.any fun rule => rule.1 == m.1).map
    fun m => ⟨place, .additional m.1⟩

/-- The members that are there, each by its check. -/
def inside (rules : Rules) (place : String) (members : Json.Members) : List Violation :=
  rules.members.flatMap fun rule =>
    match members.get? rule.1 with
    | some value => rule.2 (place ++ "/" ++ rule.1) value
    | none => []

/-- An object with the given rules. -/
def record (rules : Rules) : Check
  | place, .object members =>
    missing rules.required place members ++ additional rules place members
      ++ inside rules place members
  | place, _ => [⟨place, .notOfKind "object"⟩]

end Check

namespace Document

open Check

def literalRules : Rules :=
  { required := ["name", "value"]
    members := [("name", identifier), ("value", text), ("description", text)] }

def propertyRules : Rules :=
  { required := ["name", "type"]
    members := [("name", identifier), ("type", typeText), ("description", text)] }

def argumentRules : Rules :=
  { required := ["name", "type"]
    members := [("name", identifier), ("type", typeText), ("default", constant)] }

def enumerationRules : Rules :=
  { required := ["kind", "name", "literals"]
    members := [("kind", anything), ("name", identifier), ("description", text),
      ("literals", items (record literalRules))] }

def constrainedRules : Rules :=
  { required := ["kind", "name", "constrainee"]
    members := [("kind", anything), ("name", identifier), ("description", text),
      ("constrainee", oneOf ["bool", "int", "float", "str", "bytearray"])] }

def abstractClassRules : Rules :=
  { required := ["kind", "name"]
    members := [("kind", anything), ("name", identifier), ("description", text),
      ("inheritances", items identifier), ("properties", items (record propertyRules)),
      ("constructorArguments", items (record argumentRules))] }

def concreteClassRules : Rules :=
  { required := ["kind", "name"]
    members := abstractClassRules.members ++ [("implementationSpecific", boolean)] }

/-- The rules of each kind of type, by the value of its tag. -/
def kindRules : List (String × Rules) :=
  [("enumeration", enumerationRules), ("constrainedPrimitive", constrainedRules),
    ("abstractClass", abstractClassRules), ("concreteClass", concreteClassRules)]

/-- The rules that the tag of a type selects. -/
def taggedCheck (place : String) (members : Json.Members) : List Violation :=
  match members.get? "kind" with
  | some (.text kind) =>
    match kindRules.lookup kind with
    | some rules => record rules place (.object members)
    | none => [⟨place, .unknownTag⟩]
  | _ => [⟨place, .tagNotText⟩]

/-- A type: its tag is there, it is a known one, and the rules that it selects hold. -/
def typeCheck : Check
  | place, .object members =>
    missing ["kind"] place members
      ++ (match Json.Members.get? members "kind" with
        | some value => oneOf (kindRules.map (·.1)) (place ++ "/kind") value
        | none => [])
      ++ taggedCheck place members
  | place, _ => [⟨place, .notOfKind "object"⟩]

def rules : Rules :=
  { required := ["name", "types"]
    members := [("$schema", text), ("name", identifier), ("version", text),
      ("description", text), ("types", items typeCheck)] }

/-- All violations of a value, in order. -/
def violations (value : Json) : List Violation := record rules "" value

/-- A value has the form of a document. -/
def conforms (value : Json) : Bool := (violations value).isEmpty

end Document
end WireModel
