import WireModel.Document.Basic
import WireModel.Json.Basic

/-!
# Decoding documents

From a JSON value to a document. Decoding looks only at the members that it needs and gives up
when one of them has the wrong form, so that it succeeds on every value that conforms.
-/

namespace WireModel

namespace Decode

/-- The text that a value is. -/
def text? : Json → Option String
  | .text s => some s
  | _ => none

def bool? : Json → Option Bool
  | .bool b => some b
  | _ => none

def array? : Json → Option (List Json)
  | .array items => some items
  | _ => none

/-- The constant that a value is. -/
def constant? : Json → Option Constant
  | .null => some .null
  | .bool b => some (.bool b)
  | .number x => some (.number x)
  | .text s => some (.text s)
  | _ => none

/-- A member that must be there. -/
def field {α : Type} (read : Json → Option α) (value : Json) (key : String) : Option α :=
  (value.get? key).bind read

/-- A member that may be left out. -/
def optionalField {α : Type} (read : Json → Option α) (value : Json) (key : String) :
    Option (Option α) :=
  match value.get? key with
  | some member => (read member).map some
  | none => some none

/-- An array whose items are all read. -/
def list {α : Type} (read : Json → Option α) (value : Json) : Option (List α) :=
  (array? value).bind fun items => items.mapM read

end Decode

open Decode

def LiteralDecl.decode? (value : Json) : Option LiteralDecl := do
  let name ← field text? value "name"
  let wire ← field text? value "value"
  let description ← optionalField text? value "description"
  some ⟨name, wire, description⟩

def PropertyDecl.decode? (value : Json) : Option PropertyDecl := do
  let name ← field text? value "name"
  let type ← field text? value "type"
  let description ← optionalField text? value "description"
  some ⟨name, type, description⟩

def ArgumentDecl.decode? (value : Json) : Option ArgumentDecl := do
  let name ← field text? value "name"
  let type ← field text? value "type"
  let default ← optionalField constant? value "default"
  some ⟨name, type, default⟩

def EnumerationDecl.decode? (value : Json) : Option EnumerationDecl := do
  let name ← field text? value "name"
  let description ← optionalField text? value "description"
  let literals ← field (list LiteralDecl.decode?) value "literals"
  some ⟨name, description, literals⟩

def ConstrainedDecl.decode? (value : Json) : Option ConstrainedDecl := do
  let name ← field text? value "name"
  let description ← optionalField text? value "description"
  let constrainee ← (field text? value "constrainee").bind Primitive.ofName?
  some ⟨name, description, constrainee⟩

/-- A class whose kind is known. -/
def ClassDecl.decode? (kind : ClassKind) (value : Json) : Option ClassDecl := do
  let name ← field text? value "name"
  let description ← optionalField text? value "description"
  let parents ← optionalField (list text?) value "inheritances"
  let properties ← optionalField (list PropertyDecl.decode?) value "properties"
  let arguments ← optionalField (list ArgumentDecl.decode?) value "constructorArguments"
  some ⟨name, kind, description, parents.getD [], properties.getD [], arguments⟩

def TypeDecl.decode? (value : Json) : Option TypeDecl := do
  match ← field text? value "kind" with
  | "enumeration" => (EnumerationDecl.decode? value).map .enumeration
  | "constrainedPrimitive" => (ConstrainedDecl.decode? value).map .constrained
  | "abstractClass" => (ClassDecl.decode? .abstract value).map .classType
  | "concreteClass" => do
    let handwritten ← optionalField bool? value "implementationSpecific"
    (ClassDecl.decode? (.concrete (handwritten.getD false)) value).map .classType
  | _ => none

/-- The document that a value is. -/
def Document.decode? (value : Json) : Option Document := do
  let name ← field text? value "name"
  let version ← optionalField text? value "version"
  let description ← optionalField text? value "description"
  let types ← field (list TypeDecl.decode?) value "types"
  some ⟨name, version, description, types⟩

end WireModel
