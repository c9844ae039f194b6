import WireModel.Codec.Plan
import WireModel.Description
import WireModel.Emission.Log
import WireModel.Json.Parser
import WireModel.Json.Printer

/-!
# The JSON schema of the wire format

The schema describes what the generated serializers write: an absent optional property is missing
rather than `null`, and the discriminator is required wherever it is written. Every type has a
definition under its name, except an abstract class, and every interface has one under the name
of its class with the ending `_choice`.
-/

namespace WireModel.Schema

/-- The dialect that the schema is written in. -/
def dialect : String := "https://json-schema.org/draft/2020-12/schema"

/-- The name of the definition for the interface of a class. -/
def choiceName (className : String) : String := className ++ "_choice"

/-- A reference to a definition. -/
def reference (name : String) : Json.Members := [("$ref", .text ("#/$defs/" ++ name))]

/-- The schema of a primitive. -/
def ofPrimitive : Primitive → Json.Members
  | .bool => [("type", .text "boolean")]
  | .int => [("type", .text "integer")]
  | .float => [("type", .text "number")]
  | .str => [("type", .text "string")]
  | .bytearray => [("type", .text "string"), ("contentEncoding", .text "base64")]

/-- The schema of an item. -/
def ofAtom (t : Table) : Atom → Json.Members
  | .primitive kind => ofPrimitive kind
  | .named name =>
    if (t.interface? name).isSome then reference (choiceName name) else reference name

/-- The schema of a field when it is there. -/
def ofField (t : Table) (type : FieldType Atom) : Json.Members :=
  let item := ofAtom t type.item
  if type.isList then [("type", .text "array"), ("items", .object item)] else item

/-- A schema behind the summary of a description. -/
def withDescription (description : Option Description) (schema : Json.Members) : Json.Members :=
  match description with
  | some d => ("description", .text d.summary.plain) :: schema
  | none => schema

/-- The properties of a class on the wire, with their schemas. -/
def properties (t : Table) (key : String) (c : Codec.ClassPlan) : Json.Members :=
  .ofList ((c.members.map fun m =>
      (m.wire, .object (withDescription m.property.description (ofField t m.property.type))))
    ++ (if c.isDiscriminated then
        [(key, .object [("const", .text (Name.capital c.name))])]
      else []))

/-- The properties that an object of a class must have. -/
def required (key : String) (c : Codec.ClassPlan) : List String :=
  (c.members.filter fun m => !m.property.type.isOptional).map (·.wire)
    ++ (if c.isDiscriminated then [key] else [])

/-- The schema of a class. -/
def ofClass (t : Table) (key : String) (c : Codec.ClassPlan) : Json.Members :=
  let needed := required key c
  withDescription c.type.description
    ([("type", .text "object"), ("properties", .object (properties t key c))]
      ++ (if needed.isEmpty then [] else [("required", Json.texts needed)])
      ++ [("additionalProperties", .bool false)])

/-- The schema of a handwritten class, from its snippet. -/
def ofSnippet (snippets : Snippets) (className : String) : Except Diagnostic Json.Members :=
  let key := SnippetKey.schemaDefinition className
  match snippets.require key className with
  | .error d => .error d
  | .ok text =>
    match Json.parse? text with
    | some (.object members) => .ok members
    | some _ => .error (.snippetNotObject key className)
    | none => .error (.malformedSnippet key className)

/-- The definition of a type, if it has one, and what is reported about it. -/
def definitionOf (t : Table) (key : String) (snippets : Snippets) :
    Codec.TypePlan → Option (String × Json) × Log
  | .enumeration e =>
    (some (e.type.name, .object (withDescription e.type.description
      [("type", .text "string"), ("enum", Json.texts (e.type.literals.map (·.value)))])), [])
  | .constrained c =>
    (some (c.name, .object (withDescription c.description (ofPrimitive c.constrainee))), [])
  | .classType c =>
    if !c.type.isConcrete then (none, [])
    else if c.type.isHandwritten then
      match ofSnippet snippets c.name with
      | .ok schema => (some (c.name, .object schema), [])
      | .error d => (none, [d])
    else (some (c.name, .object (ofClass t key c)), [])

/-- The definition of an interface: one of its implementers. -/
def choiceOf (i : Interface) : String × Json :=
  (choiceName i.name,
    .object [("oneOf", .array (i.implementers.map fun name => .object (reference name)))])

/-- All definitions, and what is reported about them. -/
def definitions (plan : Codec.Plan) (key : String) (snippets : Snippets) : Json.Members × Log :=
  let defined := plan.types.map (definitionOf plan.table key snippets)
  (.ofList (defined.filterMap (·.1) ++ plan.table.interfaces.map choiceOf),
    defined.flatMap (·.2))

/-- The schema of a model, and what is reported about it. -/
def build (plan : Codec.Plan) (key : String) (snippets : Snippets) : Json × Log :=
  let (defs, log) := definitions plan key snippets
  let summary := plan.table.description.map fun d => ("description", Json.text d.summary.plain)
  (.object ([("$schema", .text dialect), ("title", .text plan.table.name)] ++ summary.toList
    ++ [("$defs", .object defs)]), log)

end WireModel.Schema
