import WireModel.Model.Table
import WireModel.TypeScript.Name

/-!
# Descriptions in generated code

The paragraphs of a description with its references written as links to generated names. A
constrained primitive has no name of its own in generated code and is quoted instead.
-/

namespace WireModel.TypeScript

/-- The name of a model type in generated code. -/
def generatedName? (t : Table) (name : String) : Option String :=
  match t.find? name with
  | some (.enumeration e) => some (typeName e.name)
  | some (.classType c) => some (if c.isConcrete then typeName c.name else interfaceName c.name)
  | _ => none

/-- A link in a documentation comment. -/
def docLink (target : String) : String := "\x7b@link " ++ target ++ "\x7d"

def docInline (t : Table) : Inline → String
  | .text s => s
  | .typeRef name =>
    match generatedName? t name with
    | some generated => docLink generated
    | none => "`" ++ name ++ "`"
  | .propertyRef owner property _ =>
    docLink ((generatedName? t owner).getD owner ++ "." ++ bindingName (Name.camel property))

/-- The paragraphs of a description as texts. -/
def docParagraphs (t : Table) : Option Description → List String
  | some d => d.paragraphs.map fun p => String.join (p.map (docInline t))
  | none => []

end WireModel.TypeScript
