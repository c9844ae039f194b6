import WireModel.Codec.Plan
import WireModel.Number.Shortest
import WireModel.Reference.Tree

/-!
# Building the reference

One section for each kind of type, with the types in the order of the model. A type has a heading,
and a property has a target in the row of the class that declares it, so references in descriptions
can be links.
-/

namespace WireModel.Reference

/-- A link to a type. -/
def typeLink (name : String) : Span := .link name (Name.anchor [name]) true

/-- The anchor of a property, in the class that declares it. -/
def propertyAnchor (declaredBy name : String) : String := Name.anchor [declaredBy, name]

/-- The anchor of a section of a class. -/
def sectionAnchor (className part : String) : String :=
  Name.anchor [className] ++ "--" ++ part

def ofInline : Inline → Span
  | .text s => .text s
  | .typeRef name => typeLink name
  | .propertyRef _ property declaredBy =>
    .link property (propertyAnchor declaredBy property) true

/-- All paragraphs of a description. -/
def descriptionBlocks : Option Description → List Block
  | some d => d.paragraphs.map fun p => .paragraph (p.map ofInline)
  | none => []

/-- The summary of a description; nothing if there is none. -/
def summaryOf : Option Description → Spans
  | some d => d.summary.map ofInline
  | none => []

/-- Links to types, separated by commas. -/
def typeLinks (names : List String) : Spans := (names.map typeLink).intersperse (.text ", ")

def ofAtom : Atom → Span
  | .primitive kind => .code kind.name
  | .named name => typeLink name

/-- The type of a field. -/
def ofField (type : FieldType Atom) : Spans :=
  let item := [ofAtom type.item]
  let body := if type.isList then [.text "List["] ++ item ++ [.text "]"] else item
  if type.isOptional then [.text "Optional["] ++ body ++ [.text "]"] else body

def ofDefault : Default → Span
  | .bool b => .code (if b then "true" else "false")
  | .number x => .code x.text
  | .text s => .code (Text.quote s)
  | .literal enumeration l => .link (enumeration ++ "." ++ l) (Name.anchor [enumeration]) true

/-- A heading whose anchor is its own text. -/
def heading (level : Nat) (title : String) : Block := .heading level title (Name.anchor [title])

def enumerationBlocks (e : Enumeration) : List Block :=
  [heading 3 e.name] ++ descriptionBlocks e.description
    ++ [.table ["Literal", "Value", "Description"]
      (e.literals.map fun l => [[.code l.name], [.code l.value], summaryOf l.description])]

def constrainedBlocks (c : Constrained) : List Block :=
  [heading 3 c.name,
    .paragraph [.text "Constrained primitive over ", .code c.constrainee.name, .text "."]]
  ++ descriptionBlocks c.description

/-- The row of a property: a target if the class declares it, and a link to the class that does
otherwise. -/
def propertyRow (className : String) (m : Codec.Member) : List Spans :=
  let p := m.property
  let name : Spans :=
    if p.declaredBy = className then
      [.target (propertyAnchor p.declaredBy p.name), .code p.name]
    else [.code p.name, .text " (from ", typeLink p.declaredBy, .text ")"]
  [name, [.code m.wire], ofField p.type, summaryOf p.description]

/-- What kind of class it is. -/
def kindSpans (kind : ClassKind) : Spans :=
  [.text (if kind.isConcrete then "Concrete class." else "Abstract class.")]
    ++ (if kind.isHandwritten then [.text " Its implementation is provided by hand."] else [])

/-- A paragraph about related classes, if there are any. -/
def relatives (lead : String) (names : List String) : List Block :=
  if names.isEmpty then [] else [.paragraph ([.text lead] ++ typeLinks names ++ [.text "."])]

/-- How objects of the class are marked on the wire. -/
def discriminatorBlocks (key : String) (c : Codec.ClassPlan) : List Block :=
  if c.type.isConcrete && c.isDiscriminated then
    [.paragraph [.text "Serialized with ",
      .code ("\"" ++ key ++ "\": " ++ Text.quote (Name.capital c.name)), .text "."]]
  else []

def propertyBlocks (c : Codec.ClassPlan) : List Block :=
  if c.members.isEmpty then []
  else
    [.heading 4 "Properties" (sectionAnchor c.name "properties"),
      .table ["Property", "JSON", "Type", "Description"] (c.members.map (propertyRow c.name))]

/-- An argument with its type and its default. -/
def argumentSpans (a : Argument) : Spans :=
  [.code a.name, .text ": "] ++ ofField a.type
    ++ (match a.default with
      | some d => [.text " = ", ofDefault d]
      | none => [])

def constructorBlocks (c : Class) : List Block :=
  if c.arguments.isEmpty then []
  else
    [.heading 4 "Constructor" (sectionAnchor c.name "constructor"),
      .list (c.arguments.map argumentSpans)]

def classBlocks (key : String) (c : Codec.ClassPlan) : List Block :=
  [heading 3 c.name, .paragraph (kindSpans c.type.kind)]
    ++ relatives "Inherits from " c.type.parents
    ++ relatives "Descendants: " c.type.descendants
    ++ discriminatorBlocks key c
    ++ descriptionBlocks c.type.description
    ++ propertyBlocks c
    ++ constructorBlocks c.type

/-- A section with a heading, if it has content. -/
def sectionBlocks (title : String) (content : List Block) : List Block :=
  if content.isEmpty then [] else heading 2 title :: content

def enumerationsOf (plan : Codec.Plan) : List Block :=
  plan.types.flatMap fun
    | .enumeration e => enumerationBlocks e.type
    | _ => []

def constrainedOf (plan : Codec.Plan) : List Block :=
  plan.types.flatMap fun
    | .constrained c => constrainedBlocks c
    | _ => []

def classesOf (plan : Codec.Plan) (key : String) : List Block :=
  plan.types.flatMap fun
    | .classType c => classBlocks key c
    | _ => []

/-- The reference of a model. -/
def build (plan : Codec.Plan) (key : String) (title : Option String) : Tree :=
  let title := title.getD plan.table.name
  let version : List Block :=
    match plan.table.version with
    | some v => [.paragraph [.text "Version ", .code v]]
    | none => []
  { title
    blocks := [heading 1 title] ++ version ++ descriptionBlocks plan.table.description
      ++ sectionBlocks "Enumerations" (enumerationsOf plan)
      ++ sectionBlocks "Constrained primitives" (constrainedOf plan)
      ++ sectionBlocks "Classes" (classesOf plan key) }

end WireModel.Reference
