import WireModel.Model.Outline
import WireModel.Model.Table

/-!
# Constructors

The arguments of a constructor are the effective properties of its class, unless the document
lists arguments of its own; then their names must be those of the properties, in any order. A
default must fit the type of its argument: `null` fits an optional one, the name of a literal fits
an enumeration, and a constant fits the primitive of its kind.
-/

namespace WireModel

namespace Default

/-- The primitive behind an item. -/
def primitiveOf? (types : List TypeDecl) : Atom → Option Primitive
  | .primitive kind => some kind
  | .named name =>
    match types.find? fun d => d.name == name with
    | some (.constrained d) => some d.constrainee
    | _ => none

/-- The enumeration behind an item. -/
def enumerationOf? (types : List TypeDecl) : Atom → Option EnumerationDecl
  | .primitive _ => none
  | .named name =>
    match types.find? fun d => d.name == name with
    | some (.enumeration d) => some d
    | _ => none

/-- The constant as the default of a primitive, if it fits. -/
def ofConstant? : Primitive → Constant → Option Default
  | .bool, .bool b => some (.bool b)
  | .int, .number x => if x.isSafeInteger then some (.number x) else none
  | .float, .number x => some (.number x)
  | .str, .text s => some (.text s)
  | _, _ => none

/-- The literal of an enumeration that a constant names. -/
def ofLiteral? (e : EnumerationDecl) : Constant → Option Default
  | .text s => if e.literals.any fun l => l.name == s then some (.literal e.name s) else none
  | _ => none

/-- The default that a constant is for an argument of a type, with its problems. -/
def resolve (types : List TypeDecl) (subject : Subject) (type : FieldType Atom) :
    Constant → Option Default × List Problem
  | .null => (none, if type.isOptional then [] else [.nullDefault subject])
  | value =>
    if type.isList then (none, [.listDefault subject])
    else
      match enumerationOf? types type.item with
      | some e =>
        match ofLiteral? e value with
        | some d => (some d, [])
        | none => (none, [.notLiteral subject value e.name])
      | none =>
        match (primitiveOf? types type.item).bind fun kind => ofConstant? kind value with
        | some d => (some d, [])
        | none => (none, [.unfitDefault subject value])

end Default

namespace Argument

/-- Whether an argument is one of the constructor, in view of those that are. -/
def declare (types : List TypeDecl) (owner : String) (kept : List Argument) (d : ArgumentDecl) :
    Option Argument × List Problem :=
  if kept.any fun a => a.name == d.name then (none, [.repeatedArgument owner d.name])
  else
    let subject := Subject.argument owner d.name
    let (type, typeProblems) := FieldType.resolve types subject d.type
    let (default, defaultProblems) :=
      match d.default with
      | some value => Default.resolve types subject type value
      | none => (none, [])
    (some ⟨d.name, type, default⟩, typeProblems ++ defaultProblems)

/-- The names that are in the first list only. -/
def namesOnlyIn (names others : List String) : List String :=
  names.filter fun n => !others.contains n

/-- The problem with arguments whose names are not those of the properties. -/
def mismatch (owner : String) (arguments properties : List String) : List Problem :=
  let missing := namesOnlyIn properties arguments
  let unexpected := namesOnlyIn arguments properties
  if missing.isEmpty && unexpected.isEmpty then []
  else [.constructorMismatch owner missing unexpected]

/-- The arguments of the constructor of a class, with their problems. -/
def ofClass (types : List TypeDecl) (c : ClassDecl) (attributes : List Attribute) :
    List Argument × List Problem :=
  match c.arguments with
  | none => (attributes.map fun a => ⟨a.name, a.type, none⟩, [])
  | some decls =>
    let (arguments, problems) := sift (declare types c.name) [] decls
    (arguments, problems ++ mismatch c.name (arguments.map (·.name)) (attributes.map (·.name)))

end Argument

/-- The problems with the constructors of all classes. -/
def Outline.constructorProblems (o : Outline) : List Problem :=
  o.classes.flatMap fun c => (Argument.ofClass o.types c (o.attributesOf c.name)).2

end WireModel
