import WireModel.Model.Outline
import WireModel.Model.Table

/-!
# References in descriptions

A description may refer to a type by its name, to a property as `Class.property`, and within a
class also to a property of that class by its name alone. Every description of the document is
read, also those of types that were dropped, as long as a type of the same kind and name stays.
-/

namespace WireModel.Outline

variable (o : Outline)

/-- The parts of a target before and after its first point. -/
def splitTarget (target : String) : Option (String × String) :=
  let cs := target.toList
  match cs.dropWhile (· != '.') with
  | _ :: rest => some (String.ofList (cs.takeWhile (· != '.')), String.ofList rest)
  | [] => none

/-- The property of a class by name. -/
def propertyRef? (owner property : String) : Option Inline :=
  if (o.class? owner).isNone then none
  else
    (Attribute.find? (o.attributesOf owner) property).map fun a =>
      .propertyRef owner a.name a.declaredBy

/-- Finds what a reference refers to, within a class or outside of any. -/
def lookup (within : Option String) : Description.Lookup := fun r =>
  match r.role with
  | .type => if o.types.any fun d => d.name == r.target then some (.typeRef r.target) else none
  | .property =>
    match splitTarget r.target with
    | some (owner, property) => o.propertyRef? owner property
    | none => within.bind fun owner => o.propertyRef? owner r.target

/-- The description that a text is, within a class or outside of any. -/
def describe (within : Option String) (prose : Option String) : Option Description :=
  prose.bind (Description.parse (o.lookup within))

/-- The references of a text that do not resolve. -/
def unresolvedIn (within : Option String) (subject : Subject) (prose : Option String) :
    List Problem :=
  match prose with
  | some s => (Description.unresolved (o.lookup within) s).map (.unresolvedReference subject)
  | none => []

/-- The declared enumeration with a name. -/
def enumeration? (name : String) : Option EnumerationDecl :=
  match o.types.find? fun d => d.name == name with
  | some (.enumeration d) => some d
  | _ => none

/-- The declared constrained primitive with a name. -/
def constrained? (name : String) : Option ConstrainedDecl :=
  match o.types.find? fun d => d.name == name with
  | some (.constrained d) => some d
  | _ => none

/-- The own properties of a class. -/
def ownAttributes (name : String) : List Attribute :=
  (o.attributesOf name).filter fun a => a.declaredBy == name

/-- The references that do not resolve in the descriptions of a declaration of the document. -/
def referenceProblemsOf : TypeDecl → List Problem
  | .enumeration d =>
    match o.enumeration? d.name with
    | some kept =>
      o.unresolvedIn none (.type d.name) d.description
        ++ kept.literals.flatMap fun l =>
          o.unresolvedIn none (.member d.name l.name)
            ((d.literals.find? fun raw => raw.name == l.name).bind (·.description))
    | none => []
  | .constrained d =>
    match o.constrained? d.name with
    | some _ => o.unresolvedIn none (.type d.name) d.description
    | none => []
  | .classType d =>
    match o.class? d.name with
    | some _ =>
      o.unresolvedIn (some d.name) (.type d.name) d.description
        ++ (o.ownAttributes d.name).flatMap fun a =>
          o.unresolvedIn (some d.name) (.member d.name a.name)
            ((d.properties.find? fun raw => raw.name == a.name).bind (·.description))
    | none => []

/-- The references that do not resolve anywhere in a document. -/
def referenceProblems (document : Document) : List Problem :=
  document.types.flatMap o.referenceProblemsOf
    ++ o.unresolvedIn none (.type document.name) document.description

end WireModel.Outline
