import WireModel.Model.Declaration
import WireModel.Model.Hierarchy

/-!
# The outline of a model

What is resolved before constructors, interfaces and descriptions: the declared types, the
parents that classes keep, and the effective properties. A class has the properties of its
parents, in the order of the parents and each once, and then its own. A property that reaches a
class along two ways is the same property if one class declares it; two properties of one name
from different classes are a problem, and the first one stays.
-/

namespace WireModel

/-! ## Types of fields -/

/-- What stands in for a type that cannot be resolved. -/
def FieldType.placeholder : FieldType Atom := ⟨false, false, .primitive .str⟩

/-- The name that an item mentions, if no declared type has it. -/
def Atom.unknown? (types : List TypeDecl) : Atom → Option String
  | .primitive _ => none
  | .named name => if types.any fun d => d.name == name then none else some name

/-- The type that a text spells, with its problems. -/
def FieldType.resolve (types : List TypeDecl) (subject : Subject) (text : String) :
    FieldType Atom × List Problem :=
  match FieldType.parse text with
  | .error e => (.placeholder, [.malformedType subject text e])
  | .ok a =>
    match a.item.unknown? types with
    | some name => (.placeholder, [.unknownType subject name])
    | none => (a, [])

/-! ## Parents -/

/-- Whether a class keeps a parent, in view of the parents that it keeps. -/
def ClassDecl.linkParent (types : List TypeDecl) (child : String) (kept : List String)
    (parent : String) : Option String × List Problem :=
  match types.find? fun d => d.name == parent with
  | none => (none, [.unknownParent child parent])
  | some (.classType _) =>
    if kept.contains parent then (none, [.repeatedParent child parent]) else (some parent, [])
  | some _ => (none, [.parentNotClass child parent])

/-- The parents of a class that are declared classes, each once, and the problems with others. -/
def ClassDecl.link (types : List TypeDecl) (c : ClassDecl) : List String × List Problem :=
  sift (linkParent types c.name) [] c.parents

/-! ## Properties -/

/-- An effective property whose description has not been read. -/
structure Attribute where
  name : String
  type : FieldType Atom
  declaredBy : String
  prose : Option String
  deriving DecidableEq, Repr

namespace Attribute

/-- The attribute with a name. -/
def find? (attributes : List Attribute) (name : String) : Option Attribute :=
  attributes.find? fun a => a.name == name

/-- The attributes of one more parent, after those that are there already. -/
def inherit (attributes more : List Attribute) : List Attribute :=
  attributes ++ more.filter fun a => (find? attributes a.name).isNone

/-- The attributes of several parents, in order. -/
def inheritAll (parents : List (List Attribute)) : List Attribute := parents.foldl inherit []

/-- The attributes of one more parent that another class declares under the same name. -/
def conflicts (owner : String) (attributes more : List Attribute) : List Problem :=
  more.filterMap fun a =>
    match find? attributes a.name with
    | some other =>
      if other.declaredBy = a.declaredBy then none
      else some (.inheritedTwice owner a.name other.declaredBy a.declaredBy)
    | none => none

/-- Names of properties, in lower camel case, that the generated code needs for itself. -/
def reservedNames : List String := ["transform", "constructor"]

/-- Whether a class declares a property of its own, in view of the inherited ones and of its own
ones so far. A reserved name is a problem, but the property stays. -/
def declare (types : List TypeDecl) (owner : String) (inherited own : List Attribute)
    (d : PropertyDecl) : Option Attribute × List Problem :=
  match find? (inherited ++ own) d.name with
  | some other =>
    (none, [if other.declaredBy = owner then .repeatedProperty owner d.name
      else .alreadyDefined owner d.name other.declaredBy])
  | none =>
    let reserved :=
      if reservedNames.contains (Name.camel d.name) then [Problem.reservedProperty owner d.name]
      else []
    let (type, problems) := FieldType.resolve types (.member owner d.name) d.type
    (some ⟨d.name, type, owner, d.description⟩, reserved ++ problems)

/-- The own properties of a class, and the problems with them. -/
def own (types : List TypeDecl) (c : ClassDecl) (inherited : List Attribute) :
    List Attribute × List Problem :=
  sift (declare types c.name inherited) [] c.properties

/-- The effective properties of a class, from those of its parents. -/
def effective (types : List TypeDecl) (c : ClassDecl) (ofParents : List (List Attribute)) :
    List Attribute :=
  let inherited := inheritAll ofParents
  inherited ++ (own types c inherited).1

end Attribute

/-! ## The outline -/

/-- The declared types, the trace of the walk over the classes, and the effective properties of
each class. -/
structure Outline where
  types : List TypeDecl
  trace : List Hierarchy.Event
  attributes : List (String × List Attribute)

namespace Outline

/-- The declared classes, in the order of the document. -/
def classesOf (types : List TypeDecl) : List ClassDecl := types.filterMap TypeDecl.class?

/-- The class with a name. -/
def classOf? (types : List TypeDecl) (name : String) : Option ClassDecl :=
  (classesOf types).find? fun c => c.name == name

/-- The classes with the parents that are declared classes. -/
def nodesOf (types : List TypeDecl) : List Hierarchy.Node :=
  (classesOf types).map fun c => ⟨c.name, (c.link types).1⟩

/-- The effective properties of a class of the hierarchy. -/
def attributesOfNode (types : List TypeDecl) (node : Hierarchy.Node)
    (ofParents : List (List Attribute)) : List Attribute :=
  match classOf? types node.name with
  | some c => Attribute.effective types c ofParents
  | none => Attribute.inheritAll ofParents

/-- The outline of declared types. -/
def ofTypes (types : List TypeDecl) : Outline :=
  let trace := Hierarchy.trace (nodesOf types)
  { types
    trace
    attributes := Hierarchy.tabulate (attributesOfNode types) (Hierarchy.order trace) }

variable (o : Outline)

def classes : List ClassDecl := classesOf o.types

def class? (name : String) : Option ClassDecl := classOf? o.types name

/-- The effective properties of a class. -/
def attributesOf (name : String) : List Attribute := (o.attributes.lookup name).getD []

/-- The classes in an order in which parents come first, with the parents that they keep. -/
def order : List Hierarchy.Node := Hierarchy.order o.trace

/-- The parents that a class keeps. -/
def parentsOf (name : String) : List String :=
  match o.order.find? fun n => n.name == name with
  | some node => node.parents
  | none => []

/-- What the parents `names` pass on to a class. -/
def inheritedFrom (names : List String) : List Attribute :=
  Attribute.inheritAll (names.filterMap fun p => o.attributes.lookup p)

/-! ## Problems -/

/-- The problems with the parents of the classes. -/
def parentProblems : List Problem := o.classes.flatMap fun c => (c.link o.types).2

/-- The cycles that were broken. -/
def cycleProblems : List Problem :=
  o.trace.filterMap fun
    | .cycle first path => some (.cycle first path)
    | _ => none

/-- The problems with properties that an event of the walk brings to light. -/
def propertyProblemsAt : Hierarchy.Event → List Problem
  | .cycle _ _ => []
  | .inherit child earlier parent =>
    Attribute.conflicts child (o.inheritedFrom earlier) (o.attributesOf parent)
  | .finish node =>
    match o.class? node.name with
    | some c => (Attribute.own o.types c (o.inheritedFrom node.parents)).2
    | none => []

/-- The problems with properties, in the order of the walk. -/
def propertyProblems : List Problem := o.trace.flatMap o.propertyProblemsAt

end Outline
end WireModel
