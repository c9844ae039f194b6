import WireModel.FieldType.Basic
import WireModel.Description
import WireModel.Document.Basic

/-!
# The symbol table

A model whose declarations have been resolved: every name that the table mentions is the name of
one of its types. Types are listed in the order of the document. A class carries its effective
properties, the inherited ones before its own, and the classes that descend from it; a class
with descendants has an *interface*, under which any of its implementers can stand.
-/

namespace WireModel

structure Literal where
  name : String
  value : String
  description : Option Description
  deriving DecidableEq, Repr

structure Enumeration where
  name : String
  literals : List Literal
  description : Option Description
  deriving DecidableEq, Repr

/-- A primitive under a name of its own. -/
structure Constrained where
  name : String
  constrainee : Primitive
  description : Option Description
  deriving DecidableEq, Repr

/-- A property of a class, declared by that class or by an ancestor. -/
structure Property where
  name : String
  type : FieldType Atom
  declaredBy : String
  description : Option Description
  deriving DecidableEq, Repr

/-- The default of an argument: a constant that fits its type, or a literal of its enumeration. -/
inductive Default where
  | bool (value : Bool)
  | number (value : Binary64)
  | text (value : String)
  | literal (enumeration literal : String)
  deriving DecidableEq, Repr

structure Argument where
  name : String
  type : FieldType Atom
  default : Option Default
  deriving DecidableEq, Repr

structure Class where
  name : String
  kind : ClassKind
  parents : List String
  properties : List Property
  arguments : List Argument
  descendants : List String
  description : Option Description
  deriving DecidableEq, Repr

inductive NamedType where
  | enumeration (type : Enumeration)
  | constrained (type : Constrained)
  | classType (type : Class)
  deriving DecidableEq, Repr

/-- The polymorphic view of the class `name`: the concrete classes among it and its descendants. -/
structure Interface where
  name : String
  implementers : List String
  deriving DecidableEq, Repr

structure Table where
  name : String
  version : Option String
  description : Option Description
  types : List NamedType
  interfaces : List Interface
  deriving DecidableEq, Repr

namespace NamedType

def name : NamedType → String
  | .enumeration e => e.name
  | .constrained c => c.name
  | .classType c => c.name

def enumeration? : NamedType → Option Enumeration
  | .enumeration e => some e
  | _ => none

def class? : NamedType → Option Class
  | .classType c => some c
  | _ => none

end NamedType

namespace Class

def isConcrete (c : Class) : Bool := c.kind.isConcrete

def isHandwritten (c : Class) : Bool := c.kind.isHandwritten

/-- The effective property with a name. -/
def property? (c : Class) (name : String) : Option Property :=
  c.properties.find? fun p => p.name == name

end Class

namespace Table

/-- The type with a name. -/
def find? (t : Table) (name : String) : Option NamedType := t.types.find? fun s => s.name == name

def enumerations (t : Table) : List Enumeration := t.types.filterMap NamedType.enumeration?

def classes (t : Table) : List Class := t.types.filterMap NamedType.class?

def concreteClasses (t : Table) : List Class := t.classes.filter Class.isConcrete

/-- The interface of the class with a name, if the class has descendants. -/
def interface? (t : Table) (name : String) : Option Interface :=
  t.interfaces.find? fun i => i.name == name

/-- Whether the objects of a class carry the discriminator: they do when the class implements an
interface, its own or that of an ancestor. -/
def isDiscriminated (t : Table) (name : String) : Bool :=
  t.interfaces.any fun i => i.implementers.contains name

end Table
end WireModel
