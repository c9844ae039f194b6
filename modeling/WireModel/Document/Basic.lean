import WireModel.FieldType.Basic
import WireModel.Number.Binary64

/-!
# Documents

A document declares the types of a model: enumerations, constrained primitives and classes. It is
what has been read and found well formed; nothing in it has been resolved. Types of fields are
texts, parents are names, and nothing says that those names are declared.
-/

namespace WireModel

/-- A literal of an enumeration and its value on the wire. -/
structure LiteralDecl where
  name : String
  value : String
  description : Option String
  deriving DecidableEq, Repr

structure EnumerationDecl where
  name : String
  description : Option String
  literals : List LiteralDecl
  deriving DecidableEq, Repr

structure ConstrainedDecl where
  name : String
  description : Option String
  constrainee : Primitive
  deriving DecidableEq, Repr

structure PropertyDecl where
  name : String
  type : String
  description : Option String
  deriving DecidableEq, Repr

/-- The default of an argument as a document writes it. -/
inductive Constant where
  | null
  | bool (value : Bool)
  | number (value : Binary64)
  | text (value : String)
  deriving DecidableEq, Repr

structure ArgumentDecl where
  name : String
  type : String
  default : Option Constant
  deriving DecidableEq, Repr

/-- A class is abstract, or it is concrete, and then its code may be written by hand. -/
inductive ClassKind where
  | abstract
  | concrete (handwritten : Bool)
  deriving DecidableEq, Repr

namespace ClassKind

def isConcrete : ClassKind → Bool
  | .abstract => false
  | .concrete _ => true

def isHandwritten : ClassKind → Bool
  | .abstract => false
  | .concrete handwritten => handwritten

end ClassKind

/-- A class: the names of its parents, its own properties, and the arguments of its constructor
if they are given. -/
structure ClassDecl where
  name : String
  kind : ClassKind
  description : Option String
  parents : List String
  properties : List PropertyDecl
  arguments : Option (List ArgumentDecl)
  deriving DecidableEq, Repr

inductive TypeDecl where
  | enumeration (decl : EnumerationDecl)
  | constrained (decl : ConstrainedDecl)
  | classType (decl : ClassDecl)
  deriving DecidableEq, Repr

namespace TypeDecl

def name : TypeDecl → String
  | .enumeration d => d.name
  | .constrained d => d.name
  | .classType d => d.name

def class? : TypeDecl → Option ClassDecl
  | .classType d => some d
  | _ => none

end TypeDecl

structure Document where
  name : String
  version : Option String
  description : Option String
  types : List TypeDecl
  deriving DecidableEq, Repr

end WireModel
