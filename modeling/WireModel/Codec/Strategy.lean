import WireModel.Model.Table
import WireModel.Name

/-!
# Strategies

How a field travels over the wire depends on what its type stands for: a primitive, an
enumeration, an object of one class, or an object of any implementer of an interface. The
*carrier* of an item says which, and a strategy is the type of a field with its carrier in place
of its name.

A class with an interface is carried by it. An abstract class has no objects of its own, so one
without an interface cannot be carried at all; that is a fault of the model, as is a name without
words.
-/

namespace WireModel

/-- A model that cannot be generated from. No accepted document leads to one. -/
inductive Fault where
  | abstractWithoutInterface (name : String)
  | unknownType (name : String)
  | noWords (error : Name.NoWords)
  deriving DecidableEq, Repr

def Fault.message : Fault → String
  | .abstractWithoutInterface name => "Abstract class without an interface: " ++ name
  | .unknownType name => "Unexpected named type: " ++ Text.quote name
  | .noWords error => error.message

/-- What carries an item over the wire. -/
inductive Carrier where
  | primitive (kind : Primitive)
  | enumeration (name : String)
  /-- Any implementer of the interface of the class. -/
  | choice (name : String)
  /-- The class itself. -/
  | object (name : String)
  deriving DecidableEq, Repr

/-- The name of the model type behind a carrier. -/
def Carrier.typeName : Carrier → String
  | .primitive kind => kind.name
  | .enumeration name | .choice name | .object name => name

abbrev Strategy := FieldType Carrier

namespace Table

/-- What carries an object of a class. -/
def classCarrier (t : Table) (c : Class) : Except Fault Carrier :=
  match t.interface? c.name with
  | some i => .ok (.choice i.name)
  | none =>
    if c.isConcrete then .ok (.object c.name) else .error (.abstractWithoutInterface c.name)

/-- What carries an item. -/
def carrier (t : Table) : Atom → Except Fault Carrier
  | .primitive kind => .ok (.primitive kind)
  | .named name =>
    match t.find? name with
    | some (.enumeration e) => .ok (.enumeration e.name)
    | some (.constrained c) => .ok (.primitive c.constrainee)
    | some (.classType c) => t.classCarrier c
    | none => .error (.unknownType name)

/-- The strategy of a field. -/
def strategy (t : Table) (type : FieldType Atom) : Except Fault Strategy :=
  (t.carrier type.item).map type.withItem

end Table
end WireModel
