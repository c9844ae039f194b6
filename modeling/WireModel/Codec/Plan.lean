import WireModel.Codec.Strategy

/-!
# The codec plan

Everything that generation needs to know about a model beyond its table: the wire name and the
strategy of every field, and the lower camel form of every type name, from which the names of
routines are made. Making the plan is the only step of generation that can meet a fault; all
targets are then functions of the plan.
-/

namespace WireModel.Codec

/-- A property, its name on the wire and its strategy. -/
structure Member where
  property : Property
  wire : String
  strategy : Strategy
  deriving DecidableEq, Repr

/-- A constructor argument, its name on the wire and its strategy. -/
structure Parameter where
  argument : Argument
  wire : String
  strategy : Strategy
  deriving DecidableEq, Repr

/-- A type name and its lower camel form. -/
structure Stem where
  name : String
  camel : String
  deriving DecidableEq, Repr

structure EnumerationPlan where
  type : Enumeration
  stem : Stem
  deriving DecidableEq, Repr

/-- The interface of a class and the classes that implement it. -/
structure InterfacePlan where
  name : String
  implementers : List Stem
  deriving DecidableEq, Repr

structure ClassPlan where
  type : Class
  stem : Stem
  interface : Option InterfacePlan
  isDiscriminated : Bool
  members : List Member
  parameters : List Parameter
  deriving DecidableEq, Repr

inductive TypePlan where
  | enumeration (plan : EnumerationPlan)
  | constrained (type : Constrained)
  | classType (plan : ClassPlan)
  deriving DecidableEq, Repr

structure Plan where
  table : Table
  types : List TypePlan
  deriving DecidableEq, Repr

/-- The lower camel form of a name. -/
def camelOf (name : String) : Except Fault String := (Name.camel? name).mapError .noWords

def Stem.of (name : String) : Except Fault Stem := (camelOf name).map (Stem.mk name)

def Member.of (t : Table) (p : Property) : Except Fault Member := do
  let wire ← camelOf p.name
  let strategy ← t.strategy p.type
  .ok ⟨p, wire, strategy⟩

def Parameter.of (t : Table) (a : Argument) : Except Fault Parameter := do
  let wire ← camelOf a.name
  let strategy ← t.strategy a.type
  .ok ⟨a, wire, strategy⟩

def InterfacePlan.of (i : Interface) : Except Fault InterfacePlan := do
  let implementers ← i.implementers.mapM Stem.of
  .ok ⟨i.name, implementers⟩

/-- The plan of the interface of a class, if it has one. -/
def InterfacePlan.ofClass (t : Table) (c : Class) : Except Fault (Option InterfacePlan) :=
  match t.interface? c.name with
  | some i => (InterfacePlan.of i).map some
  | none => .ok none

def ClassPlan.of (t : Table) (c : Class) : Except Fault ClassPlan := do
  let stem ← Stem.of c.name
  let interface ← InterfacePlan.ofClass t c
  let members ← c.properties.mapM (Member.of t)
  let parameters ← c.arguments.mapM (Parameter.of t)
  .ok ⟨c, stem, interface, t.isDiscriminated c.name, members, parameters⟩

def TypePlan.of (t : Table) : NamedType → Except Fault TypePlan
  | .enumeration e => (Stem.of e.name).map fun stem => .enumeration ⟨e, stem⟩
  | .constrained c => .ok (.constrained c)
  | .classType c => (ClassPlan.of t c).map .classType

/-- The plan of a model. -/
def Plan.of (t : Table) : Except Fault Plan :=
  (t.types.mapM (TypePlan.of t)).map (Plan.mk t)

namespace TypePlan

def enumeration? : TypePlan → Option EnumerationPlan
  | .enumeration plan => some plan
  | _ => none

def class? : TypePlan → Option ClassPlan
  | .classType plan => some plan
  | _ => none

end TypePlan

namespace ClassPlan

def name (c : ClassPlan) : String := c.type.name

/-- The member for the property with a name. -/
def member? (c : ClassPlan) (name : String) : Option Member :=
  c.members.find? fun m => m.property.name == name

end ClassPlan

namespace Plan

def enumerations (p : Plan) : List EnumerationPlan := p.types.filterMap TypePlan.enumeration?

def classes (p : Plan) : List ClassPlan := p.types.filterMap TypePlan.class?

def concreteClasses (p : Plan) : List ClassPlan := p.classes.filter fun c => c.type.isConcrete

end Plan
end WireModel.Codec
