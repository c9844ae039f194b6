import WireModel.Model.Outline
import WireModel.Model.Table

/-!
# Descendants, interfaces and wire names

A class descends from each of its ancestors. A class with descendants gets an interface, named
after it, and every abstract class must have a concrete descendant. On the wire, no two
properties of a class may have the same name, and none may have that of the discriminator.
-/

namespace WireModel.Outline

variable (o : Outline)

/-- The ancestors of each class. -/
def ancestors : List (String × List String) := Hierarchy.ancestors o.order

/-- The classes of the document that have a given ancestor, in order. -/
def descendantsIn (ancestors : List (String × List String)) (name : String) : List String :=
  (o.classes.filter fun c => ((ancestors.lookup c.name).getD []).contains name).map (·.name)

/-- The descendants of a class. -/
def descendantsOf (name : String) : List String := o.descendantsIn o.ancestors name

/-- The concrete classes among a class and its descendants, in order. -/
def implementersOf (name : String) : List String :=
  let members := name :: o.descendantsOf name
  (o.classes.filter fun c => c.kind.isConcrete && members.contains c.name).map (·.name)

/-- The interfaces of the model. -/
def interfaces : List Interface :=
  (o.classes.filter fun c => !(o.descendantsOf c.name).isEmpty).map
    fun c => ⟨c.name, o.implementersOf c.name⟩

/-- The type whose capital name is that of the interface of a class. -/
def interfaceClash? (name : String) : Option String :=
  (o.types.find? fun d => Name.capital d.name == "I" ++ Name.capital name).map (·.name)

/-- The problems with the interface of a class, or with its lack of implementers. -/
def interfaceProblemsOf (c : ClassDecl) : List Problem :=
  (if !c.kind.isConcrete && (o.implementersOf c.name).isEmpty then [.noImplementers c.name]
    else [])
  ++ (if (o.descendantsOf c.name).isEmpty then []
    else
      match o.interfaceClash? c.name with
      | some clash => [.interfaceClash clash c.name]
      | none => [])

def interfaceProblems : List Problem := o.classes.flatMap o.interfaceProblemsOf

/-- A wire name of a property, in view of the properties whose wire names are taken: that of the
discriminator is reserved, and a name can be taken once. -/
def takeWireName (key owner : String) (taken : List Attribute) (a : Attribute) :
    Option Attribute × List Problem :=
  let wire := Name.camel a.name
  if wire = key then (none, [.discriminatorClash a.declaredBy a.name wire])
  else
    match taken.find? fun other => Name.camel other.name == wire with
    | some other => (none, [.wireNameClash owner a.name wire other.name])
    | none => (some a, [])

/-- The problems with the wire names of all properties, for a discriminator. -/
def wireNameProblems (key : String) : List Problem :=
  o.classes.flatMap fun c => (sift (takeWireName key c.name) [] (o.attributesOf c.name)).2

end WireModel.Outline
