import WireModel.Diagnostic
import WireModel.Model.Table

/-!
# Constructor arguments fit their properties

The value of an argument is assigned to the property of the same name, so the two must have the
same type; or the argument is the optional version of it and has a default to fall back to.
-/

namespace WireModel

namespace Argument

/-- The argument is the optional version of a property type. -/
def isOptionalOf (a : Argument) (type : FieldType Atom) : Bool :=
  a.type.isOptional && a.type.required.agrees type

/-- The argument can be assigned to a property of a type. -/
def fits (a : Argument) (type : FieldType Atom) : Bool :=
  a.type.agrees type || (a.isOptionalOf type && a.default.isSome)

/-- The diagnostic for an argument that cannot be assigned to its property. -/
def mismatchDiagnostic (owner : String) (a : Argument) (type : FieldType Atom) : Diagnostic :=
  let hint :=
    if a.isOptionalOf type then
      " (an optional argument of a required property needs a default)"
    else ""
  ⟨.argumentTypeMismatch, owner ++ "(" ++ a.name ++ ")",
    "Argument type " ++ a.type.text ++ " does not match the property type " ++ type.text ++ hint⟩

end Argument

/-- The diagnostics for the constructor of a class. -/
def Class.constructorDiagnostics (c : Class) : List Diagnostic :=
  c.arguments.filterMap fun a =>
    match c.property? a.name with
    | some p => if a.fits p.type then none else some (a.mismatchDiagnostic c.name p.type)
    | none => none

/-- The diagnostics for the constructors of all classes, in the order of the model. -/
def Table.constructorDiagnostics (t : Table) : List Diagnostic :=
  t.classes.flatMap Class.constructorDiagnostics

end WireModel
