import WireModel.Document.Conformance
import WireModel.Document.Decode
import WireModel.Model.Constructor
import WireModel.Model.Interfaces
import WireModel.Model.References

/-!
# Loading a model

From a JSON value to a symbol table. A value that is not a document is reported with all its
violations and nothing else. A document is resolved as a whole, so that no problem hides another;
it has a table exactly if it has no problem.
-/

namespace WireModel

/-- All problems of a document under a discriminator key, in order. -/
def Document.problems (key : String) (document : Document) : List Problem :=
  let (types, declared) := TypeDecl.declareAll document.types
  let o := Outline.ofTypes types
  declared ++ o.parentProblems ++ o.cycleProblems ++ o.propertyProblems ++ o.constructorProblems
    ++ o.interfaceProblems ++ o.wireNameProblems key ++ o.referenceProblems document

namespace Outline

variable (o : Outline)

def literalOf (l : LiteralDecl) : Literal := ⟨l.name, l.value, o.describe none l.description⟩

/-- The property that an attribute is, described within the class that declares it. -/
def propertyOf (a : Attribute) : Property :=
  ⟨a.name, a.type, a.declaredBy, o.describe (some a.declaredBy) a.prose⟩

/-- The class that a declaration becomes. -/
def classOf (c : ClassDecl) : Class :=
  let attributes := o.attributesOf c.name
  { name := c.name
    kind := c.kind
    parents := o.parentsOf c.name
    properties := attributes.map o.propertyOf
    arguments := (Argument.ofClass o.types c attributes).1
    descendants := o.descendantsOf c.name
    description := o.describe (some c.name) c.description }

/-- The type that a declaration becomes. -/
def typeOf : TypeDecl → NamedType
  | .enumeration d =>
    .enumeration ⟨d.name, d.literals.map o.literalOf, o.describe none d.description⟩
  | .constrained d => .constrained ⟨d.name, d.constrainee, o.describe none d.description⟩
  | .classType d => .classType (o.classOf d)

end Outline

/-- The symbol table of a document. -/
def Document.table (document : Document) : Table :=
  let o := Outline.ofTypes (TypeDecl.declareAll document.types).1
  { name := document.name
    version := document.version
    description := o.describe none document.description
    types := o.types.map o.typeOf
    interfaces := o.interfaces }

/-- The symbol table of a document, or its problems. -/
def Document.resolve (key : String) (document : Document) : Except (List Diagnostic) Table :=
  let problems := document.problems key
  if problems.isEmpty then .ok document.table
  else .error (Diagnostic.distinct (problems.map Problem.diagnostic))

/-- Loads a model under a discriminator key. -/
def Model.load (key : String) (value : Json) : Except (List Diagnostic) Table :=
  let violations := Document.violations value
  if violations.isEmpty then
    match Document.decode? value with
    | some document => document.resolve key
    | none => .error []
  else .error (Diagnostic.distinct (violations.map Violation.diagnostic))

end WireModel
