import WireModel.Model.Problem
import WireModel.Name
import WireModel.Sequence

/-!
# Declared types

The types of a document that take part in its resolution. Two types clash if they have the same
capital form, for generated code could not tell them apart; the first one stays. In an
enumeration a literal clashes with an earlier one that has the same capital form or the same
value, and again the first one stays.
-/

namespace WireModel

/-- Capital names that the generated code needs for itself. -/
def reservedTypeNames : List String :=
  ["IClass", "AbstractTransformer", "Transformer", "Array", "Uint8Array"]

/-- Whether a literal stays in the enumeration `owner`, in view of the literals that stay. -/
def LiteralDecl.declare (owner : String) (kept : List LiteralDecl) (l : LiteralDecl) :
    Option LiteralDecl × List Problem :=
  if kept.any fun k => Name.capital k.name == Name.capital l.name then
    (none, [.repeatedLiteral owner l.name])
  else if kept.any fun k => k.value == l.value then
    (none, [.repeatedValue owner l.name l.value])
  else (some l, [])

namespace TypeDecl

/-- The declaration without the literals that clash, and the problems with those. -/
def declareBody : TypeDecl → TypeDecl × List Problem
  | .enumeration d =>
    let (literals, problems) := sift (LiteralDecl.declare d.name) [] d.literals
    (.enumeration { d with literals := literals }, problems)
  | d => (d, [])

/-- Whether a type stays, in view of the types that stay. A reserved name is a problem, but the
type stays. -/
def declare (kept : List TypeDecl) (d : TypeDecl) : Option TypeDecl × List Problem :=
  match kept.find? fun k => Name.capital k.name == Name.capital d.name with
  | some other =>
    (none, [if other.name = d.name then .repeatedType d.name else .clashingType d.name other.name])
  | none =>
    let reserved :=
      if reservedTypeNames.contains (Name.capital d.name) then [Problem.reservedType d.name]
      else []
    let (body, problems) := d.declareBody
    (some body, reserved ++ problems)

/-- The types that stay, and the problems with the declarations. -/
def declareAll (types : List TypeDecl) : List TypeDecl × List Problem := sift declare [] types

end TypeDecl
end WireModel
