import WireModel.FieldType.Parser
import WireModel.Description
import WireModel.Diagnostic
import WireModel.Document.Basic
import WireModel.Json.Printer

/-!
# Problems of a model

Everything that can be wrong with a document of the right form, by cause. The wording of each
cause stands here and nowhere else.
-/

namespace WireModel

/-- The JSON text of a constant. -/
def Constant.json : Constant → String
  | .null => "null"
  | .bool b => if b then "true" else "false"
  | .number x => Json.numberText x
  | .text s => Text.quote s

/-- The element that a problem is about. -/
inductive Subject where
  | type (name : String)
  /-- A literal of an enumeration or a property of a class. -/
  | member (owner name : String)
  | argument (owner name : String)
  deriving DecidableEq, Repr

def Subject.text : Subject → String
  | .type name => name
  | .member owner name => owner ++ "." ++ name
  | .argument owner name => owner ++ "(" ++ name ++ ")"

inductive Problem where
  | repeatedType (name : String)
  | clashingType (name other : String)
  | reservedType (name : String)
  | repeatedLiteral (owner name : String)
  | repeatedValue (owner name value : String)
  | unknownParent (child parent : String)
  | parentNotClass (child parent : String)
  | repeatedParent (child parent : String)
  /-- The parents from the first class of the path lead back to it. -/
  | cycle (first : String) (path : List String)
  | inheritedTwice (owner property first second : String)
  | repeatedProperty (owner property : String)
  | alreadyDefined (owner property ancestor : String)
  | reservedProperty (owner property : String)
  | malformedType (subject : Subject) (text : String) (error : FieldTypeError)
  | unknownType (subject : Subject) (name : String)
  | repeatedArgument (owner name : String)
  | constructorMismatch (owner : String) (missing unexpected : List String)
  | nullDefault (subject : Subject)
  | listDefault (subject : Subject)
  | notLiteral (subject : Subject) (value : Constant) (enumeration : String)
  | unfitDefault (subject : Subject) (value : Constant)
  | noImplementers (name : String)
  | interfaceClash (name base : String)
  | discriminatorClash (owner property wire : String)
  | wireNameClash (owner property wire other : String)
  | unresolvedReference (subject : Subject) (reference : Mention)
  deriving DecidableEq, Repr

namespace Problem

/-- What a constructor lacks, and what it has too much. -/
def mismatchText (missing unexpected : List String) : String :=
  "; ".intercalate
    ((if missing.isEmpty then [] else ["missing " ++ ", ".intercalate missing])
      ++ (if unexpected.isEmpty then [] else ["unexpected " ++ ", ".intercalate unexpected]))

/-- The diagnostic that reports a problem. -/
def diagnostic : Problem → Diagnostic
  | .repeatedType name =>
    ⟨.duplicateName, name, "Type \"" ++ name ++ "\" is defined more than once"⟩
  | .clashingType name other =>
    ⟨.duplicateName, name, "Type \"" ++ name ++ "\" clashes with \"" ++ other
      ++ "\" (both are named " ++ Name.capital name ++ ")"⟩
  | .reservedType name =>
    ⟨.invalidIdentifier, name,
      "\"" ++ Name.capital name ++ "\" is reserved for the generated code"⟩
  | .repeatedLiteral owner name =>
    ⟨.duplicateName, (Subject.member owner name).text, "Literal is defined more than once"⟩
  | .repeatedValue owner name value =>
    ⟨.duplicateName, (Subject.member owner name).text,
      "Literal value " ++ Text.quote value ++ " is used more than once"⟩
  | .unknownParent child parent =>
    ⟨.invalidParent, child, "Unknown parent \"" ++ parent ++ "\""⟩
  | .parentNotClass child parent =>
    ⟨.invalidParent, child, "Parent \"" ++ parent ++ "\" is not a class"⟩
  | .repeatedParent child parent =>
    ⟨.invalidParent, child, "Parent \"" ++ parent ++ "\" is listed more than once"⟩
  | .cycle first path =>
    ⟨.inheritanceCycle, first, "Inheritance cycle: " ++ " -> ".intercalate (first :: path)⟩
  | .inheritedTwice owner property first second =>
    ⟨.duplicateName, (Subject.member owner property).text,
      "Property is inherited from both \"" ++ first ++ "\" and \"" ++ second ++ "\""⟩
  | .repeatedProperty owner property =>
    ⟨.duplicateName, (Subject.member owner property).text, "Property is defined more than once"⟩
  | .alreadyDefined owner property ancestor =>
    ⟨.duplicateName, (Subject.member owner property).text,
      "Property is already defined in \"" ++ ancestor ++ "\""⟩
  | .reservedProperty owner property =>
    ⟨.invalidIdentifier, (Subject.member owner property).text,
      "\"" ++ property ++ "\" is reserved for the generated code"⟩
  | .malformedType subject text error =>
    ⟨.invalidFieldType, subject.text,
      "Invalid type annotation \"" ++ text ++ "\": " ++ error.message⟩
  | .unknownType subject name =>
    ⟨.unknownType, subject.text, "Unknown type \"" ++ name ++ "\""⟩
  | .repeatedArgument owner name =>
    ⟨.duplicateName, (Subject.argument owner name).text, "Argument is defined more than once"⟩
  | .constructorMismatch owner missing unexpected =>
    ⟨.constructorMismatch, owner,
      "Constructor arguments do not match the properties: " ++ mismatchText missing unexpected⟩
  | .nullDefault subject =>
    ⟨.invalidDefault, subject.text, "Only optional arguments can default to null"⟩
  | .listDefault subject =>
    ⟨.invalidDefault, subject.text, "List arguments can not have a default"⟩
  | .notLiteral subject value enumeration =>
    ⟨.invalidDefault, subject.text,
      value.json ++ " is not a literal of \"" ++ enumeration ++ "\""⟩
  | .unfitDefault subject value =>
    ⟨.invalidDefault, subject.text,
      "Default " ++ value.json ++ " does not fit the argument type"⟩
  | .noImplementers name =>
    ⟨.noImplementers, name, "Abstract class \"" ++ name ++ "\" has no concrete descendants"⟩
  | .interfaceClash name base =>
    ⟨.duplicateName, name,
      "Type \"" ++ name ++ "\" clashes with the interface of \"" ++ base ++ "\""⟩
  | .discriminatorClash owner property wire =>
    ⟨.jsonNameCollision, (Subject.member owner property).text,
      "JSON name \"" ++ wire ++ "\" is reserved for the discriminator"⟩
  | .wireNameClash owner property wire other =>
    ⟨.jsonNameCollision, (Subject.member owner property).text,
      "JSON name \"" ++ wire ++ "\" is also used by \"" ++ other ++ "\""⟩
  | .unresolvedReference subject reference =>
    ⟨.unresolvedReference, subject.text, "Unresolved reference " ++ reference.text⟩

end Problem
end WireModel
