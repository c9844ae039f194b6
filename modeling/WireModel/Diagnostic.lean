import WireModel.Sequence

/-!
# Diagnostics

A diagnostic says what is wrong with an element of a model, or with the generation of code from
it. Loading and generating collect all their diagnostics, so that one run shows the whole list.
Two diagnostics are the same to a reader if they are the same line.
-/

namespace WireModel

/-- When a diagnostic arises: while a model is loaded, or while files are generated from it. -/
inductive Phase where
  | model
  | generate
  deriving DecidableEq, Repr

def Phase.name : Phase → String
  | .model => "model"
  | .generate => "generate"

/-- The kinds of problems. -/
inductive DiagnosticCode where
  | modelSchemaViolation
  | invalidIdentifier
  | duplicateName
  | unknownType
  | invalidFieldType
  | invalidParent
  | inheritanceCycle
  | constructorMismatch
  | noImplementers
  | unresolvedReference
  | jsonNameCollision
  | invalidDefault
  | missingSnippet
  | argumentTypeMismatch
  | invalidSnippet
  deriving DecidableEq, Repr

namespace DiagnosticCode

/-- The name under which a kind of problem is reported. -/
def name : DiagnosticCode → String
  | .modelSchemaViolation => "MODEL_SCHEMA_VIOLATION"
  | .invalidIdentifier => "INVALID_IDENTIFIER"
  | .duplicateName => "DUPLICATE_NAME"
  | .unknownType => "UNKNOWN_TYPE"
  | .invalidFieldType => "INVALID_TYPE_ANNOTATION"
  | .invalidParent => "INVALID_PARENT"
  | .inheritanceCycle => "INHERITANCE_CYCLE"
  | .constructorMismatch => "CONSTRUCTOR_MISMATCH"
  | .noImplementers => "NO_IMPLEMENTERS"
  | .unresolvedReference => "UNRESOLVED_REFERENCE"
  | .jsonNameCollision => "JSON_NAME_COLLISION"
  | .invalidDefault => "INVALID_DEFAULT"
  | .missingSnippet => "MISSING_SNIPPET"
  | .argumentTypeMismatch => "ARGUMENT_TYPE_MISMATCH"
  | .invalidSnippet => "INVALID_SNIPPET"

def all : List DiagnosticCode :=
  [.modelSchemaViolation, .invalidIdentifier, .duplicateName, .unknownType,
    .invalidFieldType, .invalidParent, .inheritanceCycle, .constructorMismatch,
    .noImplementers, .unresolvedReference, .jsonNameCollision, .invalidDefault,
    .missingSnippet, .argumentTypeMismatch, .invalidSnippet]

/-- The kind of problem with a name. -/
def ofName? (name : String) : Option DiagnosticCode := all.find? fun c => c.name == name

/-- The phase in which a kind of problem arises. -/
def phase : DiagnosticCode → Phase
  | .missingSnippet | .argumentTypeMismatch | .invalidSnippet => .generate
  | _ => .model

end DiagnosticCode

/-- A problem with the element `subject`. -/
structure Diagnostic where
  code : DiagnosticCode
  subject : String
  message : String
  deriving DecidableEq, Repr

namespace Diagnostic

def phase (d : Diagnostic) : Phase := d.code.phase

/-- The line that reports a diagnostic. -/
def line (d : Diagnostic) : String := d.code.name ++ " " ++ d.subject ++ ": " ++ d.message

/-- The diagnostics with each line reported once, at its first place. -/
def distinct (ds : List Diagnostic) : List Diagnostic := distinctBy line ds

end Diagnostic
end WireModel
