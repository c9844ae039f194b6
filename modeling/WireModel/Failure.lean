import WireModel.Diagnostic

/-!
# Failures

A run ends with a failure when the configuration, an input file, the model or the generation is
at fault, or the program itself. Each kind has stable codes, and each code an exit status.
-/

namespace WireModel

/-- Stable codes, by domain. -/
inductive ErrorCode where
  | invalidModelStructure
  | modelResolutionFailed
  | generationFailed
  | missingSnippet
  | configurationError
  | inputError
  | internalError
  deriving DecidableEq, Repr

namespace ErrorCode

def all : List ErrorCode :=
  [.invalidModelStructure, .modelResolutionFailed, .generationFailed, .missingSnippet,
    .configurationError, .inputError, .internalError]

def name : ErrorCode → String
  | .invalidModelStructure => "INVALID_MODEL_STRUCTURE"
  | .modelResolutionFailed => "MODEL_RESOLUTION_FAILED"
  | .generationFailed => "GENERATION_FAILED"
  | .missingSnippet => "MISSING_SNIPPET"
  | .configurationError => "CONFIGURATION_ERROR"
  | .inputError => "INPUT_ERROR"
  | .internalError => "INTERNAL_ERROR"

/-- The code as it is printed. -/
def text : ErrorCode → String
  | .invalidModelStructure => "E010"
  | .modelResolutionFailed => "E011"
  | .generationFailed => "E100"
  | .missingSnippet => "E101"
  | .configurationError => "E300"
  | .inputError => "E400"
  | .internalError => "E500"

/-- The code that is printed as a text. -/
def ofText? (s : String) : Option ErrorCode := all.find? fun c => c.text == s

/-- The exit status of a run that ends with a code. -/
def exitStatus : ErrorCode → Nat
  | .invalidModelStructure => 20
  | .modelResolutionFailed => 21
  | .generationFailed => 30
  | .missingSnippet => 31
  | .configurationError => 50
  | .inputError => 60
  | .internalError => 99

end ErrorCode

/-- What a failure is about, as far as it is known. -/
structure Context where
  file : Option String := none
  subject : Option String := none
  setting : Option String := none
  suggestion : Option String := none
  deriving DecidableEq, Repr

/-- What the second context knows, and otherwise what the first one does. -/
def Context.override (base more : Context) : Context :=
  { file := more.file.or base.file
    subject := more.subject.or base.subject
    setting := more.setting.or base.setting
    suggestion := more.suggestion.or base.suggestion }

inductive FailureKind where
  | model
  | generation
  | config
  | input
  | internal
  deriving DecidableEq, Repr

structure Failure where
  kind : FailureKind
  code : ErrorCode
  message : String
  context : Context
  diagnostics : List Diagnostic
  deriving DecidableEq, Repr

namespace Failure

/-- A headline with the number of problems, and one line for each. -/
def summarize (headline : String) (ds : List Diagnostic) : String :=
  "\n".intercalate
    ((headline ++ " (" ++ toString ds.length ++ " problem(s)):")
      :: ds.map fun d => "  - " ++ d.line)

/-- The model is malformed or does not resolve. -/
def model (ds : List Diagnostic) (code : ErrorCode := .modelResolutionFailed)
    (context : Context := {}) : Failure :=
  ⟨.model, code, summarize "The meta-model is invalid" ds, context, ds⟩

/-- Generation was refused. When nothing but snippets is missing, the failure has a code of its
own and suggests to add them. -/
def generation (ds : List Diagnostic) (context : Context := {}) : Failure :=
  let message := summarize "Code generation failed" ds
  if ds.all fun d => d.code == .missingSnippet then
    let hint : Context :=
      { suggestion := some "Add the missing files to the snippets directory" }
    ⟨.generation, .missingSnippet, message, hint.override context, ds⟩
  else ⟨.generation, .generationFailed, message, context, ds⟩

/-- A setting is not acceptable. -/
def config (message : String) (setting : Option String) (context : Context := {}) : Failure :=
  let about : Context := { setting := setting }
  ⟨.config, .configurationError, message, about.override context, []⟩

/-- An input file cannot be read or is not JSON. -/
def input (message : String) (file : Option String) : Failure :=
  ⟨.input, .inputError, message, { file := file }, []⟩

/-- The program itself is at fault. -/
def internal (message : String) : Failure := ⟨.internal, .internalError, message, {}, []⟩

def exitStatus (f : Failure) : Nat := f.code.exitStatus

end Failure
end WireModel
