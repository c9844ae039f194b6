import WireModel.Emission.Target
import WireModel.Failure
import WireModel.Model.Load

/-!
# From documents to files

The steps of a run in one place: options are resolved, the model is compiled under them, and the
files of a target are generated from it.
-/

namespace WireModel

/-- The table of a model under options. -/
def compile (value : Json) (o : Options) : Except (List Diagnostic) Table :=
  Model.load o.discriminatorKey value

/-- The failure for the diagnostics of a model: it has a code of its own when the value is not a
document at all. -/
def modelFailure (ds : List Diagnostic) : Failure :=
  .model ds (if ds.all fun d => d.code == .modelSchemaViolation then .invalidModelStructure
    else .modelResolutionFailed)

/-- The table of a model under options, or the failure. -/
def compileOrFail (value : Json) (o : Options) : Except Failure Table :=
  (compile value o).mapError modelFailure

/-- The files of a target, or the diagnostics of either step. -/
def generateFrom (value : Json) (target : Target) (o : Options) (snippets : Snippets) :
    Except Fault Generation :=
  match compile value o with
  | .ok table => generate table target o snippets
  | .error ds => .ok (.error ds)

/-- The files of a target, or the failure. -/
def generateOrFail (table : Table) (target : Target) (o : Options) (snippets : Snippets) :
    Except Failure (List File) :=
  match generate table target o snippets with
  | .error fault => .error (.internal fault.message)
  | .ok (.error ds) => .error (.generation ds)
  | .ok (.ok files) => .ok files

/-- The diagnostics of all targets, each line once. -/
def checkDiagnostics (table : Table) (o : Options) (snippets : Snippets) :
    Except Fault (List Diagnostic) := do
  let results ← Target.all.mapM fun target => generate table target o snippets
  .ok (Diagnostic.distinct (results.flatMap fun
    | .error ds => ds
    | .ok _ => []))

end WireModel
