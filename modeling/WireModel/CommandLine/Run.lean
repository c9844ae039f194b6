import WireModel.CommandLine.Arguments
import WireModel.CommandLine.Files
import WireModel.Compile
import WireModel.Terminal.View

/-!
# Runs of the program

A run takes the arguments, the environment and the files, and ends with an exit status, the text
that it printed, and the files as they are afterwards. `generate` writes the files of one target,
and nothing at all if there is any problem; `check` runs all targets, writes nothing and says `ok`
if none has a problem. The version and help are printed and nothing else is done.
-/

namespace WireModel.CommandLine

structure Outcome where
  exitStatus : Nat
  output : String
  errors : String
  files : FileTree
  deriving DecidableEq, Repr

def version : String := "0.1.0"

/-- A line of the log. -/
def logLine (message : String) : String := "[metacodec] " ++ message ++ "\n"

/-- What is logged of a failure: its details, then its view. -/
def failureText (env : Terminal.Environment) (f : Failure) : String :=
  let presenter : Terminal.Presenter :=
    { isDevelopment := !env.isProduction, colors := some true }
  let view := presenter.view env f
  String.join (view.details.map logLine) ++ view.render ++ "\n"

/-- A run that ends with a failure. -/
def failed (env : Terminal.Environment) (log : String) (tree : FileTree) (f : Failure) :
    Outcome :=
  ⟨f.exitStatus, "", log ++ failureText env f, tree⟩

/-- The options as JSON. -/
def optionsJson (o : Options) : Json :=
  .object
    [("jsonization", .object [("discriminatorKey", .text o.discriminatorKey)]),
      ("emit", .object [("indent", .text o.indent), ("banner", Json.texts o.banner)]),
      ("typescript", .object [("runtimeModule", .text o.runtimeModule),
        ("typesModule", .text o.typesModule)]),
      ("docs", .object (o.title.map fun t => ("title", Json.text t)).toList)]

/-- What `--verbose` says before the work begins. -/
def configurationLog (target : Target) (o : Options) : String :=
  logLine ("target: " ++ target.name)
    ++ logLine ("effective config: " ++ (optionsJson o).pretty "  ")

/-- The model and the snippets that flags name. -/
def readInputs (tree : FileTree) (f : Flags) (o : Options) :
    Except Failure (Table × Snippets) := do
  let base := tree.workingDirectory
  let value ← tree.readModel ⟨Path.resolve base (f.model.getD ""), false⟩
  let table ← compileOrFail value o
  let snippets ← match f.snippets with
    | some dir => tree.readSnippets ⟨Path.resolve base dir, false⟩
    | none => .ok []
  .ok (table, snippets)

/-- Writes files one after the other into a directory; what is in the way ends the run. -/
def writeFiles (dir : Path) (verbose : Bool) (log : String) (tree : FileTree) :
    List File → String × FileTree × Option Failure
  | [] => (log, tree, none)
  | file :: rest =>
    let path := dir ++ Path.components file.path
    match tree.obstacle? path with
    | some reason => (log, tree, some (.internal reason))
    | none =>
      let log := if verbose then log ++ logLine ("wrote " ++ Path.text path) else log
      writeFiles dir verbose log (tree.write path file.content) rest

/-- The options that flags ask for. -/
def Flags.options (f : Flags) : Except ConfigError Options := do
  Options.resolve (← f.settings)

/-- The target and the options that flags ask for. -/
def Flags.configuration (f : Flags) : Except ConfigError (Target × Options) := do
  let target ← resolveTarget f.target
  let o ← f.options
  .ok (target, o)

def runGenerate (env : Terminal.Environment) (tree : FileTree) (f : Flags) : Outcome :=
  match f.configuration with
  | .error e => failed env "" tree e.failure
  | .ok (target, o) =>
    let log := if f.verbose then configurationLog target o else ""
    match (do
      let (table, snippets) ← readInputs tree f o
      generateOrFail table target o snippets) with
    | .error e => failed env log tree e
    | .ok files =>
      let dir := Path.resolve tree.workingDirectory (f.output.getD "")
      match writeFiles dir f.verbose log tree files with
      | (log, tree, some e) => failed env log tree e
      | (log, tree, none) => ⟨0, "", log, tree⟩

def runCheck (env : Terminal.Environment) (tree : FileTree) (f : Flags) : Outcome :=
  match f.options with
  | .error e => failed env "" tree e.failure
  | .ok o =>
    match readInputs tree f o with
    | .error e => failed env "" tree e
    | .ok (table, snippets) =>
      match checkDiagnostics table o snippets with
      | .error fault => failed env "" tree (.internal fault.message)
      | .ok [] => ⟨0, "ok\n", "", tree⟩
      | .ok ds => failed env "" tree (.generation ds)

/-- A run of the program. -/
def run (env : Terminal.Environment) (tree : FileTree) (arguments : List String) : Outcome :=
  match Command.parse arguments with
  | .error e => ⟨1, "", e.message env.help, tree⟩
  | .ok .version => ⟨0, version ++ "\n", "", tree⟩
  | .ok (.help topic) => ⟨0, topic.text env.help, "", tree⟩
  | .ok (.generate f) => runGenerate env tree f
  | .ok (.check f) => runCheck env tree f

end WireModel.CommandLine
