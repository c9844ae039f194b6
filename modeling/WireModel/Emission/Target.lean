import WireModel.Codec.Constructors
import WireModel.Options
import WireModel.Reference.Build
import WireModel.Reference.Html
import WireModel.Reference.Markdown
import WireModel.Schema.Definition
import WireModel.TypeScript.WriteRows

/-!
# Targets

What can be generated from a model: its types and codec in TypeScript, the JSON schema of its wire
format, and its reference in Markdown or HTML. Every target reports the constructors whose
arguments do not fit before its own problems.
-/

namespace WireModel

inductive Target where
  | typescript
  | jsonschema
  | markdown
  | html
  deriving DecidableEq, Repr

namespace Target

def all : List Target := [.typescript, .jsonschema, .markdown, .html]

def name : Target → String
  | .typescript => "typescript"
  | .jsonschema => "jsonschema"
  | .markdown => "markdown"
  | .html => "html"

def ofName? (name : String) : Option Target := all.find? fun t => t.name == name

/-- The files of a target, and what it reports itself. -/
def emit (target : Target) (plan : Codec.Plan) (o : Options) (snippets : Snippets) :
    List File × Log :=
  match target with
  | .typescript =>
    let (types, typesLog) := (TypeScript.TypesModule.of plan o.banner).emit snippets
    let (codec, codecLog) := (TypeScript.CodecModule.of plan o).emit snippets
    ([⟨"types.ts", TypeScript.renderFile o.indent types⟩,
      ⟨"jsonization.ts", TypeScript.renderFile o.indent codec⟩], typesLog ++ codecLog)
  | .jsonschema =>
    let (schema, log) := Schema.build plan o.discriminatorKey snippets
    ([⟨"schema.json", schema.pretty o.indent ++ "\n"⟩], log)
  | .markdown =>
    let tree := Reference.build plan o.discriminatorKey o.title
    ([⟨"reference.md", Reference.Markdown.render tree ++ "\n"⟩], [])
  | .html =>
    let tree := Reference.build plan o.discriminatorKey o.title
    ([⟨"reference.html", Reference.Html.render tree ++ "\n"⟩], [])

end Target

/-- Generates the files of a target from a planned model. -/
def Codec.Plan.generate (plan : Codec.Plan) (target : Target) (o : Options)
    (snippets : Snippets) : Generation :=
  let (files, log) := target.emit plan o snippets
  Log.finish (plan.table.constructorDiagnostics ++ log) files

/-- Generates the files of a target from a model. -/
def generate (t : Table) (target : Target) (o : Options) (snippets : Snippets) :
    Except Fault Generation :=
  (Codec.Plan.of t).map fun plan => plan.generate target o snippets

end WireModel
