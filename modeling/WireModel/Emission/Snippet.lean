import WireModel.Diagnostic
import WireModel.Text.Blank

/-!
# Snippets

The code of a handwritten class comes from snippets, texts under keys that are also their paths
below the snippets directory. A snippet that is asked for and not there is a diagnostic; white
space at the end of a snippet does not count.
-/

namespace WireModel

/-- Snippets by key. -/
abbrev Snippets := List (String × String)

namespace SnippetKey

/-- The body of the routine that parses the class. -/
def parse (className : String) : String := "jsonization/parse/" ++ className ++ ".ts"

/-- The body of the method that serializes the class. -/
def transform (className : String) : String := "jsonization/transform/" ++ className ++ ".ts"

/-- The whole declaration of the class. -/
def declaration (className : String) : String := "types/" ++ className ++ ".ts"

/-- The definition of the class in the JSON schema. -/
def schemaDefinition (className : String) : String :=
  "jsonschema/definition/" ++ className ++ ".json"

end SnippetKey

namespace Diagnostic

/-- A snippet is asked for and not there. -/
def missingSnippet (key subject : String) : Diagnostic :=
  ⟨.missingSnippet, subject, "The snippet \"" ++ key ++ "\" is missing"⟩

/-- A snippet should be JSON and is not. -/
def malformedSnippet (key subject : String) : Diagnostic :=
  ⟨.invalidSnippet, subject, "The snippet \"" ++ key ++ "\" is not valid JSON: malformed"⟩

/-- A snippet should be a JSON object and is another value. -/
def snippetNotObject (key subject : String) : Diagnostic :=
  ⟨.invalidSnippet, subject, "The snippet \"" ++ key ++ "\" must contain a JSON object"⟩

end Diagnostic

/-- The snippet with a key, asked for on behalf of `subject`. -/
def Snippets.require (snippets : Snippets) (key subject : String) : Except Diagnostic String :=
  match snippets.lookup key with
  | some text => .ok (Text.trimEnd text)
  | none => .error (.missingSnippet key subject)

end WireModel
