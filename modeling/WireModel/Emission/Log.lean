import WireModel.Emission.Snippet

/-!
# Collecting diagnostics

Generation goes on after a problem and collects the diagnostics. Files are given out only when
there are none.
-/

namespace WireModel

/-- A generated file; the path is relative to the output directory. -/
structure File where
  path : String
  content : String
  deriving DecidableEq, Repr

/-- Files, or the diagnostics that kept them from being generated. -/
abbrev Generation := Except (List Diagnostic) (List File)

/-- The diagnostics so far, in order. -/
abbrev Log := List Diagnostic

namespace Log

def report (log : Log) (d : Diagnostic) : Log := log ++ [d]

/-- Asks for a snippet; one that is missing is reported. -/
def snippet (log : Log) (snippets : Snippets) (key subject : String) : Option String × Log :=
  match snippets.require key subject with
  | .ok text => (some text, log)
  | .error d => (none, report log d)

/-- The files, unless something was reported. -/
def finish (log : Log) (files : List File) : Generation :=
  if log.isEmpty then .ok files else .error log

end Log
end WireModel
