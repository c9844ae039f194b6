import WireModel.Failure
import WireModel.Number.Binary64
import WireModel.Terminal.Style
import WireModel.Text.Blank
import WireModel.Text.Lines
import WireModel.Text.Units

/-!
# Failures on a terminal

A failure is shown with a headline, which may be coloured, the place that it is about, and what
may be done about it. The place and the advice are wrapped at the width of the terminal: each line
takes as many words as fit, and a word that does not fit at all has a line of its own.
-/

namespace WireModel.Terminal

/-- What is shown of a failure. -/
structure View where
  title : String
  code : ErrorCode
  exitStatus : Nat
  location : Option String
  /-- One line for each diagnostic. -/
  details : List String
  workaround : Option String
  colors : Bool
  /-- The width of the terminal in code units. -/
  width : Binary64
  deriving DecidableEq, Repr

/-- The width of a terminal that does not tell it. -/
def standardWidth : Binary64 := .ofInt 80

/-! ## Wrapping -/

/-- The lines of words, after the line `current` that has been begun. -/
def wrapFrom (width : Binary64) (current : String) : List String → List String
  | [] => if current.isEmpty then [] else [current]
  | word :: rest =>
    let candidate := if current.isEmpty then word else current ++ " " ++ word
    if width.isBelow (Text.width candidate) && !current.isEmpty then
      current :: wrapFrom width word rest
    else wrapFrom width candidate rest

/-- The lines of a text at a width. -/
def wrap (width : Binary64) (s : String) : List String := wrapFrom width "" (Text.words s)

/-- A paragraph with a lead, if there is one. -/
def paragraph (width : Binary64) (lead : String) : Option String → List String
  | some s => if s.isEmpty then [] else wrap width (lead ++ s)
  | none => []

/-- The text of a view. Its details are shown by other means. -/
def View.render (v : View) : String :=
  let width := if v.width.isPositive then v.width else standardWidth
  let title := "❌ " ++ v.title
  Text.unlines
    ((if v.colors then red ++ bold ++ title ++ reset else title)
      :: (paragraph width "📍 " v.location ++ paragraph width "💡 Workaround: " v.workaround))

/-! ## From failures to views -/

/-- The texts of help for the program and for its commands. The parser of command lines makes them
from the descriptions of flags and fits them to the terminal. -/
structure Help where
  program : String := ""
  generate : String := ""
  check : String := ""
  deriving DecidableEq, Repr

/-- The environment of a run: what the view depends on, and the texts of help. -/
structure Environment where
  noColor : Option String := none
  forceColor : Option String := none
  isProduction : Bool := false
  columns : Option Binary64 := none
  help : Help := {}
  deriving DecidableEq, Repr

/-- How failures are presented: with colours and a width that may be fixed. -/
structure Presenter where
  isDevelopment : Bool
  colors : Option Bool := none
  width : Option Binary64 := none
  deriving DecidableEq, Repr

/-- A variable that is set to something other than nothing, `0` or `false`. -/
def isSet : Option String → Bool
  | some s => s ≠ "" && s ≠ "0" && s ≠ "false"
  | none => false

namespace Presenter

def useColors (p : Presenter) (env : Environment) : Bool :=
  if isSet env.noColor then false
  else if isSet env.forceColor then true
  else p.colors.getD p.isDevelopment

/-- The place that a context is about: a file, a setting or an element of the model. -/
def location? (context : Context) : Option String :=
  match (context.file.or context.setting).or context.subject with
  | some place => if place.isEmpty then none else some ("Location: " ++ place)
  | none => none

/-- The view of a failure. The diagnostics are listed apart, so only the first line of the
message is in the title. -/
def view (p : Presenter) (env : Environment) (f : Failure) : View :=
  { title := "Error " ++ f.code.text ++ ": " ++ (Text.lines f.message).headD f.message
    code := f.code
    exitStatus := f.exitStatus
    location := location? f.context
    details := f.diagnostics.map Diagnostic.line
    workaround := f.context.suggestion
    colors := p.useColors env
    width := (p.width.or env.columns).getD standardWidth }

end Presenter
end WireModel.Terminal
