import WireModel.Name
import WireModel.Number.Shortest

/-!
# Error paths

A failure to parse a JSON node knows its cause and where it happened. The path is empty where the
failure arises and grows at its front, by one segment for each property or list that encloses the
place, while the failure is handed outwards.
-/

namespace WireModel.Wire

inductive Segment where
  | name (name : String)
  | index (index : Binary64)
  deriving DecidableEq, Repr

/-- Segments from the root of the document to the value that failed, and why it failed. -/
structure ErrorPath where
  segments : List Segment
  cause : String
  deriving DecidableEq, Repr

/-- A plain name follows a point; any other name is quoted in brackets. -/
def Segment.text : Segment → String
  | .name s => if Name.isPlain s then "." ++ s else "[" ++ Text.quote s ++ "]"
  | .index i => "[" ++ i.text ++ "]"

namespace ErrorPath

/-- A failure at the place where it arises. -/
def new (cause : String) : ErrorPath := ⟨[], cause⟩

/-- The failure as seen from the value that encloses it. -/
def prepend (e : ErrorPath) (segment : Segment) : ErrorPath := ⟨segment :: e.segments, e.cause⟩

/-- The path as text, from the root `$`. -/
def pathText (e : ErrorPath) : String := "$" ++ String.join (e.segments.map Segment.text)

/-- What is said to a caller who asked for a value. -/
def message (e : ErrorPath) : String := e.cause ++ " at: " ++ e.pathText

end ErrorPath
end WireModel.Wire
