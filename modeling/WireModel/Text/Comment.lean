import WireModel.Text.Lines

/-!
# Block comments

A documentation comment is made from paragraphs. The end of a comment inside a paragraph is
broken up by a backslash, so the comment ends at its own last line only.
-/

namespace WireModel.Text

/-- Breaks up every end of a comment. -/
def breakCommentEnds : List Char → List Char
  | '*' :: '/' :: rest => '*' :: '\\' :: '/' :: breakCommentEnds rest
  | c :: rest => c :: breakCommentEnds rest
  | [] => []

/-- The lines of a paragraph inside a comment. -/
def commentLines (paragraph : String) : List String :=
  lines (String.ofList (breakCommentEnds paragraph.toList))

/-- A line behind the star of a comment. -/
def starLine (line : String) : String := if line.isEmpty then " *" else " * " ++ line

/-- The lines of a documentation comment; none if there are no paragraphs. -/
def docComment (paragraphs : List String) : List String :=
  if paragraphs.isEmpty then []
  else "/**" :: (([""].intercalate (paragraphs.map commentLines)).map starLine ++ [" */"])

/-- The lines of the comment that holds a banner. -/
def bannerComment (banner : List String) : List String :=
  if banner.isEmpty then [] else docComment [unlines banner]

end WireModel.Text
