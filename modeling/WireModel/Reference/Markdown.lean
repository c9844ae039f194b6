import WireModel.Reference.Tree
import WireModel.Text.Lines

/-!
# The reference in Markdown

Characters with a meaning in Markdown are escaped, a heading follows its anchor, and a table has
one line for each row.
-/

namespace WireModel.Reference.Markdown

/-- A character that has a meaning in running text. -/
def isSpecial (c : Char) : Bool :=
  c == '\\' || c.toNat == 96 || c == '*' || c == '_' || c == '[' || c == ']' || c == '<'
    || c == '>' || c == '|'

/-- Running text. -/
def escape (s : String) : String :=
  String.ofList (s.toList.flatMap fun c => if isSpecial c then ['\\', c] else [c])

/-- A code span. A backquote inside needs a longer fence and padding. -/
def codeSpan (s : String) : String :=
  if s.toList.any fun c => c.toNat == 96 then "`` " ++ s ++ " ``" else "`" ++ s ++ "`"

def anchorTag (anchor : String) : String := "<a id=\"" ++ anchor ++ "\"></a>"

def span : Span → String
  | .text s => escape s
  | .code s => codeSpan s
  | .link s anchor isCode =>
    "[" ++ (if isCode then codeSpan s else escape s) ++ "](#" ++ anchor ++ ")"
  | .target anchor => anchorTag anchor

def spans (content : Spans) : String := String.join (content.map span)

/-- The bars of a cell are escaped once more. -/
def escapeBars (s : String) : String :=
  String.ofList (s.toList.flatMap fun c => if c = '|' then ['\\', '|'] else [c])

/-- A cell of a table; an empty one has a dash. -/
def cell (content : Spans) : String :=
  if content.isEmpty then "—" else escapeBars (spans content)

/-- A row of a table. -/
def row (cells : List String) : String := "| " ++ " | ".intercalate cells ++ " |"

/-- The lines of a block. -/
def blockLines : Block → List String
  | .heading level text anchor => [anchorTag anchor, Text.times level "#" ++ " " ++ escape text]
  | .paragraph content => [spans content]
  | .list items => items.map fun item => "- " ++ spans item
  | .table header rows =>
    row header :: ("|" ++ String.join (header.map fun _ => "---|"))
      :: rows.map fun cells => row (cells.map cell)

/-- The reference; one blank line stands between two blocks. -/
def render (tree : Tree) : String :=
  Text.unlines ([""].intercalate (tree.blocks.map blockLines))

end WireModel.Reference.Markdown
