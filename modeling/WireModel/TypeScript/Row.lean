import WireModel.Text.Comment
import WireModel.Text.Quoted

/-!
# Rows of source text

Generated source text is a list of rows. A row has an indentation level and is made of pieces:
code, string literals and comments. Keeping the pieces apart keeps free text apart from code,
and keeping the level apart makes rows independent of the indentation that is asked for; `render`
is the only place where rows become text.
-/

namespace WireModel.TypeScript

inductive Piece where
  | code (text : String)
  /-- A string literal with this value. -/
  | literal (value : String)
  /-- A part of a comment. -/
  | comment (text : String)
  deriving DecidableEq, Repr

def Piece.text : Piece → String
  | .code s => s
  | .literal s => Text.literal s
  | .comment s => s

structure Row where
  level : Nat
  pieces : List Piece
  deriving DecidableEq, Repr

namespace Row

/-- The text of a row without its indentation. -/
def text (r : Row) : String := String.join (r.pieces.map Piece.text)

/-- A row with its indentation; an empty row has none. -/
def render (indent : String) (r : Row) : String := Text.indentLine indent r.level r.text

/-- An empty row. -/
def blank : Row := ⟨0, []⟩

/-- A row of code. -/
def code (level : Nat) (text : String) : Row := ⟨level, [.code text]⟩

/-- A row of a comment. -/
def comment (level : Nat) (text : String) : Row := ⟨level, [.comment text]⟩

@[simp] theorem text_code (level : Nat) (s : String) : (code level s).text = s := by
  simp [text, code, Piece.text]

@[simp] theorem text_comment (level : Nat) (s : String) : (comment level s).text = s := by
  simp [text, comment, Piece.text]

end Row

/-- Rows that belong together. -/
abbrev Block := List Row

/-- The rows of a documentation comment. -/
def docRows (level : Nat) (paragraphs : List String) : Block :=
  (Text.docComment paragraphs).map (Row.comment level)

/-- The rows of handwritten code. -/
def snippetRows (level : Nat) (text : String) : Block := (Text.lines text).map (Row.code level)

/-- Blocks with one blank row between them; blocks without rows are left out. -/
def joinBlocks (blocks : List Block) : Block :=
  [Row.blank].intercalate (blocks.filter fun b => !b.isEmpty)

/-- The text of a file with the given rows. -/
def renderFile (indent : String) (rows : Block) : String :=
  Text.unlines (rows.map (Row.render indent)) ++ "\n"

end WireModel.TypeScript
