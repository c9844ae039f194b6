/-!
# Lines and blocks

Emitted text is put together from lines, separated by a line feed, and from blocks, separated
by one blank line.
-/

namespace WireModel.Text

/-- The lines of a text; a text without a line feed is one line. -/
def lines (s : String) : List String :=
  (s.toList.splitOn '\n').map String.ofList

/-- The text with the given lines. -/
def unlines (ls : List String) : String := "\n".intercalate ls

/-- `n` copies of a text in a row. -/
def times (n : Nat) (s : String) : String := String.join (List.replicate n s)

/-- A line behind `levels` copies of `unit`; an empty line stays empty. -/
def indentLine (unit : String) (levels : Nat) (line : String) : String :=
  if line.isEmpty then line else times levels unit ++ line

/-- Every line of a text that is not empty, behind `levels` copies of `unit`. -/
def indent (unit : String) (levels : Nat) (s : String) : String :=
  unlines ((lines s).map (indentLine unit levels))

/-- Blocks with one blank line between them; empty blocks are left out. -/
def blocks (parts : List String) : String :=
  "\n\n".intercalate (parts.filter fun p => !p.isEmpty)

end WireModel.Text
