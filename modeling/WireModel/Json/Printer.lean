import WireModel.Json.Basic
import WireModel.Number.Shortest
import WireModel.Text.Lines
import WireModel.Text.Quoted

/-!
# Printing JSON

`compact` prints a value without any space. `pretty` prints it over several lines: `rows` gives
the lines as pairs of a nesting depth and a text, and each depth is worth one copy of the gap,
which is the first ten characters of the requested indentation. An infinite number is printed as
`null`.
-/

namespace WireModel.Json

/-- The JSON text of a number. -/
def numberText (x : Binary64) : String :=
  if x.isFinite then x.text else "null"

def openBrace : String := "\x7b"

def closeBrace : String := "\x7d"

mutual

/-- The text of a value without any space. -/
def compact : Json → String
  | .null => "null"
  | .bool b => if b then "true" else "false"
  | .number x => numberText x
  | .text s => Text.quote s
  | .array items => "[" ++ compactItems items ++ "]"
  | .object members => openBrace ++ compactMembers members ++ closeBrace

/-- The items of an array, separated by commas. -/
def compactItems : List Json → String
  | [] => ""
  | [item] => compact item
  | item :: rest => compact item ++ "," ++ compactItems rest

/-- The members of an object, separated by commas. -/
def compactMembers : List (String × Json) → String
  | [] => ""
  | [(key, value)] => Text.quote key ++ ":" ++ compact value
  | (key, value) :: rest => Text.quote key ++ ":" ++ compact value ++ "," ++ compactMembers rest

end

/-- A line of printed JSON and its nesting depth. -/
structure Row where
  depth : Nat
  text : String
  deriving DecidableEq, Repr

mutual

/-- The lines of a value at a depth: `lead` stands before it and `trail` behind it. -/
def rows (depth : Nat) (lead trail : String) : Json → List Row
  | .null => [⟨depth, lead ++ "null" ++ trail⟩]
  | .bool b => [⟨depth, lead ++ (if b then "true" else "false") ++ trail⟩]
  | .number x => [⟨depth, lead ++ numberText x ++ trail⟩]
  | .text s => [⟨depth, lead ++ Text.quote s ++ trail⟩]
  | .array [] => [⟨depth, lead ++ "[]" ++ trail⟩]
  | .array items =>
    ⟨depth, lead ++ "["⟩ :: (itemRows (depth + 1) items ++ [⟨depth, "]" ++ trail⟩])
  | .object [] => [⟨depth, lead ++ openBrace ++ closeBrace ++ trail⟩]
  | .object members =>
    ⟨depth, lead ++ openBrace⟩ ::
      (memberRows (depth + 1) members ++ [⟨depth, closeBrace ++ trail⟩])

/-- The lines of the items of an array; a comma follows each but the last. -/
def itemRows (depth : Nat) : List Json → List Row
  | [] => []
  | [item] => rows depth "" "" item
  | item :: rest => rows depth "" "," item ++ itemRows depth rest

/-- The lines of the members of an object; a comma follows each but the last. -/
def memberRows (depth : Nat) : List (String × Json) → List Row
  | [] => []
  | [(key, value)] => rows depth (Text.quote key ++ ": ") "" value
  | (key, value) :: rest =>
    rows depth (Text.quote key ++ ": ") "," value ++ memberRows depth rest

end

/-- The indentation that is printed for each depth: at most ten characters. -/
def gapOf (indent : String) : String := String.ofList (indent.toList.take 10)

/-- The text of a value over several lines. -/
def pretty (indent : String) (value : Json) : String :=
  let gap := gapOf indent
  if gap.isEmpty then compact value
  else Text.unlines ((rows 0 "" "" value).map fun row => Text.times row.depth gap ++ row.text)

end WireModel.Json
