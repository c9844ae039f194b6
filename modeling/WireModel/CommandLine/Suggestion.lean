import WireModel.Text.Distance

/-!
# Suggestions

A word that is not known may be a slip for one that is. What is suggested are the known words at
the least distance, as long as it takes at most three edits and more than two fifths of the longer
word stays. Words of one character are never suggested.
-/

namespace WireModel.CommandLine

/-- The greatest number of edits in a slip. -/
def maxEdits : Nat := 3

/-- A known word that a word may be a slip for. -/
def isClose (word known : String) : Bool :=
  let edits := Text.distance word known
  let size := max (Text.width word) (Text.width known)
  1 < Text.width known && edits ≤ maxEdits && 2 * size < 5 * (size - edits)

/-- The known words that a word is most likely a slip for, in order. -/
def similarTo (word : String) (known : List String) : List String :=
  let close := known.filter (isClose word)
  let least := close.foldl (fun n k => min n (Text.distance word k)) maxEdits
  (close.filter fun k => Text.distance word k == least).mergeSort Text.le

/-- The line that suggests words; nothing if there are none. -/
def suggestionText : List String → String
  | [] => ""
  | [word] => "\n(Did you mean " ++ word ++ "?)"
  | words => "\n(Did you mean one of " ++ ", ".intercalate words ++ "?)"

/-- The text without the two dashes of a long form. -/
def longName? (argument : String) : Option String :=
  match argument.toList with
  | '-' :: '-' :: name => some (String.ofList name)
  | _ => none

/-- What is suggested instead of a word. If it has the two dashes of a long form, it is compared
without them, every known word is compared without its first two characters, and the dashes come
back in front of what is suggested. -/
def suggestion (word : String) (known : List String) : String :=
  match longName? word with
  | some name =>
    let names := known.map fun k => String.ofList (k.toList.drop 2)
    suggestionText ((similarTo name names).map ("--" ++ ·))
  | none => suggestionText (similarTo word known)

/-- What is suggested instead of a flag: only a long form has suggestions. -/
def flagSuggestion (argument : String) (known : List String) : String :=
  if (longName? argument).isSome then suggestion argument known else ""

end WireModel.CommandLine
