import WireModel.Text.Case

/-!
# Terminal control sequences

The sequences that colour a headline, and a function that takes control sequences out of a text.
A sequence starts with U+001B or U+009B; then come any number of introducers, then parameters,
which are groups of at most four digits separated by semicolons, then one final character. A
digit can be a final character too, so a sequence whose parameters are not followed by a final
character ends at their last digit.
-/

namespace WireModel.Terminal

def escape : Char := Char.ofNat 0x1B

def controlIntroducer : Char := Char.ofNat 0x9B

/-- The sequence with a number that sets a style. -/
def style (n : String) : String := String.ofList [escape] ++ "[" ++ n ++ "m"

def reset : String := style "0"

def bold : String := style "1"

def red : String := style "31"

/-- A character that starts a control sequence. -/
def startsSequence (c : Char) : Bool := c == escape || c == controlIntroducer

/-- A character between the start and the parameters. -/
def isIntroducer (c : Char) : Bool :=
  c == '[' || c == ']' || c == '(' || c == ')' || c == '#' || c == ';' || c == '?'

/-- A character that ends a control sequence. -/
def isFinal (c : Char) : Bool :=
  Text.isDigit c || ('A' ≤ c && c ≤ 'P') || ('R' ≤ c && c ≤ 'T') || c == 'Z' || c == 'c'
    || ('f' ≤ c && c ≤ 'n') || c == 't' || c == 'q' || c == 'r' || c == 'y' || c == '='
    || c == '>' || c == '<' || c == '~'

/-- At most four digits at the start of a text. -/
def digitGroup (cs : List Char) : List Char := (cs.take 4).takeWhile Text.isDigit

/-- The parameters after the first group: a semicolon and a group of digits, any number of times. -/
def moreParameters : List Char → List Char
  | c :: cs =>
    if c = ';' then
      let group := digitGroup cs
      c :: group ++ moreParameters (cs.drop group.length)
    else []
  | [] => []
  termination_by cs => cs.length
  decreasing_by
    simp only [List.length_drop, List.length_cons]
    omega

/-- The parameters at the start of a text. -/
def parameters (cs : List Char) : List Char :=
  let group := digitGroup cs
  if group.isEmpty then [] else group ++ moreParameters (cs.drop group.length)

/-- The characters of parameters up to their last digit. -/
def upToLastDigit (given : List Char) : List Char :=
  (given.reverse.dropWhile (· == ';')).reverse

/-- The number of characters that belong to a control sequence, after its first one. -/
def sequenceLength? (cs : List Char) : Option Nat :=
  let lead := cs.takeWhile isIntroducer
  let body := cs.drop lead.length
  let given := parameters body
  match (body.drop given.length).head?.filter isFinal with
  | some _ => some (lead.length + given.length + 1)
  | none => if given.isEmpty then none else some (lead.length + (upToLastDigit given).length)

/-- The characters without control sequences, when `skip` more of them belong to one. -/
def strip : Nat → List Char → List Char
  | _, [] => []
  | skip + 1, _ :: rest => strip skip rest
  | 0, c :: rest =>
    if startsSequence c then
      match sequenceLength? rest with
      | some n => strip n rest
      | none => c :: strip 0 rest
    else c :: strip 0 rest

/-- The text without control sequences. -/
def plain (s : String) : String := String.ofList (strip 0 s.toList)

end WireModel.Terminal
