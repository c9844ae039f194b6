import WireModel.FieldType.Basic
import WireModel.Name

/-!
# Reading types

The text of a type is a *term*: a name, or a name applied to a term in brackets, with any
number of spaces around the tokens. A term is therefore a non-empty list of names, outermost
first, and reading it takes two steps: all the names with the brackets that open after them, then
the brackets that close. `FieldType.ofTerm` accepts the terms that are types.

Positions in error messages count from the start of the text. Everything before the place of an
error is ASCII, so characters and code units agree.
-/

namespace WireModel

/-- A name, or names applied to each other: `[a, b, c]` stands for `a[b[c]]`. -/
structure Term where
  head : String
  arguments : List String
  deriving DecidableEq, Repr

/-- Names applied to each other, in the syntax of a model. -/
def Term.textOf (head : String) : List String → String
  | [] => head
  | next :: rest => head ++ "[" ++ Term.textOf next rest ++ "]"

/-- Why a text is not the type of a field. -/
inductive FieldTypeError where
  | unexpectedEnd
  | expectedName (position : Nat)
  | expectedClose (position : Nat)
  | unexpected (rest : String)
  | tooDeep (head : String) (arguments : List String)
  | missingArgument (head : String)
  deriving DecidableEq, Repr

def FieldTypeError.message : FieldTypeError → String
  | .unexpectedEnd => "unexpected end of annotation"
  | .expectedName position => "expected a type name at position " ++ toString position
  | .expectedClose position => "expected \"]\" at position " ++ toString position
  | .unexpected rest => "unexpected " ++ Text.quote rest
  | .tooDeep head arguments => Term.textOf head arguments ++ " is nested deeper than supported"
  | .missingArgument head => head ++ " requires a type argument"

namespace Term

/-- The text without the spaces in front. -/
def skipSpaces (cs : List Char) : List Char := cs.dropWhile (· == ' ')

theorem length_skipSpaces_le (cs : List Char) : (skipSpaces cs).length ≤ cs.length :=
  (List.dropWhile_sublist _).length_le

-- `h` and the equation of the inner match are read by `decreasing_by` only, which the
-- unused-variable linter does not see.
set_option linter.unusedVariables false in
/-- The names of a term and what follows the last of them. `size` is the length of the whole
text. -/
def readNames (size : Nat) (cs : List Char) :
    Except FieldTypeError (List String × List Char) :=
  match h : skipSpaces cs with
  | [] => .error .unexpectedEnd
  | first :: more =>
    if Name.isPlainStart first then
      let name := String.ofList (first :: more.takeWhile Name.isPlainChar)
      match h' : skipSpaces (more.dropWhile Name.isPlainChar) with
      | '[' :: inner =>
        match readNames size inner with
        | .ok (names, rest) => .ok (name :: names, rest)
        | .error e => .error e
      | rest => .ok ([name], rest)
    else .error (.expectedName (size - (first :: more).length))
  termination_by cs.length
  decreasing_by
    have h1 := length_skipSpaces_le cs
    have h2 := length_skipSpaces_le (more.dropWhile Name.isPlainChar)
    have h3 := (List.dropWhile_sublist Name.isPlainChar (l := more)).length_le
    simp only [h, h', List.length_cons] at h1 h2
    omega

/-- What follows `count` closing brackets. -/
def readCloses (size : Nat) : Nat → List Char → Except FieldTypeError (List Char)
  | 0, cs => .ok cs
  | count + 1, cs =>
    match skipSpaces cs with
    | ']' :: rest => readCloses size count rest
    | rest => .error (.expectedClose (size - rest.length))

/-- The term that a text spells. -/
def parse (s : String) : Except FieldTypeError Term := do
  let cs := s.toList
  let (names, rest) ← readNames cs.length cs
  let rest ← readCloses cs.length (names.length - 1) rest
  match skipSpaces rest, names with
  | [], head :: arguments => .ok ⟨head, arguments⟩
  | [], [] => .error .unexpectedEnd
  | rest, _ => .error (.unexpected (String.ofList rest))

end Term

/-- The item of a term that is a single name. -/
def Atom.ofTerm (head : String) (arguments : List String) : Except FieldTypeError Atom :=
  if arguments ≠ [] then .error (.tooDeep head arguments)
  else if head = "List" ∨ head = "Optional" then .error (.missingArgument head)
  else
    match Primitive.ofName? head with
    | some kind => .ok (.primitive kind)
    | none => .ok (.named head)

namespace FieldType

/-- The items of a list, from the arguments of `List`. -/
def itemsOfTerm : List String → Except FieldTypeError Atom
  | [] => .error (.missingArgument "List")
  | head :: arguments => Atom.ofTerm head arguments

/-- A term that is not optional. -/
def requiredOfTerm (head : String) (arguments : List String) :
    Except FieldTypeError (FieldType Atom) :=
  if head = "List" then (itemsOfTerm arguments).map fun item => ⟨false, true, item⟩
  else (Atom.ofTerm head arguments).map fun item => ⟨false, false, item⟩

/-- The type that a term is. -/
def ofTerm (term : Term) : Except FieldTypeError (FieldType Atom) :=
  if term.head = "Optional" then
    match term.arguments with
    | [] => .error (.missingArgument "Optional")
    | head :: arguments =>
      (requiredOfTerm head arguments).map fun a => { a with isOptional := true }
  else requiredOfTerm term.head term.arguments

/-- The type that a text spells. -/
def parse (s : String) : Except FieldTypeError (FieldType Atom) := do
  ofTerm (← Term.parse s)

end FieldType
end WireModel
