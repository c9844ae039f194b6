import WireModel.Text.Case
import WireModel.Text.Quoted

/-!
# Names

A name of a model is made of words joined by underscores, such as `URL_to_something`. A word
that starts with a capital letter is an abbreviation and keeps its spelling; any other word can
be capitalised.

* `capital` joins the words, each capitalised: `URLToSomething`. It names types and literals,
  and is the value of the discriminator on the wire.
* `camel` puts the first word in lower case: `urlToSomething`. It names properties on the wire.
* `anchor` is the form used to link into the reference.
-/

namespace WireModel.Name

/-- The words of a name; empty ones do not count. -/
def words (name : String) : List String :=
  ((name.toList.splitOn '_').filter fun w => !w.isEmpty).map String.ofList

/-- A word with a capital first letter. Only a word that starts with a letter from `a` to `z`
changes, and then the rest of it is put in lower case. -/
def capitalWord (word : String) : String :=
  match word.toList with
  | first :: rest =>
    if Text.isLower first then
      String.ofList (Text.upperChar first :: rest.flatMap Text.lowerChars)
    else word
  | [] => word

/-- The words of a name, each with a capital first letter. -/
def capital (name : String) : String :=
  String.join ((words name).map capitalWord)

/-- The words of a name, the first in lower case and the others capitalised. A name without
words has the empty form. -/
def camel (name : String) : String :=
  match words name with
  | first :: rest => Text.lower first ++ String.join (rest.map capitalWord)
  | [] => ""

/-- A name that has no words, such as `_`, cannot be put in lower camel case. -/
structure NoWords where
  name : String
  deriving DecidableEq, Repr

def NoWords.message (e : NoWords) : String :=
  "Expected a non-empty identifier, got " ++ Text.quote e.name

/-- The lower camel form of a name that has words. -/
def camel? (name : String) : Except NoWords String :=
  if (words name).isEmpty then .error ⟨name⟩ else .ok (camel name)

/-! ## Shapes of names -/

/-- A character of a plain identifier. -/
def isPlainChar (c : Char) : Bool := Text.isAlphanumeric c || c == '_'

/-- A character that a plain identifier starts with. -/
def isPlainStart (c : Char) : Bool := Text.isLetter c || c == '_'

/-- A plain identifier: letters, digits and underscores, not starting with a digit. -/
def isPlain (name : String) : Bool :=
  match name.toList with
  | first :: rest => isPlainStart first && rest.all isPlainChar
  | [] => false

/-- An identifier of a model: words of letters and digits joined by single underscores, the
first of which starts with a letter. -/
def isIdentifier (name : String) : Bool :=
  let parts := name.toList.splitOn '_'
  (match name.toList with
    | first :: _ => Text.isLetter first
    | [] => false)
  && parts.all fun part => !part.isEmpty && part.all Text.isAlphanumeric

/-! ## Anchors -/

/-- A character that an anchor may hold. -/
def isAnchorChar (c : Char) : Bool := Text.isLower c || Text.isDigit c || c == '-'

/-- Replaces every run of characters that an anchor may not hold by one hyphen; `inRun` says
that the run before this place has been replaced already. -/
def hyphenate (inRun : Bool) : List Char → List Char
  | [] => []
  | c :: rest =>
    if isAnchorChar c then c :: hyphenate false rest
    else if inRun then hyphenate true rest
    else '-' :: hyphenate true rest

/-- The characters without the hyphens at the two ends. -/
def stripHyphens (cs : List Char) : List Char :=
  ((cs.dropWhile (· == '-')).reverse.dropWhile (· == '-')).reverse

/-- The anchor of an element that is named by several parts. -/
def anchor (parts : List String) : String :=
  String.ofList (stripHyphens (hyphenate false (Text.lower ("-".intercalate parts)).toList))

end WireModel.Name
