/-!
# Blank characters and words

One notion of white space is used wherever free text is read: the characters below, and no
others (U+0085, U+180E and U+200B are ordinary). A *word* is a maximal run of characters that
are not blank, so folding the white space of a text and trimming it amounts to joining its words.
-/

namespace WireModel.Text

/-- White space: the controls TAB to CR, the space separators, the line and paragraph
separators, and U+FEFF. -/
def isBlank (c : Char) : Bool :=
  let n := c.toNat
  (0x09 ≤ n && n ≤ 0x0D) || n == 0x20 || n == 0xA0 || n == 0x1680
    || (0x2000 ≤ n && n ≤ 0x200A) || n == 0x2028 || n == 0x2029 || n == 0x202F
    || n == 0x205F || n == 0x3000 || n == 0xFEFF

/-- The text without the white space at its end. -/
def trimEnd (s : String) : String :=
  String.ofList (s.toList.reverse.dropWhile isBlank).reverse

/-- The text without the white space at its two ends. -/
def trim (s : String) : String :=
  trimEnd (String.ofList (s.toList.dropWhile isBlank))

/-- The words of a text, in order. -/
def words (s : String) : List String :=
  ((s.toList.splitOnP isBlank).filter fun w => !w.isEmpty).map String.ofList

/-- Every run of white space becomes one space, and the ends are trimmed. -/
def fold (s : String) : String :=
  " ".intercalate (words s)

end WireModel.Text
