import WireModel.Text.Blank

/-!
# Descriptions

A description is free text. Blank lines cut it into paragraphs, of which the first is the summary
and the others are remarks; within a paragraph every run of white space counts as one space. A
paragraph may refer to an element of the model, with a role and a target: the target stands in
backquotes after `:class:` for a type and after `:attr:` for a property.

References are resolved by a lookup that the caller supplies. A reference that does not resolve
leaves its target as plain text and is listed as unresolved.
-/

namespace WireModel

/-- What a reference refers to. -/
inductive Role where
  /-- A type of the model. -/
  | type
  /-- A property of a class. -/
  | property
  deriving DecidableEq, Repr

/-- The word that marks a role. -/
def Role.word : Role → String
  | .type => "class"
  | .property => "attr"

/-- A reference as it stands in a text. -/
structure Mention where
  role : Role
  target : String
  deriving DecidableEq, Repr

/-- The source text of a reference. -/
def Mention.text (r : Mention) : String :=
  ":" ++ r.role.word ++ ":`" ++ r.target ++ "`"

/-- A piece of a paragraph. -/
inductive Inline where
  | text (text : String)
  | typeRef (name : String)
  /-- The property `property` of the class `owner`, declared by the class `declaredBy`. -/
  | propertyRef (owner property declaredBy : String)
  deriving DecidableEq, Repr

abbrev Paragraph := List Inline

structure Description where
  summary : Paragraph
  remarks : List Paragraph
  deriving DecidableEq, Repr

/-- All paragraphs, the summary first. -/
def Description.paragraphs (d : Description) : List Paragraph := d.summary :: d.remarks

/-- The plain text of a piece. -/
def Inline.plain : Inline → String
  | .text s => s
  | .typeRef name => name
  | .propertyRef _ property _ => property

/-- The plain text of a paragraph. -/
def Paragraph.plain (p : Paragraph) : String := String.join (p.map Inline.plain)

namespace Description

/-! ## Paragraphs -/

/-- A character that a blank line may hold. -/
def isLineBlank (c : Char) : Bool := c == ' ' || c == '\t'

/-- What follows a blank line, if the text continues with one. -/
def afterBlankLine? (cs : List Char) : Option (List Char) :=
  match cs.dropWhile isLineBlank with
  | '\n' :: rest => some rest
  | _ => none

theorem length_lt_of_afterBlankLine? {cs rest : List Char}
    (h : afterBlankLine? cs = some rest) : rest.length < cs.length := by
  have h1 := (List.dropWhile_sublist isLineBlank (l := cs)).length_le
  unfold afterBlankLine? at h
  split at h
  · rename_i hd
    rw [hd, List.length_cons] at h1
    cases h
    omega
  · cases h

-- `h` is read by `decreasing_by` only, which the unused-variable linter does not see.
set_option linter.unusedVariables false in
/-- The text cut at its blank lines: a cut takes a line feed, any spaces and tabs, and a second
line feed. `part` is what has been read of the current piece, in reverse order. -/
def cut (part : List Char) : List Char → List (List Char)
  | [] => [part.reverse]
  | c :: cs =>
    if c = '\n' then
      match h : afterBlankLine? cs with
      | some rest => part.reverse :: cut [] rest
      | none => cut (c :: part) cs
    else cut (c :: part) cs
  termination_by cs => cs.length
  decreasing_by
    · have := length_lt_of_afterBlankLine? h
      simp only [List.length_cons]
      omega
    · simp
    · simp

/-- The paragraphs of a text, with their white space folded. -/
def paragraphTexts (s : String) : List String :=
  ((cut [] s.toList).map fun part => Text.fold (String.ofList part)).filter fun p => !p.isEmpty

/-! ## References -/

/-- The mark around the target of a reference. -/
def backquote : Char := Char.ofNat 96

/-- The target of a reference whose opening backquote has been read, and what follows it. -/
def targetOf? (cs : List Char) : Option (String × List Char) :=
  let target := cs.takeWhile (· != backquote)
  match cs.dropWhile (· != backquote) with
  | _ :: rest => if target.isEmpty then none else some (String.ofList target, rest)
  | [] => none

/-- What follows a text that starts with the given characters. -/
def dropLead? : List Char → List Char → Option (List Char)
  | [], cs => some cs
  | p :: ps, c :: cs => if p = c then dropLead? ps cs else none
  | _ :: _, [] => none

/-- The reference with a given role that a text starts with, and what follows it. -/
def mentionWith? (role : Role) (cs : List Char) : Option (Mention × List Char) := do
  let rest ← dropLead? (":" ++ role.word ++ ":`").toList cs
  let (target, rest) ← targetOf? rest
  some (⟨role, target⟩, rest)

/-- The reference that a text starts with, and what follows it. -/
def mention? (cs : List Char) : Option (Mention × List Char) :=
  (mentionWith? .type cs).or (mentionWith? .property cs)

theorem length_lt_of_targetOf? {cs rest : List Char} {target : String}
    (h : targetOf? cs = some (target, rest)) : rest.length < cs.length := by
  have h1 := (List.dropWhile_sublist (· != backquote) (l := cs)).length_le
  simp only [targetOf?] at h
  split at h
  · rename_i hd
    rw [hd, List.length_cons] at h1
    split at h
    · cases h
    · cases h
      omega
  · cases h

theorem length_le_of_dropLead? {lead cs rest : List Char} (h : dropLead? lead cs = some rest) :
    rest.length ≤ cs.length := by
  induction lead generalizing cs with
  | nil => simp only [dropLead?, Option.some.injEq] at h; simp [h]
  | cons p ps ih =>
    cases cs with
    | nil => simp [dropLead?] at h
    | cons c cs =>
      simp only [dropLead?] at h
      split at h
      · have := ih h
        simp only [List.length_cons]
        omega
      · cases h

theorem length_lt_of_mentionWith? {role : Role} {cs rest : List Char} {r : Mention}
    (h : mentionWith? role cs = some (r, rest)) : rest.length < cs.length := by
  simp only [mentionWith?, Option.bind_eq_bind, Option.bind_eq_some_iff] at h
  obtain ⟨mid, hmid, ⟨target, rest'⟩, htarget, heq⟩ := h
  simp only [Option.some.injEq, Prod.mk.injEq] at heq
  have h1 := length_le_of_dropLead? hmid
  have h2 := length_lt_of_targetOf? htarget
  rw [← heq.2]
  omega

theorem length_lt_of_mention? {cs rest : List Char} {r : Mention}
    (h : mention? cs = some (r, rest)) : rest.length < cs.length := by
  simp only [mention?, Option.or_eq_some_iff] at h
  rcases h with h | ⟨_, h⟩
  · exact length_lt_of_mentionWith? h
  · exact length_lt_of_mentionWith? h

/-- A piece of the source of a paragraph. -/
inductive Piece where
  | text (text : String)
  | mention (mention : Mention)
  deriving DecidableEq, Repr

/-- The piece of plain text that ends here, if it is not empty. -/
def textPiece (text : List Char) : List Piece :=
  if text.isEmpty then [] else [.text (String.ofList text.reverse)]

-- `h` is read by `decreasing_by` only, which the unused-variable linter does not see.
set_option linter.unusedVariables false in
/-- The pieces of a paragraph: the leftmost references, and the plain text between them. `text`
is the plain text that has been read and not been given out, in reverse order. -/
def pieces (text : List Char) : List Char → List Piece
  | [] => textPiece text
  | c :: cs =>
    match h : mention? (c :: cs) with
    | some (r, rest) => textPiece text ++ .mention r :: pieces [] rest
    | none => pieces (c :: text) cs
  termination_by cs => cs.length
  decreasing_by
    · exact length_lt_of_mention? h
    · simp

/-! ## Reading a description -/

/-- Finds the element that a reference refers to. -/
abbrev Lookup := Mention → Option Inline

/-- A piece with its reference resolved; the target of an unresolved one is plain text. -/
def Piece.resolve (lookup : Lookup) : Piece → Inline
  | .text s => .text s
  | .mention r => (lookup r).getD (.text r.target)

/-- The reference of a piece, if it does not resolve. -/
def Piece.unresolved? (lookup : Lookup) : Piece → Option Mention
  | .text _ => none
  | .mention r => if (lookup r).isSome then none else some r

/-- The paragraphs of a text as pieces. -/
def paragraphPieces (s : String) : List (List Piece) :=
  (paragraphTexts s).map fun p => pieces [] p.toList

/-- The description that a text is; a text without paragraphs is none. -/
def parse (lookup : Lookup) (s : String) : Option Description :=
  match (paragraphPieces s).map fun p => p.map (Piece.resolve lookup) with
  | summary :: remarks => some ⟨summary, remarks⟩
  | [] => none

/-- The references of a text that do not resolve, in order. -/
def unresolved (lookup : Lookup) (s : String) : List Mention :=
  (paragraphPieces s).flatten.filterMap (Piece.unresolved? lookup)

end Description
end WireModel
