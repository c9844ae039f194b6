import WireModel.Proofs.Scope
import WireModel.TypeScript.WriteRows

/-!
# Reading generated code

What a row of code refers to is read off its text, without a look at the declaration that it was
made from. The text is cut into *tokens*, words and single marks, and a `Reader` goes through them
and takes down every word that is called and every member that is asked of a word.

Rows are fixed texts around names. A fixed text can be read on the spot, and a name is one word
whatever it is, as long as a mark stands on either side. So the rules of this module go through a
row from left to right, piece by piece:

* **`Resolves.text`**: a fixed text that leaves nothing pending;
* **`Resolves.called`**, **`Resolves.consulted`**, **`Resolves.skipped`**: a name before a
  parenthesis, before a lookup, and before another mark;
* **`Resolves.qualified`** and **`Resolves.typed`**: the name of a generated type, and a type
  expression over such names.
-/

namespace WireModel.TypeScript

open Name

/-! ## Tokens -/

inductive Token where
  /-- A maximal run of letters, digits and underscores. -/
  | word (text : List Char)
  | mark (c : Char)
  deriving DecidableEq, Repr

namespace Token

/-- Puts a character of a word in front of tokens. -/
def attach (c : Char) : List Token → List Token
  | .word text :: rest => .word (c :: text) :: rest
  | rest => .word [c] :: rest

def scan : List Char → List Token
  | [] => []
  | c :: rest => if isPlainChar c then attach c (scan rest) else .mark c :: scan rest

theorem attach_append_mark (c d : Char) (tokens rest : List Token) :
    attach c (tokens ++ .mark d :: rest) = attach c tokens ++ .mark d :: rest := by
  cases tokens with
  | nil => rfl
  | cons t tokens => cases t <;> rfl

/-- A mark cuts a text into two texts. -/
theorem scan_append_mark {c : Char} (hc : isPlainChar c = false) (cs rest : List Char) :
    scan (cs ++ c :: rest) = scan cs ++ .mark c :: scan rest := by
  induction cs with
  | nil => simp [scan, hc]
  | cons d cs ih =>
    rw [List.cons_append, scan, scan, ih]
    split
    · exact attach_append_mark d c _ _
    · rfl

theorem scan_word {cs : List Char} (hne : cs ≠ []) (h : ∀ c ∈ cs, isPlainChar c = true) :
    scan cs = [.word cs] := by
  induction cs with
  | nil => exact absurd rfl hne
  | cons c cs ih =>
    have hc := h c List.mem_cons_self
    rw [scan, if_pos hc]
    cases cs with
    | nil => rfl
    | cons d cs =>
      rw [ih (List.cons_ne_nil d cs) fun x hx => h x (List.mem_cons_of_mem c hx)]
      rfl

/-- A text that ends in a mark is cut off from what follows. -/
def endsApart (cs : List Char) : Bool :=
  match cs.getLast? with
  | some c => !isPlainChar c
  | none => true

theorem scan_append {cs : List Char} (h : endsApart cs = true) (rest : List Char) :
    scan (cs ++ rest) = scan cs ++ scan rest := by
  rcases List.eq_nil_or_concat cs with rfl | ⟨init, c, rfl⟩
  · rfl
  · have hc : isPlainChar c = false := by simpa [endsApart] using h
    rw [List.concat_eq_append, List.append_assoc, List.singleton_append,
      scan_append_mark hc, scan_append_mark hc, List.append_assoc]
    rfl

/-- A word stands apart from the mark behind it. -/
theorem scan_word_mark {x : String} (hx : IsWord x) {c : Char} (hc : isPlainChar c = false)
    (rest : List Char) :
    scan (x.toList ++ c :: rest) = .word x.toList :: .mark c :: scan rest := by
  rw [scan_append_mark hc, scan_word hx.1 hx.2]
  rfl

end Token

/-! ## Words -/

def Token.name? : Token → Option String
  | .word text => some (String.ofList text)
  | .mark _ => none

/-- The words of a text, in order. -/
def wordsOf (cs : List Char) : List String := (Token.scan cs).filterMap Token.name?

theorem wordsOf_append_mark {c : Char} (hc : isPlainChar c = false) (cs rest : List Char) :
    wordsOf (cs ++ c :: rest) = wordsOf cs ++ wordsOf rest := by
  rw [wordsOf, Token.scan_append_mark hc, List.filterMap_append]
  rfl

theorem wordsOf_text {cs : List Char} (h : Token.endsApart cs = true) (rest : List Char) :
    wordsOf ((String.ofList cs).toList ++ rest) = wordsOf cs ++ wordsOf rest := by
  rw [String.toList_ofList, wordsOf, Token.scan_append h, List.filterMap_append]
  rfl

theorem wordsOf_word {x : String} (hx : IsWord x) : wordsOf x.toList = [x] := by
  rw [wordsOf, Token.scan_word hx.1 hx.2]
  show [String.ofList x.toList] = [x]
  rw [String.ofList_toList]

theorem wordsOf_word_mark {x : String} (hx : IsWord x) {c : Char} {cs : List Char}
    (hc : isPlainChar c = false) (rest : List Char) :
    wordsOf (x.toList ++ ((String.ofList (c :: cs)).toList ++ rest))
      = x :: wordsOf (cs ++ rest) := by
  rw [String.toList_ofList, List.cons_append, wordsOf_append_mark hc, wordsOf_word hx]
  rfl

/-! ## References -/

/-- What words of a code are used for. -/
inductive Reference where
  /-- A word is called. -/
  | call (name : String)
  /-- A member of a word is mentioned. -/
  | member (owner name : String)
  /-- A member of a word is called. -/
  | method (owner name : String)
  deriving DecidableEq, Repr

/-- What a reader has just seen. -/
inductive Reader where
  | idle
  | word (text : List Char)
  /-- A point, behind a word or not. -/
  | point (owner : Option (List Char))
  /-- A member, of a word or not. -/
  | member (owner : Option (List Char)) (text : List Char)
  deriving DecidableEq, Repr

namespace Reader

/-- The word that a point would be behind. -/
def word? : Reader → Option (List Char)
  | .word text => some text
  | _ => none

/-- What an opening parenthesis would call. -/
def called : Reader → List Reference
  | .word text => [.call (String.ofList text)]
  | .member (some owner) text => [.method (String.ofList owner) (String.ofList text)]
  | _ => []

def step : Reader → Token → Reader × List Reference
  | .point (some owner), .word text =>
    (.member owner text, [.member (String.ofList owner) (String.ofList text)])
  | .point none, .word text => (.member none text, [])
  | _, .word text => (.word text, [])
  | r, .mark c =>
    if c = '.' then (.point r.word?, []) else (.idle, if c = '(' then r.called else [])

/-- The references that are found on the way. -/
def read : Reader → List Token → List Reference
  | _, [] => []
  | r, t :: rest => (r.step t).2 ++ read (r.step t).1 rest

/-- Where the way ends. -/
def final (r : Reader) (tokens : List Token) : Reader := tokens.foldl (fun r t => (r.step t).1) r

theorem read_append (r : Reader) (tokens rest : List Token) :
    r.read (tokens ++ rest) = r.read tokens ++ (r.final tokens).read rest := by
  induction tokens generalizing r with
  | nil => rfl
  | cons t tokens ih =>
    rw [List.cons_append, read, read, ih, List.append_assoc]
    rfl

/-- A member that is called is one more reference; any other mark is read as if nothing had been
read before. -/
theorem read_member (owner text : List Char) (c : Char) (rest : List Token) :
    (Reader.member owner text).read (.mark c :: rest)
      = (if c = '(' then [.method (String.ofList owner) (String.ofList text)] else [])
        ++ Reader.idle.read (.mark c :: rest) := by
  by_cases hpoint : c = '.'
  · subst hpoint
    rfl
  by_cases hparen : c = '('
  · subst hparen
    rfl
  simp [read, step, hpoint, hparen]

end Reader

/-- The references of a text. -/
def referencesOf (cs : List Char) : List Reference := Reader.idle.read (Token.scan cs)

/-! ## References that are met -/

/-- What a code may refer to: `declared` are the names that are declared in the same module, and
`type` are those of the module of types. Members of anything else are up to the support module and
to the objects at hand, except that what is asked by `get` is a table. -/
def Reference.Resolved (declared type : String → Prop) : Reference → Prop
  | .call name => name = "RangeError" ∨ declared name
  | .member owner name => owner = "types" → type name
  | .method owner name => owner ≠ "types" → name = "get" → declared owner

/-- A mark that neither calls what stands before it nor asks for a member of it. -/
def isQuiet (c : Char) : Bool := !isPlainChar c && c != '(' && c != '.'

theorem isQuiet_iff {c : Char} :
    isQuiet c = true ↔ isPlainChar c = false ∧ c ≠ '(' ∧ c ≠ '.' := by
  simp [isQuiet, and_assoc]

/-- All references of a text are met. -/
def Resolves (declared type : String → Prop) (cs : List Char) : Prop :=
  ∀ r ∈ referencesOf cs, r.Resolved declared type

/-- A reference that is met in every module. -/
def Reference.isFixed : Reference → Bool
  | .call name => name == "RangeError"
  | .member owner _ => owner != "types"
  | .method _ name => name != "get"

/-- A text whose references are met in every module, and which leaves nothing pending. -/
def isFixed (cs : List Char) : Bool :=
  Token.endsApart cs && Reader.idle.final (Token.scan cs) == .idle
    && (referencesOf cs).all Reference.isFixed

/-- A text without references that ends in a point, behind something that is not a word. -/
def opensMember (cs : List Char) : Bool :=
  Token.endsApart cs && Reader.idle.final (Token.scan cs) == .point none
    && (referencesOf cs).isEmpty

namespace Resolves

variable {declared type : String → Prop}

theorem resolved_of_isFixed {r : Reference} (h : r.isFixed = true) : r.Resolved declared type := by
  cases r with
  | call name => exact .inl (eq_of_beq h)
  | member owner name => exact fun heq => absurd heq (by simpa [Reference.isFixed] using h)
  | method owner name => exact fun _ heq => absurd heq (by simpa [Reference.isFixed] using h)

theorem text {cs rest : List Char} (h : isFixed cs = true) (hrest : Resolves declared type rest) :
    Resolves declared type ((String.ofList cs).toList ++ rest) := by
  simp only [isFixed, Bool.and_eq_true, beq_iff_eq, List.all_eq_true] at h
  obtain ⟨⟨hends, hfinal⟩, hfixed⟩ := h
  intro r hr
  rw [String.toList_ofList, referencesOf, Token.scan_append hends, Reader.read_append, hfinal,
    List.mem_append] at hr
  exact hr.elim (fun hr => resolved_of_isFixed (hfixed r hr)) (hrest r)

/-- A fixed text that nothing follows may end in a word. -/
theorem fixed {cs : List Char} (h : (referencesOf cs).all Reference.isFixed = true) :
    Resolves declared type ((String.ofList cs).toList ++ []) := by
  intro r hr
  rw [String.toList_ofList, List.append_nil] at hr
  exact resolved_of_isFixed (List.all_eq_true.mp h r hr)

/-- A fixed text with references that are met in this module. -/
theorem known {cs : List Char} {references : List Reference} (h : referencesOf cs = references)
    (hmet : ∀ r ∈ references, r.Resolved declared type) :
    Resolves declared type ((String.ofList cs).toList ++ []) := by
  rw [String.toList_ofList, List.append_nil, Resolves, h]
  exact hmet

/-- Two fixed texts are one. -/
theorem merge {cs more rest : List Char}
    (h : Resolves declared type ((String.ofList (cs ++ more)).toList ++ rest)) :
    Resolves declared type
      ((String.ofList cs).toList ++ ((String.ofList more).toList ++ rest)) := by
  rw [String.toList_ofList, List.append_assoc] at h
  rwa [String.toList_ofList, String.toList_ofList]

/-- A fixed text that a mark of the next one closes. -/
theorem textMark {pre cs rest : List Char} {c : Char} (h : isFixed (pre ++ [c]) = true)
    (hrest : Resolves declared type ((String.ofList cs).toList ++ rest)) :
    Resolves declared type
      ((String.ofList pre).toList ++ ((String.ofList (c :: cs)).toList ++ rest)) := by
  have hclosed := text h hrest
  rw [String.toList_ofList, String.toList_ofList] at hclosed ⊢
  simpa using hclosed

/-- A mark other than a point has nothing to say by itself. -/
theorem mark {c : Char} (hmark : isPlainChar c = false) (hpoint : c ≠ '.') {cs : List Char}
    (h : Resolves declared type cs) : Resolves declared type (c :: cs) := by
  have hread : referencesOf (c :: cs) = referencesOf cs := by
    rw [referencesOf, Token.scan, if_neg (by simp [hmark])]
    simp [Reader.read, Reader.step, Reader.called, hpoint, referencesOf]
  intro r hr
  rw [hread] at hr
  exact h r hr

theorem quiet {c : Char} (hc : isQuiet c = true) {cs rest : List Char}
    (hrest : Resolves declared type ((String.ofList cs).toList ++ rest)) :
    Resolves declared type ((String.ofList (c :: cs)).toList ++ rest) := by
  obtain ⟨hmark, -, hpoint⟩ := isQuiet_iff.mp hc
  rw [String.toList_ofList] at hrest ⊢
  exact mark hmark hpoint hrest

section Word

variable {x : String} (hx : IsWord x) {cs rest : List Char}

include hx

theorem called (hdeclared : declared x)
    (hrest : Resolves declared type ((String.ofList cs).toList ++ rest)) :
    Resolves declared type (x.toList ++ ((String.ofList ('(' :: cs)).toList ++ rest)) := by
  rw [String.toList_ofList] at hrest
  rw [String.toList_ofList, List.cons_append]
  intro r hr
  have hread : referencesOf (x.toList ++ '(' :: (cs ++ rest))
      = .call (String.ofList x.toList) :: referencesOf (cs ++ rest) := by
    rw [referencesOf, Token.scan_word_mark hx rfl]
    rfl
  rw [hread, String.ofList_toList] at hr
  rcases List.mem_cons.mp hr with rfl | hr
  · exact .inr hdeclared
  · exact hrest r hr

theorem skipped {c : Char} (hc : isQuiet c = true)
    (hrest : Resolves declared type ((String.ofList cs).toList ++ rest)) :
    Resolves declared type (x.toList ++ ((String.ofList (c :: cs)).toList ++ rest)) := by
  obtain ⟨hmark, hparen, hpoint⟩ := isQuiet_iff.mp hc
  rw [String.toList_ofList] at hrest
  rw [String.toList_ofList, List.cons_append]
  have hread : referencesOf (x.toList ++ c :: (cs ++ rest)) = referencesOf (cs ++ rest) := by
    rw [referencesOf, Token.scan_word_mark hx hmark]
    simp [Reader.read, Reader.step, hparen, hpoint, referencesOf]
  intro r hr
  rw [hread] at hr
  exact hrest r hr

/-- A word that nothing follows is not used. -/
theorem lone : Resolves declared type (x.toList ++ []) := by
  intro r hr
  rw [List.append_nil, referencesOf, Token.scan_word hx.1 hx.2] at hr
  cases hr

/-- A member of something that is not a word is not asked for by name. -/
theorem chained {pre : List Char} (h : opensMember pre = true) {c : Char} (hc : isQuiet c = true)
    (hrest : Resolves declared type ((String.ofList cs).toList ++ rest)) :
    Resolves declared type
      ((String.ofList pre).toList ++ (x.toList ++ ((String.ofList (c :: cs)).toList ++ rest))) := by
  simp only [opensMember, Bool.and_eq_true, beq_iff_eq, List.isEmpty_iff] at h
  obtain ⟨⟨hends, hfinal⟩, hnone⟩ := h
  obtain ⟨hmark, hparen, hpoint⟩ := isQuiet_iff.mp hc
  rw [String.toList_ofList] at hrest
  rw [String.toList_ofList, String.toList_ofList, List.cons_append]
  have hread : referencesOf (pre ++ (x.toList ++ c :: (cs ++ rest)))
      = referencesOf (cs ++ rest) := by
    rw [referencesOf, Token.scan_append hends, Reader.read_append, hfinal,
      show Reader.idle.read (Token.scan pre) = [] from hnone, Token.scan_word_mark hx hmark]
    simp [Reader.read, Reader.step, hparen, hpoint, referencesOf]
  intro r hr
  rw [hread] at hr
  exact hrest r hr

/-- A member of a word. What follows it is no longer about it, unless the member is called. -/
theorem member {owner : String} (howner : IsWord owner)
    (hmember : (Reference.member owner x).Resolved declared type) {c : Char}
    (hc : isPlainChar c = false)
    (hmethod : c = '(' → (Reference.method owner x).Resolved declared type)
    (hrest : Resolves declared type (c :: rest)) :
    Resolves declared type (owner.toList ++ '.' :: (x.toList ++ c :: rest)) := by
  have hread : referencesOf (owner.toList ++ '.' :: (x.toList ++ c :: rest))
      = .member (String.ofList owner.toList) (String.ofList x.toList)
        :: (Reader.member owner.toList x.toList).read (.mark c :: Token.scan rest) := by
    rw [referencesOf, Token.scan_word_mark howner rfl, Token.scan_word_mark hx hc]
    rfl
  have hscan : Token.scan (c :: rest) = .mark c :: Token.scan rest := by
    rw [Token.scan, if_neg (by simp [hc])]
  rw [String.ofList_toList, String.ofList_toList, Reader.read_member, ← hscan] at hread
  intro r hr
  rw [hread, String.ofList_toList, String.ofList_toList] at hr
  rcases List.mem_cons.mp hr with rfl | hr
  · exact hmember
  rcases List.mem_append.mp hr with hr | hr
  · split at hr
    · next hparen =>
      obtain rfl := List.mem_singleton.mp hr
      exact hmethod hparen
    · cases hr
  · exact hrest r hr

/-- A table is asked by its member `get`. -/
theorem consulted (hdeclared : declared x) (hne : x ≠ "types")
    (hrest : Resolves declared type ((String.ofList cs).toList ++ rest)) :
    Resolves declared type
      (x.toList ++ ((String.ofList ('.' :: 'g' :: 'e' :: 't' :: '(' :: cs)).toList ++ rest)) := by
  have hget : IsWord "get" := isWord_ofList rfl
  rw [String.toList_ofList] at hrest ⊢
  refine member hget hx (fun heq => absurd heq hne) (c := '(') rfl (fun _ _ _ => hdeclared) ?_
  exact mark rfl (by decide) hrest

/-- A name of the module of types. -/
theorem qualified (htype : type x) {c : Char} (hc : isPlainChar c = false)
    (hrest : Resolves declared type ((String.ofList (c :: cs)).toList ++ rest)) :
    Resolves declared type
      (qualifier.toList ++ (x.toList ++ ((String.ofList (c :: cs)).toList ++ rest))) := by
  have htypes : IsWord "types" := isWord_ofList rfl
  rw [String.toList_ofList] at hrest ⊢
  exact member hx htypes (fun _ => htype) hc (fun _ hne => absurd rfl hne) hrest

/-- A field of the object at hand, which is not called. -/
theorem accessed {c : Char} (hc : isPlainChar c = false) (hparen : c ≠ '(')
    (hrest : Resolves declared type ((String.ofList (c :: cs)).toList ++ rest)) :
    Resolves declared type
      ((String.ofList ['t', 'h', 'a', 't', '.']).toList
        ++ (x.toList ++ ((String.ofList (c :: cs)).toList ++ rest))) := by
  have hthat : IsWord "that" := isWord_ofList rfl
  rw [String.toList_ofList] at hrest ⊢
  rw [String.toList_ofList]
  exact member hx hthat (fun heq => absurd heq (by decide)) hc
    (fun heq => absurd heq hparen) hrest

end Word

/-- A type expression mentions the names that it is made of. -/
theorem typed {e : TypeExpr} (he : ∀ name ∈ e.names, IsWord name ∧ type name) {c : Char}
    (hc : isQuiet c = true) {cs rest : List Char}
    (hrest : Resolves declared type ((String.ofList cs).toList ++ rest)) :
    Resolves declared type
      ((e.text qualifier).toList ++ ((String.ofList (c :: cs)).toList ++ rest)) := by
  induction e generalizing c cs rest with
  | primitive kind =>
    have hword : IsWord (primitiveType kind) := by cases kind <;> exact isWord_ofList rfl
    exact skipped hword hc hrest
  | named name =>
    obtain ⟨hword, htype⟩ := he name (List.mem_singleton_self name)
    rw [TypeExpr.text, String.toList_append, List.append_assoc]
    exact qualified hword htype (isQuiet_iff.mp hc).1 (quiet hc hrest)
  | array item ih =>
    rw [TypeExpr.text, String.toList_append, String.toList_append, List.append_assoc,
      List.append_assoc]
    have hclose : Resolves declared type
        ((String.ofList []).toList ++ ((String.ofList (c :: cs)).toList ++ rest)) := by
      rw [String.toList_ofList]
      exact quiet hc hrest
    exact text rfl (ih he (c := '>') rfl hclose)
  | orNull item ih =>
    rw [TypeExpr.text, String.toList_append, List.append_assoc]
    have hword : IsWord "null" := isWord_ofList rfl
    have hnull : Resolves declared type
        ((String.ofList ['|', ' ', 'n', 'u', 'l', 'l']).toList
          ++ ((String.ofList (c :: cs)).toList ++ rest)) := by
      have hsplit : ['|', ' ', 'n', 'u', 'l', 'l'] = (String.ofList ['|', ' ']).toList
          ++ "null".toList := rfl
      rw [String.toList_ofList, hsplit, List.append_assoc]
      exact text rfl (skipped hword hc hrest)
    exact ih he (c := ' ') rfl hnull

end Resolves

end WireModel.TypeScript
