import WireModel.Proofs.Number.Text
import WireModel.Proofs.Scope

/-!
# What expressions stand for

The default of an argument is written into generated code as an expression. `Meaning.read?` reads
such an expression by the rules of the language and not by how it was written: a string literal is
evaluated with its escapes, a numeral is rounded to the nearest number, a numeral that ends in `n`
is an exact integer, and a name behind a point is a member.

Each kind of default is read back as itself:

* **`Text.unescape_literal`**: a string literal evaluates to the text that it was made from.
* **`Meaning.read?_text`**: the text of a number in normal form is that number, and
  **`Meaning.read?_bigint`** the numeral of an integer that integer.
* **`Meaning.read?_member`**: two words with a point between them are a member of an enumeration.
-/

namespace WireModel

/-! ## String literals -/

namespace Text

/-- What a backslash and the character behind it stand for. A code is none of these, and a line end
or a digit not an escape that is read here. -/
def unescapeChar? (c : Char) : Option Char :=
  if c = 'b' then some (Char.ofNat 8)
  else if c = 't' then some '\t'
  else if c = 'n' then some '\n'
  else if c = 'v' then some (Char.ofNat 11)
  else if c = 'f' then some (Char.ofNat 12)
  else if c = 'r' then some '\r'
  else if c = 'u' ∨ c = 'x' ∨ c = '\n' ∨ c = '\r' ∨ isDigit c = true then none
  else some c

/-- The character with a code of four hexadecimal digits; half of a surrogate pair is none. -/
def unescapeCode (a b c d : Char) : Option Char := do
  let n := 16 * (16 * (16 * (← Json.hexValue? a) + (← Json.hexValue? b)) + (← Json.hexValue? c))
    + (← Json.hexValue? d)
  if Json.isLeading n || Json.isTrailing n then none else some (Char.ofNat n)

/-- The value of a string literal behind its opening quote. The closing quote is the first that is
not escaped, and nothing follows it; a line end is not part of a literal. -/
def unescape (mark : Char) : List Char → Option (List Char)
  | [] => none
  | '\\' :: 'u' :: a :: b :: c :: d :: rest =>
    (unescapeCode a b c d).bind fun x => (unescape mark rest).map (x :: ·)
  | '\\' :: c :: rest => (unescapeChar? c).bind fun x => (unescape mark rest).map (x :: ·)
  | c :: rest =>
    if c = mark then if rest.isEmpty then some [] else none
    else if c = '\n' ∨ c = '\r' then none
    else (unescape mark rest).map (c :: ·)

/-- A quote that literals are written in. -/
def IsQuote (mark : Char) : Prop := mark = apostrophe ∨ mark = doubleQuote

theorem unescape_escape {c d : Char} (h : unescapeChar? c = some d) (mark : Char)
    (rest : List Char) :
    unescape mark ('\\' :: c :: rest) = (unescape mark rest).map (d :: ·) := by
  rw [unescape.eq_def]
  split
  · next heq => cases heq
  · next heq =>
    obtain ⟨rfl, -⟩ := List.cons.inj (List.cons.inj heq).2
    cases h
  · next heq =>
    obtain ⟨rfl, rfl⟩ := List.cons.inj (List.cons.inj heq).2
    rw [h, Option.bind_some]
  · next hno heq =>
    obtain ⟨rfl, rfl⟩ := List.cons.inj heq
    exact absurd rfl (hno c rest rfl)

theorem unescape_plain {c : Char} (h : c ≠ '\\') {mark : Char} (hmark : c ≠ mark)
    (hline : c ≠ '\n' ∧ c ≠ '\r') (rest : List Char) :
    unescape mark (c :: rest) = (unescape mark rest).map (c :: ·) := by
  rw [unescape.eq_def]
  split
  · next heq => cases heq
  · next heq => exact absurd (List.cons.inj heq).1 h
  · next heq => exact absurd (List.cons.inj heq).1 h
  · next heq =>
    obtain ⟨rfl, rfl⟩ := List.cons.inj heq
    rw [if_neg hmark, if_neg (not_or.mpr hline)]

/-- The codes of controls are those of the controls. -/
theorem unescapeCode_control : ∀ n < 32,
    unescapeCode '0' '0' (hexDigit (n / 16)) (hexDigit (n % 16)) = some (Char.ofNat n) := by
  decide

theorem unescape_controlEscape {c : Char} (h : c.toNat < 0x20) (mark : Char) (rest : List Char) :
    unescape mark (controlEscape c ++ rest) = (unescape mark rest).map (c :: ·) := by
  have hchar : Char.ofNat c.toNat = c := Char.ofNat_toNat c
  unfold controlEscape
  split
  -- the controls without a letter of their own have a code
  case h_6 =>
    show unescape mark ('\\' :: 'u' :: '0' :: '0' :: hexDigit (c.toNat / 16)
      :: hexDigit (c.toNat % 16) :: rest) = _
    rw [unescape, unescapeCode_control _ h, Option.bind_some, hchar]
  all_goals
    next heq =>
      rw [← hchar, heq]
      exact unescape_escape (by decide) mark rest

section Quote

variable {mark : Char} (hmark : IsQuote mark)

include hmark

/-- What a character is written as is read as the character. -/
theorem unescape_escapeChar (c : Char) (rest : List Char) :
    unescape mark (escapeChar mark c ++ rest) = (unescape mark rest).map (c :: ·) := by
  unfold escapeChar
  split
  · next hescaped =>
    -- neither quote nor the backslash means anything else behind a backslash
    have hself : unescapeChar? c = some c := by
      rcases hescaped with rfl | rfl
      · rcases hmark with rfl | rfl <;> decide
      · decide
    exact unescape_escape hself mark rest
  · next hplain =>
    obtain ⟨hne, hbackslash⟩ := not_or.mp hplain
    split
    · next hcontrol => exact unescape_controlEscape hcontrol mark rest
    · next hprinted =>
      refine unescape_plain hbackslash hne ⟨?_, ?_⟩ rest
      · rintro rfl
        exact hprinted (by decide)
      · rintro rfl
        exact hprinted (by decide)

theorem unescape_flatMap_append (cs rest : List Char) :
    unescape mark (cs.flatMap (escapeChar mark) ++ rest) = (unescape mark rest).map (cs ++ ·) := by
  induction cs with
  | nil => exact Option.map_id'.symm
  | cons c cs ih =>
    rw [List.flatMap_cons, List.append_assoc, unescape_escapeChar hmark, ih, Option.map_map]
    rfl

/-- The first quote that is not escaped ends a text, which is read only if nothing follows. -/
theorem unescape_mark (rest : List Char) :
    unescape mark (mark :: rest) = if rest.isEmpty then some [] else none := by
  rw [unescape.eq_def]
  rcases hmark with rfl | rfl <;> rfl

theorem unescape_flatMap (cs : List Char) :
    unescape mark (cs.flatMap (escapeChar mark) ++ [mark]) = some cs := by
  rw [unescape_flatMap_append hmark, unescape_mark hmark]
  exact congrArg some (List.append_nil cs)

/-- A quoted text ends within no longer one. -/
theorem escaped_append_inj {cs ds rest : List Char}
    (h : ds.flatMap (escapeChar mark) ++ [mark]
      = cs.flatMap (escapeChar mark) ++ [mark] ++ rest) : cs = ds ∧ rest = [] := by
  have hread := unescape_flatMap hmark ds
  rw [h, List.append_assoc, unescape_flatMap_append hmark, List.singleton_append,
    unescape_mark hmark] at hread
  cases rest with
  | nil => exact ⟨by simpa using hread, rfl⟩
  | cons => cases hread

/-- **Where a quoted text ends can be told from the text.** -/
theorem quoteWith_append_inj {s t : String} {rest more : List Char}
    (h : (quoteWith mark s).toList ++ rest = (quoteWith mark t).toList ++ more) :
    s = t ∧ rest = more := by
  rw [quoteWith, quoteWith, String.toList_ofList, String.toList_ofList] at h
  -- one of the two quoted texts begins with the other one
  rcases List.append_eq_append_iff.mp (List.cons.inj h).2 with ⟨x, ht, rfl⟩ | ⟨x, hs, rfl⟩
  · obtain ⟨heq, rfl⟩ := escaped_append_inj hmark ht
    exact ⟨String.toList_inj.mp heq, rfl⟩
  · obtain ⟨heq, rfl⟩ := escaped_append_inj hmark hs
    exact ⟨String.toList_inj.mp heq.symm, rfl⟩

end Quote

/-- **A string literal evaluates to the text that it was made from.** -/
theorem unescape_literal (s : String) :
    ∃ rest, (literal s).toList = apostrophe :: rest ∧ unescape apostrophe rest = some s.toList := by
  refine ⟨_, ?_, unescape_flatMap (.inl rfl) s.toList⟩
  rw [literal, quoteWith, String.toList_ofList]
  rfl

end Text

/-! ## Words that begin with a letter -/

namespace Name

theorem isPlainChar_of_isLetter {c : Char} (h : Text.isLetter c = true) : isPlainChar c = true := by
  rw [isPlainChar, Text.isAlphanumeric, h]
  rfl

/-- A letter, and letters, digits and underscores behind it. -/
def BeginsWithLetter (s : String) : Prop :=
  ∃ c cs, s.toList = c :: cs ∧ Text.isLetter c = true ∧ ∀ d ∈ cs, isPlainChar d = true

theorem BeginsWithLetter.isPlain {s : String} (h : BeginsWithLetter s) : isPlain s = true := by
  obtain ⟨c, cs, hs, hc, hcs⟩ := h
  rw [Name.isPlain, hs]
  dsimp only
  rw [isPlainStart, hc, Bool.true_or, Bool.true_and, List.all_eq_true]
  exact hcs

theorem beginsWithLetter_capital {name : String} (h : isIdentifier name = true) :
    BeginsWithLetter (capital name) := by
  obtain ⟨c, cs, hlist, hupper⟩ := exists_capital_eq h
  refine ⟨c, cs, hlist, by rw [Text.isLetter, hupper, Bool.or_true], fun d hd => ?_⟩
  exact (isWord_capital h).2 d (hlist ▸ List.mem_cons_of_mem c hd)

end Name

/-! ## Constant expressions -/

/-- Equality of numbers, which does not tell the two zeros apart. -/
inductive Binary64.Equals : Binary64 → Binary64 → Prop where
  | refl (x : Binary64) : Equals x x
  | zero (negative negative' : Bool) : Equals (.finite negative 0 0) (.finite negative' 0 0)

/-- What a constant expression of generated code stands for. -/
inductive Meaning where
  | null
  | bool (value : Bool)
  | number (value : Binary64)
  | bigint (value : Int)
  | text (value : String)
  | member (type name : String)
  deriving DecidableEq, Repr

namespace Meaning

/-- The value of a word of the language. -/
def ofWord? (s : String) : Option Meaning :=
  if s = "null" then some .null
  else if s = "true" then some (.bool true)
  else if s = "false" then some (.bool false)
  else if s = "Infinity" then some (.number (.infinite false))
  else none

/-- Two names with a point between them. -/
def ofMember? (cs : List Char) : Option Meaning :=
  match cs.dropWhile Name.isPlainChar with
  | '.' :: name =>
    if Name.isPlain (String.ofList name) then
      some (.member (String.ofList (cs.takeWhile Name.isPlainChar)) (String.ofList name))
    else none
  | _ => none

/-- The integer with these digits and this sign, if an `n` follows the digits. -/
def ofBigint? (negative : Bool) (cs : List Char) : Option Meaning :=
  let digits := cs.takeWhile Text.isDigit
  if cs.dropWhile Text.isDigit = ['n'] ∧ digits ≠ []
      ∧ (digits.length = 1 ∨ digits.head? ≠ some '0') then
    some (.bigint (if negative then -(Json.ofDigits digits : Int) else Json.ofDigits digits))
  else none

/-- A sign and a numeral, of a number or of an integer. -/
def ofNumeral? (cs : List Char) : Option Meaning :=
  match Json.numberOf cs with
  | some x => some (.number x)
  | none =>
    match cs with
    | '-' :: rest => ofBigint? true rest
    | rest => ofBigint? false rest

/-- Reads a constant expression. What it is can be told from its first character. -/
def read? (s : String) : Option Meaning :=
  match s.toList with
  | [] => none
  | c :: rest =>
    if c = Text.apostrophe then (Text.unescape c rest).map fun cs => .text (String.ofList cs)
    else if Text.isLetter c then (ofWord? s).or (ofMember? (c :: rest))
    else if s = "-Infinity" then some (.number (.infinite true))
    else ofNumeral? (c :: rest)

theorem read?_bool (b : Bool) : read? (if b then "true" else "false") = some (.bool b) := by
  cases b <;> decide

theorem read?_literal (s : String) : read? (Text.literal s) = some (.text s) := by
  obtain ⟨rest, hlist, hvalue⟩ := Text.unescape_literal s
  unfold read?
  rw [hlist]
  dsimp only
  rw [if_pos rfl, hvalue, Option.map_some, String.ofList_toList]

/-- **Two words with a point between them are a member.** -/
theorem read?_member {type name : String} (htype : Name.BeginsWithLetter type)
    (hname : Name.BeginsWithLetter name) :
    read? (type ++ "." ++ name) = some (.member type name) := by
  obtain ⟨c, cs, htoList, hc, hcs⟩ := htype
  have hlist : (type ++ "." ++ name).toList = c :: (cs ++ '.' :: name.toList) := by
    rw [String.toList_append, String.toList_append, htoList]
    simp
  have hpoint : ∀ word : String, '.' ∉ word.toList → type ++ "." ++ name ≠ word := by
    rintro _ hword rfl
    rw [hlist] at hword
    simp at hword
  have hchars : ∀ d ∈ c :: cs, Name.isPlainChar d = true :=
    List.forall_mem_cons.mpr ⟨Name.isPlainChar_of_isLetter hc, hcs⟩
  have hquote : c ≠ Text.apostrophe := by
    rintro rfl
    revert hc
    decide
  have hword : ofWord? (type ++ "." ++ name) = none := by
    unfold ofWord?
    rw [if_neg (hpoint _ (by decide)), if_neg (hpoint _ (by decide)), if_neg (hpoint _ (by decide)),
      if_neg (hpoint _ (by decide))]
  have htake : (c :: (cs ++ '.' :: name.toList)).takeWhile Name.isPlainChar = c :: cs := by
    rw [← List.cons_append, List.takeWhile_append_of_pos hchars,
      List.takeWhile_cons_of_neg (by decide), List.append_nil]
  have hdrop : (c :: (cs ++ '.' :: name.toList)).dropWhile Name.isPlainChar
      = '.' :: name.toList := by
    rw [← List.cons_append, List.dropWhile_append_of_pos hchars,
      List.dropWhile_cons_of_neg (by decide)]
  unfold read?
  rw [hlist]
  dsimp only
  rw [if_neg hquote, if_pos hc, hword, Option.none_or, ofMember?, hdrop]
  simp only [String.ofList_toList, if_pos hname.isPlain, htake, ← htoList]

/-! ## Numerals -/

/-- A numeral begins with a digit or a sign. -/
theorem read?_of_head {s : String} {c : Char} {rest : List Char} (hs : s.toList = c :: rest)
    (hc : c = '-' ∨ Text.isDigit c = true) (hne : s ≠ "-Infinity") :
    read? s = ofNumeral? s.toList := by
  have hquote : c ≠ Text.apostrophe := by
    rintro rfl
    revert hc
    decide
  have hletter : Text.isLetter c = false := by
    rcases hc with rfl | hc
    · rfl
    · exact Text.isLetter_of_isDigit hc
  unfold read?
  rw [hs]
  dsimp only
  rw [if_neg hquote, hletter, if_neg Bool.false_ne_true, if_neg hne]

theorem head_of_numberOf {cs : List Char} {x : Binary64} (h : Json.numberOf cs = some x) :
    ∃ c rest, cs = c :: rest ∧ (c = '-' ∨ Text.isDigit c = true) := by
  cases cs with
  | nil => cases h
  | cons c rest =>
    refine ⟨c, rest, rfl, ?_⟩
    by_contra hnot
    obtain ⟨hsign, hdigit⟩ := not_or.mp hnot
    have hnone : (c :: rest).takeWhile Text.isDigit = [] := List.takeWhile_cons_of_neg hdigit
    unfold Json.numberOf at h
    split at h
    next negative body heq =>
    split at heq
    · next hcons => exact hsign (List.cons.inj hcons).1
    · obtain ⟨-, rfl⟩ := Prod.mk.inj heq
      simp only [hnone] at h
      cases h

theorem read?_of_numberOf {s : String} {x : Binary64} (h : Json.numberOf s.toList = some x) :
    read? s = some (.number x) := by
  obtain ⟨c, rest, hs, hc⟩ := head_of_numberOf h
  have hne : s ≠ "-Infinity" := by
    rintro rfl
    cases h
  rw [read?_of_head hs hc hne]
  unfold ofNumeral?
  rw [h]

/-- The text of a number stands for the number, up to the sign of zero. -/
theorem read?_text {x : Binary64} (h : x.Normal) :
    ∃ y, read? x.text = some (.number y) ∧ x.Equals y := by
  cases h with
  | zero negative => exact ⟨.finite false 0 0, by cases negative <;> decide, .zero negative false⟩
  | infinite negative => exact ⟨.infinite negative, by cases negative <;> decide, .refl _⟩
  | finite negative hpos hlt hmin hmax hfull =>
    exact ⟨_, read?_of_numberOf (Binary64.numberOf_text hpos (.finite _ hpos hlt hmin hmax hfull)),
      .refl _⟩

theorem toList_bigint (z : Int) : (toString z ++ "n").toList
    = (if decide (z < 0) then ['-'] else []) ++ (Nat.toDigits 10 z.natAbs ++ ['n']) := by
  rw [String.toList_append, Int.toString_eq_repr, Int.repr_eq_if]
  split
  · next hz =>
    rw [decide_eq_false (by omega), Nat.toList_repr, show z.natAbs = z.toNat by omega]
    rfl
  · next hz =>
    rw [decide_eq_true (by omega), String.toList_append, Nat.toList_repr,
      show z.natAbs = (-z).toNat by omega]
    rfl

/-- The numeral of an integer with an `n` behind it stands for the integer. -/
theorem read?_bigint (z : Int) : read? (toString z ++ "n") = some (.bigint z) := by
  have hdigits : ∀ c ∈ Nat.toDigits 10 z.natAbs, Text.isDigit c = true :=
    fun c hc => Text.isDigit_of_mem_toDigits hc
  have hzero : (Nat.toDigits 10 z.natAbs).length = 1
      ∨ (Nat.toDigits 10 z.natAbs).head? ≠ some '0' := by
    rcases Nat.eq_zero_or_pos z.natAbs with hz | hz
    · exact .inl (by rw [hz]; rfl)
    · exact .inr (Binary64.head?_toDigits hz)
  have hrest : ∀ c ∈ ['n'].head?, Text.isDigit c = false := by
    rintro c ⟨⟩
    rfl
  obtain ⟨first, others, hcons⟩ := List.exists_cons_of_ne_nil (Nat.toDigits_ne_nil (n := z.natAbs))
  have hfirst : Text.isDigit first = true := hdigits first (hcons ▸ List.mem_cons_self)
  have hlist := toList_bigint z
  -- no exponent begins with an `n`, so the numeral is not one of a number
  have hnone : Json.numberOf (toString z ++ "n").toList = none := by
    rw [hlist, Json.numberOf_eq Nat.toDigits_ne_nil hdigits hzero hrest]
    rfl
  have hbigint : ∀ negative, ofBigint? negative (Nat.toDigits 10 z.natAbs ++ ['n'])
      = some (.bigint (if negative then -(z.natAbs : Int) else z.natAbs)) := by
    intro negative
    obtain ⟨htake, hdrop⟩ := Json.takeWhile_run hdigits hrest
    unfold ofBigint?
    simp only [htake, hdrop, Json.ofDigits_toDigits]
    rw [if_pos ⟨trivial, Nat.toDigits_ne_nil, hzero⟩]
  have hne : toString z ++ "n" ≠ "-Infinity" := by
    intro heq
    have := congrArg (·.toList.getLast?) heq
    simp at this
  by_cases hz : z < 0
  · rw [decide_eq_true hz, if_pos rfl, List.singleton_append] at hlist
    rw [read?_of_head hlist (.inl rfl) hne]
    unfold ofNumeral?
    rw [hnone, hlist]
    refine (hbigint true).trans ?_
    rw [if_pos rfl]
    congr 2
    omega
  · rw [decide_eq_false hz, if_neg Bool.false_ne_true, List.nil_append] at hlist
    have hsign : ∀ rest, Nat.toDigits 10 z.natAbs ++ ['n'] ≠ '-' :: rest := by
      intro rest heq
      rw [hcons, List.cons_append] at heq
      rw [(List.cons.inj heq).1] at hfirst
      cases hfirst
    rw [read?_of_head (hlist.trans (by rw [hcons, List.cons_append])) (.inr hfirst) hne]
    unfold ofNumeral?
    rw [hnone, hlist]
    dsimp only
    split
    · next heq => exact absurd heq (hsign _)
    · rw [hbigint, if_neg Bool.false_ne_true]
      congr 2
      omega

end Meaning
end WireModel
