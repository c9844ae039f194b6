import WireModel.Proofs.Separated

/-!
# The forms of an identifier

An identifier has at least one word, and its first word begins with a letter. So it has a lower
camel form, and its capital form begins with a capital letter. The two forms differ in the first
word only, which is what keeps the routines of interfaces apart from those of types:

* **`Name.capital_of_camel_eq`**: where the lower camel form of one name is `i` before the capital
  form of another, the capital form of the first is `I` before that of the second.
-/

namespace WireModel

/-! ## Letters

Identifiers are ASCII, so what is said about their characters can be checked one by one. -/

namespace Text

theorem toNat_lt_of_isAlphanumeric {c : Char} (h : isAlphanumeric c = true) : c.toNat < 128 := by
  simp only [isAlphanumeric, isLetter, isLower, isUpper, isDigit, Bool.or_eq_true,
    Bool.and_eq_true, decide_eq_true_eq, Char.le_def, UInt32.le_iff_toNat_le] at h
  have hc : c.toNat = c.val.toNat := rfl
  have hz : ('z' : Char).val.toNat = 122 := rfl
  have hZ : ('Z' : Char).val.toNat = 90 := rfl
  have h9 : ('9' : Char).val.toNat = 57 := rfl
  omega

theorem of_forall_ascii {P : Char → Prop}
    (h : ∀ n : Fin 128, isAlphanumeric (Char.ofNat n) = true → P (Char.ofNat n)) {c : Char}
    (hc : isAlphanumeric c = true) : P c := by
  have hn := h ⟨c.toNat, toNat_lt_of_isAlphanumeric hc⟩
  rw [show Char.ofNat (⟨c.toNat, _⟩ : Fin 128) = c from Char.ofNat_toNat c] at hn
  exact hn hc

theorem lowerChars_of_isAlphanumeric {c : Char} (h : isAlphanumeric c = true) :
    lowerChars c = [lowerChar c] :=
  of_forall_ascii (P := fun c => lowerChars c = [lowerChar c]) (by decide) h

theorem isUpper_lowerChar {c : Char} (h : isAlphanumeric c = true) :
    isUpper (lowerChar c) = false :=
  of_forall_ascii (P := fun c => isUpper (lowerChar c) = false) (by decide) h

theorem eq_of_lowerChar_eq_i {c : Char} (h : isAlphanumeric c = true) (hi : lowerChar c = 'i') :
    c = 'i' ∨ c = 'I' :=
  of_forall_ascii (P := fun c => lowerChar c = 'i' → c = 'i' ∨ c = 'I') (by decide) h hi

/-- A letter is a small or a capital one, and the capital of a small one is capital. -/
theorem isUpper_of_isLetter {c : Char} (h : isLetter c = true) :
    isUpper (if isLower c then upperChar c else c) = true := by
  have halpha : isAlphanumeric c = true := by rw [isAlphanumeric, h, Bool.true_or]
  exact of_forall_ascii
    (P := fun c => isLetter c = true → isUpper (if isLower c then upperChar c else c) = true)
    (by decide) halpha h

end Text

namespace Name

/-! ## The first word -/

/-- An identifier has a first word, which begins with a letter. -/
theorem exists_words {name : String} (h : isIdentifier name = true) :
    ∃ first rest more, words name = String.ofList (first :: rest) :: more
      ∧ Text.isLetter first = true ∧ ∀ c ∈ rest, Text.isAlphanumeric c = true := by
  simp only [isIdentifier, Bool.and_eq_true, List.all_eq_true] at h
  obtain ⟨hfirst, hparts⟩ := h
  cases hname : name.toList with
  | nil => simp [hname] at hfirst
  | cons first cs =>
    rw [hname] at hfirst hparts
    have hletter : Text.isLetter first = true := hfirst
    have hsep : first ≠ '_' := by
      rintro rfl
      revert hletter
      decide
    obtain ⟨part, parts, hsplit⟩ := List.exists_cons_of_ne_nil (List.splitOn_ne_nil '_' cs)
    -- the first letter is not the separator, so it belongs to the first part
    have hall : (first :: cs).splitOn '_' = (first :: part) :: parts := by
      rw [List.splitOn_cons_eq_if_modifyHead, if_neg (by simpa using hsep), hsplit,
        List.modifyHead_cons]
    rw [hall] at hparts
    refine ⟨first, part, (parts.filter fun w => !w.isEmpty).map String.ofList, ?_, hletter,
      fun c hc => (hparts (first :: part) (by simp)).2 c (by simp [hc])⟩
    rw [words, hname, hall]
    rfl

/-- The capital form and the lower camel form share all but the first word, which begins with a
letter. -/
theorem exists_forms {name : String} (h : isIdentifier name = true) :
    ∃ first rest tail, Text.isLetter first = true
      ∧ (∀ c ∈ rest, Text.isAlphanumeric c = true)
      ∧ words name ≠ []
      ∧ capital name = capitalWord (String.ofList (first :: rest)) ++ tail
      ∧ camel name = Text.lower (String.ofList (first :: rest)) ++ tail := by
  obtain ⟨first, rest, more, hwords, hletter, hrest⟩ := exists_words h
  refine ⟨first, rest, String.join (more.map capitalWord), hletter, hrest, by simp [hwords], ?_, ?_⟩
  · rw [capital, hwords, List.map_cons, String.join_cons]
  · rw [camel, hwords]

theorem words_ne_nil {name : String} (h : isIdentifier name = true) : words name ≠ [] := by
  obtain ⟨-, -, -, -, -, hne, -⟩ := exists_forms h
  exact hne

theorem toList_capitalWord (first : Char) (rest : List Char) :
    (capitalWord (String.ofList (first :: rest))).toList
      = (if Text.isLower first then Text.upperChar first else first)
        :: if Text.isLower first then rest.flatMap Text.lowerChars else rest := by
  rw [capitalWord, String.toList_ofList]
  by_cases hlower : Text.isLower first = true
  · simp [hlower]
  · simp [hlower]

/-- The capital form of an identifier begins with a capital letter. -/
theorem exists_capital_eq {name : String} (h : isIdentifier name = true) :
    ∃ c cs, (capital name).toList = c :: cs ∧ Text.isUpper c = true := by
  obtain ⟨first, rest, tail, hletter, -, -, hcapital, -⟩ := exists_forms h
  rw [hcapital, String.toList_append, toList_capitalWord, List.cons_append]
  exact ⟨_, _, rfl, Text.isUpper_of_isLetter hletter⟩

/-- **A lower camel form that looks like the stem of an interface comes from a capital form that
looks like its name.** -/
theorem capital_of_camel_eq {name other : String} (h : isIdentifier name = true)
    (hother : isIdentifier other = true) (heq : camel name = "i" ++ capital other) :
    capital name = "I" ++ capital other := by
  obtain ⟨first, rest, tail, hletter, hrest, -, hcapital, hcamel⟩ := exists_forms h
  obtain ⟨c, cs, hc, hupper⟩ := exists_capital_eq hother
  have halpha : Text.isAlphanumeric first = true := by
    rw [Text.isAlphanumeric, hletter, Bool.true_or]
  have hchars : Text.lowerChar first :: (rest.flatMap Text.lowerChars ++ tail.toList)
      = 'i' :: (capital other).toList := by
    have hlist := congrArg String.toList (hcamel.symm.trans heq)
    simpa [Text.lower, Text.lowerChars_of_isAlphanumeric halpha] using hlist
  obtain ⟨hi, htail⟩ := List.cons.inj hchars
  -- a second character of the first word would be small, and the capital form begins otherwise
  cases rest with
  | cons r rest =>
    have hr := hrest r (by simp)
    rw [hc, List.flatMap_cons, Text.lowerChars_of_isAlphanumeric hr] at htail
    have hsmall := Text.isUpper_lowerChar hr
    rw [(List.cons.inj htail).1, hupper] at hsmall
    cases hsmall
  | nil =>
    have htail : tail = capital other := String.toList_inj.mp htail
    rw [hcapital, htail]
    congr 1
    rcases Text.eq_of_lowerChar_eq_i halpha hi with rfl | rfl
    · decide
    · decide

end Name

end WireModel
