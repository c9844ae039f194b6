import WireModel.Proofs.Expressions

/-!
# What string literals hold

A literal in single quotes is written character by character. It can also be made from the JSON form
of its value, by exchanging which of the two quotes has a backslash in front of it (`requoted`).
That is the same text, because a backslash in front of a double quote is always the escape of that
quote: the backslashes of the value come in pairs, and no pair is followed by a bare double quote.

* **`Text.literal_eq_requoted`**: the two ways of writing a literal agree.
* **`Text.isGuarded_flatMap`**: every single quote between those at the ends is escaped, and the
  last one is not, so that a literal ends there and nowhere else.

**`Text.literal_denotes`** puts them together with the reader of literals: what a literal evaluates
to is its value.
-/

namespace WireModel.Text

/-! ## Characters of an escape -/

/-- The escape of a control is written without controls and quotes. -/
theorem of_mem_controlEscape {c d : Char} (hc : c.toNat < 0x20) (hd : d ∈ controlEscape c) :
    0x20 ≤ d.toNat ∧ d ≠ apostrophe ∧ d ≠ doubleQuote := by
  have hall : ∀ n < 0x20, (controlEscape (Char.ofNat n)).all
      fun d => 0x20 ≤ d.toNat ∧ d ≠ apostrophe ∧ d ≠ doubleQuote := by decide
  have hchar := hall c.toNat hc
  rw [Char.ofNat_toNat] at hchar
  exact of_decide_eq_true (List.all_eq_true.mp hchar d hd)

theorem not_mem_controlEscape {mark c : Char} (hmark : IsQuote mark) (hc : c.toNat < 0x20) :
    mark ∉ controlEscape c := by
  intro hmem
  obtain ⟨-, hapostrophe, hdoubleQuote⟩ := of_mem_controlEscape hc hmem
  exact hmark.elim hapostrophe hdoubleQuote

theorem IsQuote.ne_backslash {mark : Char} (hmark : IsQuote mark) : mark ≠ '\\' := by
  rcases hmark with rfl | rfl <;> decide

/-- A quote is written for nothing but itself. -/
theorem not_mem_escapeChar {mark c : Char} (hmark : IsQuote mark) (hc : c ≠ mark) :
    mark ∉ escapeChar mark c := by
  unfold escapeChar
  split_ifs with hescaped hcontrol
  · obtain rfl := hescaped.resolve_left hc
    simp [hmark.ne_backslash]
  · exact not_mem_controlEscape hmark hcontrol
  · simpa using Ne.symm hc

/-- No control is left as it is, a line end least of all. -/
theorem le_of_mem_escapeChar {mark c d : Char} (hmark : IsQuote mark) (hd : d ∈ escapeChar mark c) :
    0x20 ≤ d.toNat := by
  unfold escapeChar at hd
  split_ifs at hd with hescaped hcontrol
  · have hc : 0x20 ≤ c.toNat := by
      rcases hescaped with rfl | rfl
      · rcases hmark with rfl | rfl <;> decide
      · decide
    rcases List.mem_pair.mp hd with rfl | rfl
    · decide
    · exact hc
  · exact (of_mem_controlEscape hcontrol hd).1
  · obtain rfl := List.mem_singleton.mp hd
    exact Nat.le_of_not_lt hcontrol

/-! ## Escapes -/

/-- Whether what follows a text is escaped: it stands behind a backslash that is not escaped
itself. -/
def endsInEscape (cs : List Char) : Bool := cs.foldl (fun escaped c => c == '\\' && !escaped) false

/-- What a backslash escapes between two quotes: the quote, a backslash, the letter of a control,
and the letter in front of a code. -/
def escapable (mark : Char) : List Char := [mark, '\\', 'b', 't', 'n', 'f', 'r', 'u']

/-- A text that may stand between two quotes: every quote in it is escaped, along with some letters,
and the quote behind it is not. -/
structure IsGuarded (mark : Char) (cs : List Char) : Prop where
  guarded : ∀ before d after, cs = before ++ d :: after →
    if endsInEscape before then d ∈ escapable mark else d ≠ mark
  ends : endsInEscape cs = false

variable {mark : Char}

theorem endsInEscape_append {xs : List Char} (h : endsInEscape xs = false) (ys : List Char) :
    endsInEscape (xs ++ ys) = endsInEscape ys := by
  rw [endsInEscape, List.foldl_append]
  exact congrArg (ys.foldl _) h

theorem IsGuarded.nil : IsGuarded mark [] := by
  refine ⟨fun before d after h => ?_, rfl⟩
  exact absurd h.symm (List.append_ne_nil_of_right_ne_nil before (List.cons_ne_nil d after))

theorem IsGuarded.append {xs ys : List Char} (hxs : IsGuarded mark xs) (hys : IsGuarded mark ys) :
    IsGuarded mark (xs ++ ys) := by
  refine ⟨fun before d after h => ?_, ?_⟩
  · rcases List.append_eq_append_iff.mp h with ⟨more, rfl, hafter⟩ | ⟨more, rfl, hafter⟩
    · rw [endsInEscape_append hxs.ends]
      exact hys.guarded more d after hafter
    · cases more with
      | nil =>
        -- the character is the first of the second text, and the first text does not escape it
        rw [List.append_nil] at hxs
        rw [hxs.ends]
        exact hys.guarded [] d after hafter.symm
      | cons e more =>
        obtain ⟨rfl, -⟩ := List.cons.inj hafter
        exact hxs.guarded before d more rfl
  · rw [endsInEscape_append hxs.ends]
    exact hys.ends

/-- A character that stands for itself. -/
theorem isGuarded_bare {c : Char} (hmark : c ≠ mark) (hbackslash : c ≠ '\\') :
    IsGuarded mark [c] := by
  refine ⟨?_, by simpa [endsInEscape] using hbackslash⟩
  rintro (_ | ⟨a, before⟩) d after h
  · obtain ⟨rfl, -⟩ := List.cons.inj h
    exact hmark
  · exact absurd (List.cons.inj h).2.symm (by simp)

section Quote

variable (hmark : IsQuote mark)

include hmark

theorem isGuarded_pair {c : Char} (hc : c ∈ escapable mark) : IsGuarded mark ['\\', c] := by
  refine ⟨?_, by simp [endsInEscape]⟩
  rintro (_ | ⟨a, _ | ⟨b, before⟩⟩) d after h
  · obtain ⟨rfl, -⟩ := List.cons.inj h
    exact hmark.ne_backslash.symm
  · obtain ⟨rfl, hrest⟩ := List.cons.inj h
    obtain ⟨rfl, -⟩ := List.cons.inj hrest
    exact hc
  · simp at h

theorem isGuarded_hexDigit {n : Nat} (hn : n < 16) : IsGuarded mark [hexDigit n] := by
  have hall : ∀ n < 16, hexDigit n ≠ apostrophe ∧ hexDigit n ≠ doubleQuote
      ∧ hexDigit n ≠ '\\' := by decide
  obtain ⟨hapostrophe, hdoubleQuote, hbackslash⟩ := hall n hn
  refine isGuarded_bare ?_ hbackslash
  rcases hmark with rfl | rfl
  · exact hapostrophe
  · exact hdoubleQuote

theorem isGuarded_controlEscape {c : Char} (hc : c.toNat < 0x20) :
    IsGuarded mark (controlEscape c) := by
  unfold controlEscape
  split
  case h_6 =>
    -- a code of four digits, of which the first two are zeros
    have hzero : IsGuarded mark ['0'] := isGuarded_hexDigit hmark (n := 0) (by decide)
    have hhigh := isGuarded_hexDigit hmark (n := c.toNat / 16) (by omega)
    have hlow := isGuarded_hexDigit hmark (n := c.toNat % 16) (by omega)
    have hlead : IsGuarded mark ['\\', 'u'] := isGuarded_pair hmark (by simp [escapable])
    exact (((hlead.append hzero).append hzero).append hhigh).append hlow
  all_goals exact isGuarded_pair hmark (by simp [escapable])

theorem isGuarded_escapeChar (c : Char) : IsGuarded mark (escapeChar mark c) := by
  unfold escapeChar
  split_ifs with hescaped hcontrol
  · apply isGuarded_pair hmark
    rcases hescaped with rfl | rfl <;> simp [escapable]
  · exact isGuarded_controlEscape hmark hcontrol
  · obtain ⟨hne, hbackslash⟩ := not_or.mp hescaped
    exact isGuarded_bare hne hbackslash

/-- **Escaping guards a text.** -/
theorem isGuarded_flatMap (cs : List Char) : IsGuarded mark (cs.flatMap (escapeChar mark)) := by
  induction cs with
  | nil => exact .nil
  | cons c cs ih => exact (isGuarded_escapeChar hmark c).append ih

end Quote

/-! ## Exchanging the quotes -/

/-- Takes the backslash away from every double quote that has one in front of it. -/
def bareDoubleQuotes : List Char → List Char
  | c :: d :: rest =>
    if c = '\\' ∧ d = doubleQuote then d :: bareDoubleQuotes rest
    else c :: bareDoubleQuotes (d :: rest)
  | cs => cs

/-- Puts a backslash in front of every single quote. -/
def escapeApostrophes (cs : List Char) : List Char :=
  cs.flatMap fun c => if c = apostrophe then ['\\', c] else [c]

/-- The JSON form of a text with its quotes exchanged: those at the ends, and those between. -/
def requoted (s : String) : String :=
  String.ofList (apostrophe :: escapeApostrophes (bareDoubleQuotes (quote s).toList.tail.dropLast)
    ++ [apostrophe])

theorem bareDoubleQuotes_cons {cs : List Char} (h : cs.head? ≠ some doubleQuote) (c : Char) :
    bareDoubleQuotes (c :: cs) = c :: bareDoubleQuotes cs := by
  cases cs with
  | nil => rfl
  | cons d cs =>
    rw [bareDoubleQuotes, if_neg]
    rintro ⟨-, rfl⟩
    exact h rfl

theorem bareDoubleQuotes_append {xs cs : List Char} (hxs : doubleQuote ∉ xs)
    (h : cs.head? ≠ some doubleQuote) :
    bareDoubleQuotes (xs ++ cs) = xs ++ bareDoubleQuotes cs := by
  induction xs with
  | nil => rfl
  | cons c xs ih =>
    obtain ⟨-, hxs⟩ := not_or.mp (mt List.mem_cons.mpr hxs)
    have hhead : (xs ++ cs).head? ≠ some doubleQuote := by
      cases xs with
      | nil => exact h
      | cons d xs => simpa using fun heq : d = doubleQuote => hxs (heq ▸ List.mem_cons_self)
    rw [List.cons_append, bareDoubleQuotes_cons hhead, ih hxs, List.cons_append]

/-- The JSON form of a character does not begin with a bare double quote. -/
theorem head?_flatMap_ne (cs : List Char) :
    (cs.flatMap (escapeChar doubleQuote)).head? ≠ some doubleQuote := by
  intro h
  obtain ⟨more, hmore⟩ := List.head?_eq_some_iff.mp h
  -- nothing escapes a double quote at the front
  exact (isGuarded_flatMap (.inr rfl) cs).guarded [] doubleQuote more hmore rfl

theorem escapeApostrophes_of_not_mem {cs : List Char} (h : apostrophe ∉ cs) :
    escapeApostrophes cs = cs := by
  induction cs with
  | nil => rfl
  | cons c cs ih =>
    obtain ⟨hc, hcs⟩ := not_or.mp (mt List.mem_cons.mpr h)
    rw [escapeApostrophes, List.flatMap_cons, if_neg (Ne.symm hc)]
    exact congrArg (c :: ·) (ih hcs)

theorem escapeApostrophes_escapeChar {c : Char} (hc : c ≠ doubleQuote) :
    escapeApostrophes (escapeChar doubleQuote c) = escapeChar apostrophe c := by
  by_cases hapostrophe : c = apostrophe
  · subst hapostrophe
    rfl
  · have hescape : escapeChar doubleQuote c = escapeChar apostrophe c := by
      simp only [escapeChar, hc, hapostrophe, false_or]
    rw [hescape, escapeApostrophes_of_not_mem (not_mem_escapeChar (.inl rfl) hapostrophe)]

theorem exchanged_flatMap (cs : List Char) :
    escapeApostrophes (bareDoubleQuotes (cs.flatMap (escapeChar doubleQuote)))
      = cs.flatMap (escapeChar apostrophe) := by
  induction cs with
  | nil => rfl
  | cons c cs ih =>
    rw [List.flatMap_cons, List.flatMap_cons, ← ih]
    by_cases hc : c = doubleQuote
    · subst hc
      rfl
    · rw [bareDoubleQuotes_append (not_mem_escapeChar (.inr rfl) hc) (head?_flatMap_ne cs),
        ← escapeApostrophes_escapeChar hc, escapeApostrophes, List.flatMap_append]
      rfl

/-- **A literal is the JSON form with its quotes exchanged.** -/
theorem literal_eq_requoted (s : String) : literal s = requoted s := by
  have hquote : (quote s).toList.tail.dropLast = s.toList.flatMap (escapeChar doubleQuote) := by
    rw [quote, quoteWith, String.toList_ofList, List.cons_append, List.tail_cons,
      List.dropLast_concat]
  rw [requoted, hquote, exchanged_flatMap, literal, quoteWith]

/-! ## Literals -/

/-- What a literal holds between its quotes: no line end, and no single quote that is not escaped by
a backslash. -/
structure IsContent (cs : List Char) : Prop where
  no_feed : '\n' ∉ cs
  no_return : '\r' ∉ cs
  guarded : IsGuarded apostrophe cs

theorem isContent_flatMap (cs : List Char) : IsContent (cs.flatMap (escapeChar apostrophe)) := by
  have hprinted : ∀ d ∈ cs.flatMap (escapeChar apostrophe), 0x20 ≤ d.toNat := by
    intro d hd
    obtain ⟨c, -, hc⟩ := List.mem_flatMap.mp hd
    exact le_of_mem_escapeChar (.inl rfl) hc
  refine ⟨fun hmem => ?_, fun hmem => ?_, isGuarded_flatMap (.inl rfl) cs⟩
  · exact absurd (hprinted _ hmem) (by decide)
  · exact absurd (hprinted _ hmem) (by decide)

theorem literal_injective : Function.Injective literal := by
  intro s t h
  have hlists : (literal s).toList ++ [] = (literal t).toList ++ [] := by rw [h]
  exact (quoteWith_append_inj (.inl rfl) hlists).1

/-- **A literal denotes its value.** It is the JSON form of the value with the quotes exchanged, and
is in single quotes. Between them it has no line end and no bare single quote, and what it evaluates
to by the rules for escapes is the value, so that different values have different literals. -/
theorem literal_denotes :
    (∀ s, literal s = requoted s
        ∧ ∃ content, (literal s).toList = apostrophe :: (content ++ [apostrophe])
          ∧ IsContent content ∧ unescape apostrophe (content ++ [apostrophe]) = some s.toList)
      ∧ Function.Injective literal := by
  refine ⟨fun s => ⟨literal_eq_requoted s, s.toList.flatMap (escapeChar apostrophe), ?_, ?_, ?_⟩,
    literal_injective⟩
  · rw [literal, quoteWith, String.toList_ofList]
    rfl
  · exact isContent_flatMap s.toList
  · exact unescape_flatMap (.inl rfl) s.toList

end WireModel.Text
