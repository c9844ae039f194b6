import Mathlib.Algebra.Order.Monoid.Unbundled.WithTop
import Mathlib.Data.List.Chain
import WireModel.Proofs.Integers
import WireModel.Proofs.Paragraphs
import WireModel.Terminal.View

/-!
# Lines that are wrapped at a width

The wrapper takes one word at a time and holds the line that it has begun. It gives the line out
only when the next word does not fit on it, and it never gives out a line without words, so that a
word that is wider than the terminal is neither cut nor put behind an empty line.

* **`Binary64.isBelow_iff`**: a width is compared with a length as the number that it is, infinities
  included.
* **`Terminal.greedy_wrapFrom`**: the line that the loop has begun may be given out at any time
  (`Terminal.IsWrapped`), so it does not matter whether a line is given out inside the loop or at
  its end.
* **`Terminal.Greedy.unique`**: lines that lose no word, fit and break as late as they can are
  determined by the words.

**`Terminal.words_wrapped`** says all this of a text. The width may be any number, not only that of
a terminal: at a width that is not positive every word has a line of its own.
-/

namespace WireModel

/-! ## Widths -/

namespace Binary64

/-- The value of a number, between the two infinities. -/
def extended : Binary64 → WithBot (WithTop ℚ)
  | .infinite true => ⊥
  | .infinite false => ⊤
  | .finite negative mantissa exponent =>
    ((if negative then -(mantissa * 2 ^ exponent) else mantissa * 2 ^ exponent : ℚ) : WithTop ℚ)

/-- **A length is above a number iff it is above its value.** -/
theorem isBelow_iff {x : Binary64} {n : Nat} : x.isBelow n = true ↔ x.extended < n := by
  cases x with
  | infinite negative =>
    cases negative with
    | false => exact ⟨nofun, fun h => absurd h not_top_lt⟩
    | true => exact ⟨fun _ => WithBot.bot_lt_coe _, fun _ => rfl⟩
  | finite negative mantissa exponent =>
    have hcast : (n : WithBot (WithTop ℚ)) = (((n : ℚ) : WithTop ℚ) : WithBot (WithTop ℚ)) := rfl
    rw [hcast, extended, WithBot.coe_lt_coe, WithTop.coe_lt_coe]
    obtain ⟨hden, hratio⟩ := ratio_spec mantissa exponent
    have hpow : (0 : ℚ) < 2 ^ exponent := by positivity
    cases negative with
    | false =>
      show decide ((ratio mantissa exponent).1 < n * (ratio mantissa exponent).2) = true
        ↔ (mantissa : ℚ) * 2 ^ exponent < n
      rw [decide_eq_true_iff, ← hratio, div_lt_iff₀ (by exact_mod_cast hden)]
      exact_mod_cast Iff.rfl
    | true =>
      show (decide (0 < n) || mantissa != 0) = true ↔ -((mantissa : ℚ) * 2 ^ exponent) < n
      -- a length that is not above the negative of a magnitude is zero, and so is the magnitude
      rcases Nat.eq_zero_or_pos mantissa with rfl | hmantissa
      · simp
      · have hmagnitude : (0 : ℚ) < mantissa * 2 ^ exponent := by positivity
        have hlength : (0 : ℚ) ≤ n := Nat.cast_nonneg n
        have hbelow : -((mantissa : ℚ) * 2 ^ exponent) < n := by linarith
        simp [hmantissa.ne', hbelow]

end Binary64

/-! ## Words and lines -/

namespace Text

/-- A text that is one word. -/
def IsOneWord (w : String) : Prop := words w = [w]

theorem words_append_space (s t : String) : words (s ++ " " ++ t) = words s ++ words t := by
  have hspace : isBlank ' ' = true := by decide
  have hlist : (s ++ " " ++ t).toList = s.toList ++ ' ' :: t.toList := by simp
  rw [words_eq, hlist, wordLists_append_cons hspace, List.map_append]
  rfl

theorem isOneWord_of_mem_words {s w : String} (h : w ∈ words s) : IsOneWord w := by
  obtain ⟨cs, hcs, rfl⟩ := List.mem_map.mp h
  obtain ⟨hpart, hne⟩ := List.mem_filter.mp hcs
  have hplain : ∀ c ∈ cs, isBlank c = false := eq_false_of_mem_splitOnP hpart
  have hone : wordLists cs = [cs] := by
    rw [wordLists, List.splitOnP_eq_singleton hplain]
    simpa using hne
  rw [IsOneWord, words_eq, String.toList_ofList, hone, List.map_singleton]

theorem intercalate_concat {separator : String} {ws : List String} (h : ws ≠ []) (w : String) :
    separator.intercalate (ws ++ [w]) = separator.intercalate ws ++ separator ++ w := by
  rw [String.intercalate_append_of_ne_nil h (List.cons_ne_nil w []), String.intercalate_singleton]

/-- Words of which a line is made begin it. -/
theorem prefix_intercalate (separator : String) {ws : List String} (h : ws ≠ []) (w : String)
    (more : List String) :
    (separator.intercalate ws ++ separator ++ w).toList
      <+: (separator.intercalate (ws ++ w :: more)).toList := by
  have hfirst : w.toList <+: (separator.intercalate (w :: more)).toList := by
    cases more with
    | nil =>
      simp only [String.intercalate_singleton, List.prefix_rfl]
    | cons next more =>
      rw [String.intercalate_cons_cons, String.append_assoc, String.toList_append]
      exact List.prefix_append _ _
  rw [String.intercalate_append_of_ne_nil h (List.cons_ne_nil w more), String.toList_append,
    String.toList_append (t := separator.intercalate (w :: more))]
  exact (List.prefix_append_right_inj _).mpr hfirst

theorem width_le_of_prefix {s t : String} (h : s.toList <+: t.toList) : width s ≤ width t := by
  obtain ⟨rest, hrest⟩ := h
  rw [width, width, units, units, ← hrest, List.flatMap_append, List.length_append]
  exact Nat.le_add_right _ _

end Text

namespace Terminal

open Text

/-- A line that may be given out: it is made from words with a space between them, and fits the
width unless it is a single word. -/
structure IsWrapped (width : Binary64) (line : String) : Prop where
  words_ne : words line ≠ []
  spaced : " ".intercalate (words line) = line
  fits : (Text.width line : WithBot (WithTop ℚ)) ≤ width.extended ∨ ∃ w, words line = [w]

/-- The next line begins with a word for which there is no room behind the line. -/
def IsFull (width : Binary64) (line next : String) : Prop :=
  ∃ w ws, words next = w :: ws ∧ width.extended < Text.width (line ++ " " ++ w)

/-- Lines that hold the words `ws` and break as late as they can. -/
structure Greedy (width : Binary64) (ws lines : List String) : Prop where
  lossless : lines.flatMap words = ws
  wrapped : ∀ line ∈ lines, IsWrapped width line
  full : lines.IsChain (IsFull width)

variable {width : Binary64}

/-- Lines that break as late as they can have their words where the list of words has them. -/
theorem Greedy.exists_first {w line : String} {ws lines : List String}
    (h : Greedy width (w :: ws) (line :: lines)) : ∃ more, words line = w :: more := by
  have hwords : words line ++ lines.flatMap words = w :: ws := h.lossless
  obtain ⟨first, more, hline⟩ :=
    List.exists_cons_of_ne_nil (h.wrapped line List.mem_cons_self).words_ne
  rw [hline, List.cons_append] at hwords
  exact ⟨more, by rw [hline, (List.cons.inj hwords).1]⟩

theorem isWrapped_of_isOneWord {w : String} (h : IsOneWord w) : IsWrapped width w := by
  rw [IsOneWord] at h
  exact ⟨by simp [h], by rw [h, String.intercalate_singleton], .inr ⟨w, h⟩⟩

theorem IsWrapped.ne_empty {line : String} (h : IsWrapped width line) : line.isEmpty = false := by
  rw [String.isEmpty_eq_false_iff]
  rintro rfl
  exact h.words_ne rfl

/-- A line goes on with a word as long as it fits. -/
theorem IsWrapped.concat {line w : String} (hline : IsWrapped width line) (hw : IsOneWord w)
    (hfits : ¬width.extended < Text.width (line ++ " " ++ w)) :
    IsWrapped width (line ++ " " ++ w) := by
  have hwords : words (line ++ " " ++ w) = words line ++ [w] := by rw [words_append_space, hw]
  refine ⟨?_, ?_, .inl (not_lt.mp hfits)⟩
  · rw [hwords]
    exact List.append_ne_nil_of_left_ne_nil hline.words_ne _
  · rw [hwords, intercalate_concat hline.words_ne, hline.spaced]

/-- **The loop keeps that the line that has been begun may be given out.** Its words are followed by
those that remain. -/
theorem greedy_wrapFrom {line : String} {rest : List String} (hline : IsWrapped width line)
    (hrest : ∀ w ∈ rest, IsOneWord w) :
    Greedy width (words line ++ rest) (wrapFrom width line rest) := by
  induction rest generalizing line with
  | nil =>
    rw [wrapFrom, if_neg (by simp [hline.ne_empty])]
    exact ⟨by simp, List.forall_mem_singleton.mpr hline, List.isChain_singleton line⟩
  | cons w rest ih =>
    obtain ⟨hw, hrest⟩ := List.forall_mem_cons.mp hrest
    rw [wrapFrom, hline.ne_empty]
    cases hbelow : width.isBelow (Text.width (line ++ " " ++ w)) with
    | false =>
      have hconcat : IsWrapped width (line ++ " " ++ w) := by
        apply hline.concat hw
        rw [← Binary64.isBelow_iff, hbelow]
        exact Bool.false_ne_true
      have hgreedy := ih hconcat hrest
      rw [words_append_space, hw, List.append_assoc] at hgreedy
      simpa [hbelow] using hgreedy
    | true =>
      -- the line is given out, and the word begins a line of its own
      have hword : IsWrapped width w := isWrapped_of_isOneWord hw
      have hgreedy := ih hword hrest
      rw [hw, List.singleton_append] at hgreedy
      have hfull : ∀ next ∈ (wrapFrom width w rest).head?, IsFull width line next := by
        intro next hnext
        obtain ⟨lines, hlines⟩ := List.head?_eq_some_iff.mp hnext
        rw [hlines] at hgreedy
        obtain ⟨more, hmore⟩ := hgreedy.exists_first
        exact ⟨w, more, hmore, Binary64.isBelow_iff.mp hbelow⟩
      simp only [hbelow, Bool.not_false, Bool.and_self, if_true, Bool.false_eq_true, if_false]
      exact ⟨by rw [List.flatMap_cons, hgreedy.lossless],
        List.forall_mem_cons.mpr ⟨hline, hgreedy.wrapped⟩,
        List.isChain_cons.mpr ⟨hfull, hgreedy.full⟩⟩

/-- The lines of a text at any width. -/
theorem greedy_wrap (width : Binary64) (s : String) : Greedy width (words s) (wrap width s) := by
  have hwords : ∀ w ∈ words s, IsOneWord w := fun w hw => isOneWord_of_mem_words hw
  rw [wrap]
  cases hs : words s with
  | nil => exact ⟨rfl, nofun, .nil⟩
  | cons w rest =>
    rw [hs] at hwords
    obtain ⟨hw, hrest⟩ := List.forall_mem_cons.mp hwords
    have hword : IsWrapped width w := isWrapped_of_isOneWord hw
    have hgreedy := greedy_wrapFrom hword hrest
    rw [hw, List.singleton_append] at hgreedy
    -- the first word is put on a line whatever its width is
    have hfirst : wrapFrom width "" (w :: rest) = wrapFrom width w rest := by
      rw [wrapFrom]
      simp
    rwa [hfirst]

/-! ## Only one way to wrap -/

theorem Greedy.tail {ws lines : List String} {line : String} (h : Greedy width ws (line :: lines)) :
    Greedy width (lines.flatMap words) lines :=
  ⟨rfl, fun l hl => h.wrapped l (List.mem_cons_of_mem line hl), h.full.tail⟩

theorem Greedy.eq_nil {lines : List String} (h : Greedy width [] lines) : lines = [] := by
  cases lines with
  | nil => rfl
  | cons line lines =>
    have hwords : words line ++ lines.flatMap words = [] := h.lossless
    exact absurd (List.append_eq_nil_iff.mp hwords).1 (h.wrapped line List.mem_cons_self).words_ne

/-- The first line can not have more words than the first line of another such list: the next word
would have fit on the other line as well. -/
theorem Greedy.not_longer {ws lines lines' : List String} {line line' : String}
    (h : Greedy width ws (line :: lines)) (h' : Greedy width ws (line' :: lines')) (w : String)
    (more : List String) : words line' ≠ words line ++ w :: more := by
  intro hlonger
  have hline := h.wrapped line List.mem_cons_self
  have hline' := h'.wrapped line' List.mem_cons_self
  -- the word is the first that is not on the shorter line
  have hnext : lines.flatMap words = w :: (more ++ lines'.flatMap words) := by
    have hboth := h.lossless.trans h'.lossless.symm
    rw [List.flatMap_cons, List.flatMap_cons, hlonger, List.append_assoc] at hboth
    exact List.append_cancel_left hboth
  have hfull : width.extended < Text.width (line ++ " " ++ w) := by
    cases lines with
    | nil => cases hnext
    | cons next lines =>
      obtain ⟨w', ws', hw', hfull⟩ := (List.isChain_cons_cons.mp h.full).1
      rw [List.flatMap_cons, hw'] at hnext
      rwa [(List.cons.inj hnext).1] at hfull
  -- the longer line has two words at least, so it fits; it begins with the shorter one and the word
  have hfits : (Text.width line' : WithBot (WithTop ℚ)) ≤ width.extended := by
    refine hline'.fits.resolve_right ?_
    rintro ⟨single, hsingle⟩
    obtain ⟨first, rest, hwords⟩ := List.exists_cons_of_ne_nil hline.words_ne
    rw [hlonger, hwords] at hsingle
    simp at hsingle
  have hprefix : Text.width (line ++ " " ++ w) ≤ Text.width line' := by
    have hstart := prefix_intercalate " " hline.words_ne w more
    rw [← hlonger, hline.spaced, hline'.spaced] at hstart
    exact width_le_of_prefix hstart
  exact absurd (hfull.trans_le (Nat.cast_le.mpr hprefix)) (not_lt.mpr hfits)

/-- **Lines that break as late as they can are the only ones.** -/
theorem Greedy.unique {ws lines lines' : List String} (h : Greedy width ws lines)
    (h' : Greedy width ws lines') : lines = lines' := by
  induction lines generalizing ws lines' with
  | nil =>
    obtain rfl : [] = ws := h.lossless
    exact h'.eq_nil.symm
  | cons line lines ih =>
    cases lines' with
    | nil =>
      obtain rfl : [] = ws := h'.lossless
      exact h.eq_nil
    | cons line' lines' =>
      have hboth := h.lossless.trans h'.lossless.symm
      rw [List.flatMap_cons, List.flatMap_cons] at hboth
      have hwords : words line = words line' := by
        rcases List.append_eq_append_iff.mp hboth with ⟨more, hmore, -⟩ | ⟨more, hmore, -⟩
        · cases more with
          | nil => rw [hmore, List.append_nil]
          | cons w more => exact absurd hmore (h.not_longer h' w more)
        · cases more with
          | nil => rw [hmore, List.append_nil]
          | cons w more => exact absurd hmore (h'.not_longer h w more)
      have hline : line = line' := by
        rw [← (h.wrapped line List.mem_cons_self).spaced, hwords,
          (h'.wrapped line' List.mem_cons_self).spaced]
      rw [hwords] at hboth
      have htail := h'.tail
      rw [← List.append_cancel_left hboth] at htail
      rw [hline, ih h.tail htail]

/-- **Wrapping is lossless and greedy.** The words of the lines are those of the text. Every line is
made from its words with one space in between, and is no longer than the width unless it is a single
word. The first word of a line does not fit on the line before it. No other lines are like this. -/
theorem words_wrapped (width : Binary64) (s : String) :
    (wrap width s).flatMap words = words s
      ∧ (∀ line ∈ wrap width s, " ".intercalate (words line) = line
        ∧ ((Text.width line : WithBot (WithTop ℚ)) ≤ width.extended ∨ ∃ w, words line = [w]))
      ∧ (wrap width s).IsChain (fun line next =>
        ∃ w ws, words next = w :: ws ∧ width.extended < Text.width (line ++ " " ++ w))
      ∧ ∀ lines, Greedy width (words s) lines ↔ lines = wrap width s := by
  have hgreedy := greedy_wrap width s
  refine ⟨hgreedy.lossless, ?_, hgreedy.full, fun lines => ⟨fun h => h.unique hgreedy, ?_⟩⟩
  · intro line hline
    have hwrapped := hgreedy.wrapped line hline
    exact ⟨hwrapped.spaced, hwrapped.fits⟩
  · rintro rfl
    exact hgreedy

/-- Lengths count code units, of which the first word has four, and a word that is too long for the
width stands alone. -/
theorem words_wrapped_notice :
    wrap (.ofInt 5) "🎉🎉 a  extraordinary\tb c" = ["🎉🎉", "a", "extraordinary", "b c"]
      ∧ ((Text.width "b c" : WithBot (WithTop ℚ)) ≤ (Binary64.ofInt 5).extended
        ∨ ∃ w, words "b c" = [w])
      ∧ Greedy (.ofInt 5) (words "🎉🎉 a  extraordinary\tb c")
        ["🎉🎉", "a", "extraordinary", "b c"] := by
  have hlines : wrap (.ofInt 5) "🎉🎉 a  extraordinary\tb c"
      = ["🎉🎉", "a", "extraordinary", "b c"] := by decide +kernel
  obtain ⟨-, hlayout, -, hgreedy⟩ := words_wrapped (.ofInt 5) "🎉🎉 a  extraordinary\tb c"
  have hline : "b c" ∈ wrap (.ofInt 5) "🎉🎉 a  extraordinary\tb c" := by
    rw [hlines]
    simp
  exact ⟨hlines, (hlayout "b c" hline).2, (hgreedy _).mpr hlines.symm⟩

end Terminal
end WireModel
