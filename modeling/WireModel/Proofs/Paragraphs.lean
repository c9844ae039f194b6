import Mathlib.Data.List.DropRight
import WireModel.Description
import WireModel.Text.Lines
import WireModel.Proofs.Forms

/-!
# Reading descriptions

A description is read in three steps. Blank lines cut its text into parts, the white space of each
part is folded, and a scan takes the references out of what is left.

* The cuts take a line feed, blanks and a second line feed, and do not overlap, so that a part may
  begin or end with a blank line that another cut has left. Folding removes such a line
  (`words_unlines`), and the parts that remain are the runs of lines that are not blank
  (`paragraphTexts_eq`).
* The pieces of a paragraph are its only leftmost decomposition (`leftmost_iff`).

**`Description.parse_leftmost`** puts the steps together.
-/

namespace WireModel

/-! ## White space -/

namespace Text

/-- Every run of white space becomes one space: its last character does, and the others go. -/
def collapseChars : List Char → List Char
  | [] => []
  | c :: cs =>
    if isBlank c then
      if cs.head?.any isBlank then collapseChars cs else ' ' :: collapseChars cs
    else c :: collapseChars cs

@[inherit_doc collapseChars]
def collapse (s : String) : String := String.ofList (collapseChars s.toList)

/-- The words of a list of characters. -/
def wordLists (cs : List Char) : List (List Char) :=
  (cs.splitOnP isBlank).filter fun w => !w.isEmpty

/-- The words of a list of characters with a space between them. -/
def joined (cs : List Char) : List Char := [' '].intercalate (wordLists cs)

theorem toList_fold (s : String) : (fold s).toList = joined s.toList := by
  rw [fold, String.toList_intercalate, words, List.map_map]
  simp [joined, wordLists, Function.comp_def]

/-- **Words end at white space.** -/
theorem wordLists_append_cons {c : Char} (hc : isBlank c = true) (xs ys : List Char) :
    wordLists (xs ++ c :: ys) = wordLists xs ++ wordLists ys := by
  rw [wordLists, List.splitOnP_append_cons xs ys hc, List.filter_append]
  rfl

theorem wordLists_cons_blank {c : Char} (hc : isBlank c = true) (cs : List Char) :
    wordLists (c :: cs) = wordLists cs :=
  wordLists_append_cons hc [] cs

/-- The parts of a list that is cut hold nothing that it is cut at. -/
theorem eq_false_of_mem_splitOnP {α : Type} {p : α → Bool} {xs part : List α}
    (h : part ∈ xs.splitOnP p) : ∀ x ∈ part, p x = false := by
  induction xs generalizing part with
  | nil => simp_all
  | cons y xs ih =>
    rw [List.splitOnP_cons_eq_if_modifyHead] at h
    split at h
    · rcases List.mem_cons.mp h with rfl | h
      · nofun
      · exact ih h
    · next hy =>
      obtain ⟨first, more, hsplit⟩ := List.exists_cons_of_ne_nil (List.splitOnP_ne_nil p xs)
      rw [hsplit] at h ih
      rcases List.mem_cons.mp h with rfl | h
      · exact List.forall_mem_cons.mpr ⟨by simpa using hy, ih List.mem_cons_self⟩
      · exact ih (List.mem_cons_of_mem first h)

/-- All white space of a folded text is spaces. -/
theorem eq_space_of_mem_fold {s : String} {c : Char} (hc : c ∈ (fold s).toList)
    (hblank : isBlank c = true) : c = ' ' := by
  rw [toList_fold] at hc
  have hjoined : ∀ c ∈ joined s.toList, isBlank c = true → c = ' ' := by
    apply intercalate_induction (P := fun cs => ∀ c ∈ cs, isBlank c = true → c = ' ')
    · nofun
    · simp
    · intro xs ys hxs hys
      exact List.forall_mem_append.mpr ⟨hxs, hys⟩
    · intro word hword d hd hblank
      rw [eq_false_of_mem_splitOnP (List.mem_filter.mp hword).1 d hd] at hblank
      cases hblank
  exact hjoined c hc hblank

theorem wordLists_eq_nil {cs : List Char} (h : ∀ c ∈ cs, isBlank c = true) :
    wordLists cs = [] := by
  induction cs with
  | nil => rfl
  | cons c cs ih =>
    rw [wordLists_cons_blank (h c List.mem_cons_self)]
    exact ih fun a ha => h a (List.mem_cons_of_mem c ha)

/-- The space between a character and the words after it. -/
def gap (cs : List Char) : List Char :=
  if cs.head?.any isBlank && !(wordLists cs).isEmpty then [' '] else []

theorem joined_cons {c : Char} (hc : isBlank c = false) (cs : List Char) :
    joined (c :: cs) = c :: (gap cs ++ joined cs) := by
  cases cs with
  | nil => simp [joined, gap, wordLists, List.splitOnP_cons_eq_if_modifyHead, hc]
  | cons d ds =>
    cases hd : isBlank d with
    | true =>
      -- the character is a word of its own
      have hword : wordLists [c] = [[c]] := by
        simp [wordLists, List.splitOnP_cons_eq_if_modifyHead, hc]
      have hwords : wordLists (c :: d :: ds) = [c] :: wordLists ds := by
        rw [← List.singleton_append, wordLists_append_cons hd, hword, List.singleton_append]
      have hgap : gap (d :: ds) = if (wordLists ds).isEmpty then [] else [' '] := by
        rw [gap, wordLists_cons_blank hd]
        cases (wordLists ds).isEmpty <;> simp [hd]
      rw [joined, joined, hwords, wordLists_cons_blank hd, hgap]
      cases wordLists ds with
      | nil => rfl
      | cons w ws => rw [List.intercalate_cons_cons]; rfl
    | false =>
      -- the character is put in front of the first word
      obtain ⟨w, ws, hsplit⟩ := List.exists_cons_of_ne_nil (List.splitOnP_ne_nil isBlank ds)
      have hgap : gap (d :: ds) = [] := by simp [gap, hd]
      rw [hgap, List.nil_append, joined, joined, wordLists, wordLists]
      simp only [List.splitOnP_cons_eq_if_modifyHead, hc, hd, hsplit, List.modifyHead_cons]
      cases hws : ws.filter fun w => !w.isEmpty with
      | nil => simp [hws]
      | cons x xs => simp [hws, List.intercalate_cons_cons]

theorem joined_cons_blank {c : Char} (hc : isBlank c = true) (cs : List Char) :
    joined (c :: cs) = joined cs := by
  rw [joined, wordLists_cons_blank hc, joined]

theorem joined_eq_nil_iff {cs : List Char} : joined cs = [] ↔ wordLists cs = [] := by
  refine ⟨fun h => ?_, fun h => by rw [joined, h]; rfl⟩
  cases hwords : wordLists cs with
  | nil => rfl
  | cons w ws =>
    have hw : w ≠ [] := by
      have hmem : w ∈ wordLists cs := hwords ▸ List.mem_cons_self
      simpa using (List.mem_filter.mp hmem).2
    rw [joined, hwords, Name.intercalate_cons_eq_flatMap] at h
    exact absurd (List.append_eq_nil_iff.mp h).1 hw

theorem rdropWhile_cons (p : Char → Bool) (c : Char) (cs : List Char) :
    (c :: cs).rdropWhile p
      = if p c && (cs.rdropWhile p).isEmpty then [] else c :: cs.rdropWhile p := by
  rw [List.rdropWhile, List.reverse_cons, List.dropWhile_append, List.rdropWhile]
  cases cs.reverse.dropWhile p with
  | nil => cases hc : p c <;> simp [hc]
  | cons d ds => simp

/-- The white space at the end of a collapsed text is one space at most, and without it the text
consists of its words. -/
theorem rdropWhile_collapseChars (cs : List Char) :
    (collapseChars cs).rdropWhile isBlank = gap cs ++ joined cs := by
  induction cs with
  | nil => rfl
  | cons c cs ih =>
    cases hc : isBlank c with
    | false =>
      have hgap : gap (c :: cs) = [] := by simp [gap, hc]
      have hcollapse : collapseChars (c :: cs) = c :: collapseChars cs := by
        simp [collapseChars, hc]
      rw [hgap, List.nil_append, joined_cons hc, hcollapse, rdropWhile_cons, hc, ih]
      rfl
    | true =>
      rw [joined_cons_blank hc]
      cases hnext : cs.head?.any isBlank with
      | true =>
        have hgap : gap (c :: cs) = gap cs := by
          simp [gap, hc, hnext, wordLists_cons_blank hc]
        have hcollapse : collapseChars (c :: cs) = collapseChars cs := by
          simp [collapseChars, hc, hnext]
        rw [hgap, hcollapse, ih]
      | false =>
        -- the run of white space ends here: its space stays iff a word follows
        have hgap : gap cs = [] := by simp [gap, hnext]
        have hcollapse : collapseChars (c :: cs) = ' ' :: collapseChars cs := by
          simp [collapseChars, hc, hnext]
        rw [hcollapse, rdropWhile_cons, ih, hgap, List.nil_append, gap, wordLists_cons_blank hc]
        by_cases hwords : wordLists cs = []
        · have hspace : isBlank ' ' = true := by decide
          simp [joined_eq_nil_iff.mpr hwords, hwords, hspace]
        · have hjoined : joined cs ≠ [] := fun h => hwords (joined_eq_nil_iff.mp h)
          simp [hwords, hjoined, hc]

theorem dropWhile_collapseChars (cs : List Char) :
    (collapseChars cs).dropWhile isBlank = collapseChars (cs.dropWhile isBlank) := by
  induction cs with
  | nil => rfl
  | cons c cs ih =>
    cases hc : isBlank c with
    | false => simp [collapseChars, hc]
    | true =>
      have hspace : isBlank ' ' = true := by decide
      rw [List.dropWhile_cons_of_pos hc, ← ih, collapseChars, if_pos hc]
      split
      · rfl
      · rw [List.dropWhile_cons_of_pos hspace]

theorem joined_dropWhile (cs : List Char) : joined (cs.dropWhile isBlank) = joined cs := by
  induction cs with
  | nil => rfl
  | cons c cs ih =>
    cases hc : isBlank c with
    | false => rw [List.dropWhile_cons_of_neg (by simp [hc])]
    | true => rw [List.dropWhile_cons_of_pos hc, ih, joined_cons_blank hc]

/-- **Folding collapses white space and trims the ends.** -/
theorem trim_collapse (s : String) : trim (collapse s) = fold s := by
  -- the text begins with a word once the white space at its front is dropped
  have hgap : gap (s.toList.dropWhile isBlank) = [] := by
    have hhead := List.head?_dropWhile_not isBlank s.toList
    rw [gap]
    cases hfirst : (s.toList.dropWhile isBlank).head? with
    | none => rfl
    | some c =>
      rw [hfirst] at hhead
      simp [hhead]
  have htrim : (trim (collapse s)).toList
      = ((collapseChars s.toList).dropWhile isBlank).rdropWhile isBlank := by
    simp [trim, trimEnd, collapse, List.rdropWhile]
  apply String.toList_injective
  rw [htrim, dropWhile_collapseChars, rdropWhile_collapseChars, hgap, List.nil_append,
    joined_dropWhile, toList_fold]

theorem words_eq (s : String) : words s = (wordLists s.toList).map String.ofList := rfl

theorem fold_congr {s u : String} (h : words s = words u) : fold s = fold u :=
  congrArg (" ".intercalate) h

theorem toList_unlines_cons (l : String) (ls : List String) :
    (unlines (l :: ls)).toList = l.toList ++ ls.flatMap ('\n' :: ·.toList) := by
  have hseparator : "\n".toList = ['\n'] := rfl
  rw [unlines, String.toList_intercalate, List.map_cons, hseparator,
    Name.intercalate_cons_eq_flatMap, List.flatMap_map]

theorem lines_ne_nil (s : String) : lines s ≠ [] := by
  simp [lines]

theorem unlines_lines (s : String) : unlines (lines s) = s := by
  have hseparator : "\n".toList = ['\n'] := rfl
  apply String.toList_injective
  simp [unlines, lines, String.toList_intercalate, List.map_map, Function.comp_def, hseparator,
    List.intercalate_splitOn]

theorem not_mem_of_mem_lines {s l : String} (h : l ∈ lines s) : '\n' ∉ l.toList := by
  obtain ⟨part, hpart, rfl⟩ := List.mem_map.mp h
  rw [String.toList_ofList]
  intro hmem
  rw [List.splitOn_eq_splitOnP] at hpart
  simpa using eq_false_of_mem_splitOnP hpart _ hmem

/-- The words of a text are those of its lines. -/
theorem words_unlines (ls : List String) : words (unlines ls) = ls.flatMap words := by
  have hbreak : isBlank '\n' = true := by decide
  have hwords : ∀ (more : List String) (cs : List Char),
      wordLists (cs ++ more.flatMap ('\n' :: ·.toList))
        = wordLists cs ++ more.flatMap (wordLists ·.toList) := by
    intro more cs
    induction more generalizing cs with
    | nil => simp
    | cons l more ih =>
      rw [List.flatMap_cons, List.cons_append, wordLists_append_cons hbreak, ih, List.flatMap_cons]
  cases ls with
  | nil => rfl
  | cons l ls =>
    rw [words_eq, toList_unlines_cons, hwords, List.map_append, List.map_flatMap]
    rfl

end Text

/-! ## Lines -/

namespace Description

/-- A line that is empty or consists of spaces and tabs. -/
def isBlankLine (l : String) : Bool := l.toList.all isLineBlank

/-- The maximal runs of consecutive lines of a text that are not blank. -/
def runs (s : String) : List (List String) :=
  ((Text.lines s).splitOnP isBlankLine).filter fun run => !run.isEmpty

/-- The paragraphs of a text: its runs of lines, with the white space collapsed and trimmed. A run
that holds nothing but white space is no paragraph. -/
def paragraphsOf (s : String) : List String :=
  ((runs s).map fun run => Text.trim (Text.collapse (Text.unlines run))).filter fun p => !p.isEmpty

/-- The texts with their white space folded, less those that hold nothing else. -/
def folded (texts : List String) : List String :=
  (texts.map Text.fold).filter fun p => !p.isEmpty

theorem folded_append (xs ys : List String) : folded (xs ++ ys) = folded xs ++ folded ys := by
  rw [folded, List.map_append, List.filter_append, folded, folded]

theorem paragraphTexts_eq_folded (s : String) :
    paragraphTexts s = folded ((cut [] s.toList).map String.ofList) := by
  rw [paragraphTexts, folded, List.map_map]
  rfl

theorem paragraphsOf_eq_folded (s : String) :
    paragraphsOf s = folded (((Text.lines s).splitOnP isBlankLine).map Text.unlines) := by
  simp only [paragraphsOf, runs, folded, Text.trim_collapse, List.map_map, List.filter_map,
    List.filter_filter]
  refine congrArg _ (List.filter_congr fun run _ => ?_)
  cases run with
  | nil => rfl
  | cons l ls => simp

theorem words_of_isBlankLine {l : String} (h : isBlankLine l = true) : Text.words l = [] := by
  have hblank : ∀ c, isLineBlank c = true → Text.isBlank c = true := by
    intro c hc
    simp only [isLineBlank, Bool.or_eq_true, beq_iff_eq] at hc
    rcases hc with rfl | rfl <;> decide
  rw [Text.words_eq, Text.wordLists_eq_nil fun c hc => hblank c (List.all_eq_true.mp h c hc)]
  rfl

/-! ### Cuts -/

theorem afterBlankLine?_eq_none {cs : List Char} (h : '\n' ∉ cs) : afterBlankLine? cs = none := by
  unfold afterBlankLine?
  split
  · next rest hdrop =>
    have hmem : '\n' ∈ cs.dropWhile isLineBlank := by rw [hdrop]; exact List.mem_cons_self
    exact absurd ((List.dropWhile_sublist isLineBlank).subset hmem) h
  · rfl

theorem afterBlankLine?_append {l : String} (h : '\n' ∉ l.toList) (cs : List Char) :
    afterBlankLine? (l.toList ++ '\n' :: cs) = if isBlankLine l then some cs else none := by
  have hbreak : isLineBlank '\n' = false := by decide
  rw [afterBlankLine?, List.dropWhile_append]
  cases hdrop : l.toList.dropWhile isLineBlank with
  | nil =>
    have hblank : isBlankLine l = true := List.all_eq_true.mpr (List.dropWhile_eq_nil_iff.mp hdrop)
    simp [hbreak, hblank]
  | cons c rest =>
    have hmem : c ∈ l.toList.dropWhile isLineBlank := by rw [hdrop]; exact List.mem_cons_self
    have hc : c ≠ '\n' := by
      intro heq
      exact h (heq ▸ (List.dropWhile_sublist isLineBlank).subset hmem)
    have hblank : isBlankLine l = false := by
      rw [isBlankLine, ← Bool.not_eq_true]
      intro hall
      rw [List.dropWhile_eq_nil_iff.mpr (List.all_eq_true.mp hall)] at hdrop
      cases hdrop
    simp [hblank, hc]

theorem cut_append {l : List Char} (h : '\n' ∉ l) (part cs : List Char) :
    cut part (l ++ cs) = cut (l.reverse ++ part) cs := by
  induction l generalizing part with
  | nil => rfl
  | cons c l ih =>
    have hc : c ≠ '\n' := fun heq => h (heq ▸ List.mem_cons_self)
    rw [List.cons_append, cut, if_neg hc, ih fun hmem => h (List.mem_cons_of_mem c hmem)]
    simp

theorem cut_cons_of_some {part cs rest : List Char} (h : afterBlankLine? cs = some rest) :
    cut part ('\n' :: cs) = part.reverse :: cut [] rest := by
  rw [cut, if_pos rfl]
  split <;> simp_all

theorem cut_cons_of_none {part cs : List Char} (h : afterBlankLine? cs = none) :
    cut part ('\n' :: cs) = cut ('\n' :: part) cs := by
  rw [cut, if_pos rfl]
  split <;> simp_all

/-- A line that no cut takes is read as one more line of the part. -/
theorem cut_line {l : String} (hl : '\n' ∉ l.toList) {cs : List Char}
    (hafter : afterBlankLine? (l.toList ++ cs) = none) (first : String) (more : List String) :
    cut (Text.unlines (first :: more)).toList.reverse ('\n' :: (l.toList ++ cs))
      = cut (Text.unlines (first :: (more ++ [l]))).toList.reverse cs := by
  rw [cut_cons_of_none hafter, cut_append hl, Text.toList_unlines_cons, Text.toList_unlines_cons,
    List.flatMap_append, List.flatMap_singleton]
  simp

/-- A part that is opened by any line and goes on with lines that are not blank has the paragraph
of its run. -/
theorem folded_part {first : String} {more : List String}
    (hmore : ∀ l ∈ more, isBlankLine l = false) :
    folded [Text.unlines (first :: more)]
      = folded (((first :: more).splitOnP isBlankLine).map Text.unlines) := by
  cases hfirst : isBlankLine first with
  | false =>
    rw [List.splitOnP_eq_singleton (List.forall_mem_cons.mpr ⟨hfirst, hmore⟩)]
    rfl
  | true =>
    -- the blank line is a run of its own, which is empty, and has no words
    have hwords : Text.words (Text.unlines (first :: more)) = Text.words (Text.unlines more) := by
      rw [Text.words_unlines, List.flatMap_cons, words_of_isBlankLine hfirst, Text.words_unlines]
      rfl
    rw [List.splitOnP_cons_eq_if_modifyHead, if_pos hfirst, List.splitOnP_eq_singleton hmore]
    show folded [_] = folded ([Text.unlines []] ++ [Text.unlines more])
    rw [folded_append, folded, List.map_singleton, Text.fold_congr hwords]
    rfl

/-- A part that ends the text may also end with a blank line. -/
theorem folded_last {first : String} {more : List String}
    (hmore : ∀ l ∈ more, isBlankLine l = false) (l : String) :
    folded [Text.unlines (first :: (more ++ [l]))]
      = folded (((first :: (more ++ [l])).splitOnP isBlankLine).map Text.unlines) := by
  cases hl : isBlankLine l with
  | false =>
    apply folded_part
    simpa [or_imp, forall_and] using ⟨hmore, hl⟩
  | true =>
    have hwords : Text.words (Text.unlines (first :: (more ++ [l])))
        = Text.words (Text.unlines (first :: more)) := by
      simp [Text.words_unlines, words_of_isBlankLine hl]
    have hsplit : (first :: (more ++ [l])).splitOnP isBlankLine
        = (first :: more).splitOnP isBlankLine ++ [[]] :=
      List.splitOnP_append_cons (first :: more) [] hl
    rw [hsplit, List.map_append, folded_append, ← folded_part hmore, folded, List.map_singleton,
      Text.fold_congr hwords]
    exact (List.append_nil _).symm

/-- **Cuts at blank lines give the runs of lines.** The lines `first` and `more` have been read
since the last cut, which may have left a blank line to begin with. -/
theorem folded_cut (rest : List String) (hrest : ∀ l ∈ rest, '\n' ∉ l.toList) (first : String)
    (more : List String) (hmore : ∀ l ∈ more, isBlankLine l = false) :
    folded ((cut (Text.unlines (first :: more)).toList.reverse
        (rest.flatMap ('\n' :: ·.toList))).map String.ofList)
      = folded (((first :: (more ++ rest)).splitOnP isBlankLine).map Text.unlines) := by
  match rest with
  | [] =>
    rw [List.flatMap_nil, cut, List.reverse_reverse, List.append_nil, ← folded_part hmore]
    simp
  | [l] =>
    -- no line feed follows, so that the last line is kept even if it is blank
    have hl : '\n' ∉ l.toList := hrest l List.mem_cons_self
    have hafter : afterBlankLine? (l.toList ++ []) = none := by
      rw [List.append_nil]
      exact afterBlankLine?_eq_none hl
    show folded ((cut _ ('\n' :: (l.toList ++ []))).map String.ofList) = _
    rw [cut_line hl hafter, cut, List.reverse_reverse, ← folded_last hmore]
    simp
  | l :: next :: rest =>
    have hl : '\n' ∉ l.toList := hrest l List.mem_cons_self
    have hafter := afterBlankLine?_append hl (next.toList ++ rest.flatMap ('\n' :: ·.toList))
    show folded ((cut _ ('\n' :: (l.toList ++ '\n' :: (next.toList
      ++ rest.flatMap ('\n' :: ·.toList))))).map String.ofList) = _
    cases hblank : isBlankLine l with
    | true =>
      -- the cut takes the line, and the next part begins with the line after it
      have hnext : '\n' ∉ next.toList := hrest next (by simp)
      have ih := folded_cut rest (fun x hx => hrest x (by simp [hx])) next [] (by simp)
      have hsplit : (first :: (more ++ l :: next :: rest)).splitOnP isBlankLine
          = (first :: more).splitOnP isBlankLine ++ (next :: rest).splitOnP isBlankLine :=
        List.splitOnP_append_cons (first :: more) (next :: rest) hblank
      rw [hblank, if_pos rfl] at hafter
      rw [cut_cons_of_some hafter, List.reverse_reverse, cut_append hnext, hsplit, List.map_append,
        folded_append, ← folded_part hmore]
      have hopened : (Text.unlines [next]).toList.reverse = next.toList.reverse ++ [] := by
        simp [Text.toList_unlines_cons]
      rw [hopened] at ih
      rw [List.map_cons, String.ofList_toList, ← List.singleton_append, folded_append, ih]
      rfl
    | false =>
      have ih := folded_cut (next :: rest) (fun x hx => hrest x (List.mem_cons_of_mem l hx)) first
        (more ++ [l]) (by simpa [or_imp, forall_and] using ⟨hmore, hblank⟩)
      rw [hblank, if_neg Bool.false_ne_true] at hafter
      rw [cut_line hl hafter]
      simpa using ih

theorem paragraphTexts_eq (s : String) : paragraphTexts s = paragraphsOf s := by
  obtain ⟨first, rest, hlines⟩ := List.exists_cons_of_ne_nil (Text.lines_ne_nil s)
  have hfree : ∀ l ∈ first :: rest, '\n' ∉ l.toList := hlines ▸ fun l => Text.not_mem_of_mem_lines
  have htext : s.toList = first.toList ++ rest.flatMap ('\n' :: ·.toList) := by
    rw [← Text.toList_unlines_cons, ← hlines, Text.unlines_lines]
  have hopened : (Text.unlines [first]).toList.reverse = first.toList.reverse ++ [] := by
    simp [Text.toList_unlines_cons]
  have hcut := folded_cut rest (fun l hl => hfree l (List.mem_cons_of_mem first hl)) first []
    (by simp)
  rw [paragraphTexts_eq_folded, paragraphsOf_eq_folded, hlines, htext,
    cut_append (hfree first List.mem_cons_self), ← hopened, hcut, List.nil_append]

/-- A line that holds a no-break space is not blank: it parts no paragraphs, and is none. -/
example : paragraphTexts " \n\tA  line,\n\u00a0\nand more\n\n \n\t\n\u00a0\n\nThe rest\r\n\t"
    = ["A line, and more", "The rest"] := by
  decide +kernel

/-! ## References -/

/-- A reference has a target, which holds no backquote. -/
structure IsReference (r : Mention) : Prop where
  target_ne : r.target ≠ ""
  backquote_not_mem : backquote ∉ r.target.toList

/-- A reference stands at the start of a text. -/
def StartsReference (cs : List Char) : Prop :=
  ∃ r : Mention, IsReference r ∧ r.text.toList <+: cs

/-- The characters that a piece was read from. -/
def Piece.source : Piece → List Char
  | .text s => s.toList
  | .mention r => r.text.toList

/-- The reference that a piece is. -/
def Piece.mention? : Piece → Option Mention
  | .text _ => none
  | .mention r => some r

/-- The pieces are the leftmost decomposition of a text into references and plain text. -/
structure Leftmost (text : List Char) (ps : List Piece) : Prop where
  /-- Nothing is lost. -/
  source_eq : ps.flatMap Piece.source = text
  isReference : ∀ r, .mention r ∈ ps → IsReference r
  text_ne : ∀ s, .text s ∈ ps → s ≠ ""
  /-- Plain text is not broken into several pieces. -/
  apart : ps.IsChain fun p q => p.mention?.isSome ∨ q.mention?.isSome
  /-- No reference starts inside plain text: `u` is what precedes a place in a piece, and `v` what
  follows it there. -/
  not_startsReference : ∀ before s after u v, ps = before ++ .text s :: after →
    s.toList = u ++ v → v ≠ [] → ¬StartsReference (v ++ after.flatMap Piece.source)

theorem dropLead?_eq_some_iff {lead cs rest : List Char} :
    dropLead? lead cs = some rest ↔ cs = lead ++ rest := by
  fun_induction dropLead? lead cs with
  | case1 cs => simp
  | case2 p ps cs ih => simpa using ih
  | case3 p ps c cs hne => simpa using fun heq : c = p => absurd heq.symm hne
  | case4 p ps => simp

theorem targetOf?_append {target : List Char} (h : backquote ∉ target) (rest : List Char) :
    targetOf? (target ++ backquote :: rest)
      = if target.isEmpty then none else some (String.ofList target, rest) := by
  have hne : ∀ c ∈ target, (c != backquote) = true := by
    intro c hc
    exact bne_iff_ne.mpr fun heq => h (heq ▸ hc)
  have htake : (target ++ backquote :: rest).takeWhile (· != backquote) = target := by
    rw [List.takeWhile_append_of_pos hne, List.takeWhile_cons_of_neg (by simp), List.append_nil]
  have hdrop : (target ++ backquote :: rest).dropWhile (· != backquote) = backquote :: rest := by
    rw [List.dropWhile_append_of_pos hne, List.dropWhile_cons_of_neg (by simp)]
  rw [targetOf?, htake, hdrop]

theorem targetOf?_eq_some_iff {cs rest : List Char} {target : String} :
    targetOf? cs = some (target, rest)
      ↔ (target ≠ "" ∧ backquote ∉ target.toList) ∧ cs = target.toList ++ backquote :: rest := by
  refine ⟨fun h => ?_, fun ⟨⟨hne, hfree⟩, hcs⟩ => ?_⟩
  · have hcs := List.takeWhile_append_dropWhile (p := (· != backquote)) (l := cs)
    have hfree : backquote ∉ cs.takeWhile (· != backquote) := by
      intro hmem
      simpa using List.mem_takeWhile_imp hmem
    cases hdrop : cs.dropWhile (· != backquote) with
    | nil => simp [targetOf?, hdrop] at h
    | cons c after =>
      have hc : c = backquote := by
        have hhead := List.head?_dropWhile_not (· != backquote) cs
        simpa [hdrop] using hhead
      rw [hdrop, hc] at hcs
      rw [← hcs, targetOf?_append hfree] at h
      split at h
      · cases h
      · next hne =>
        cases h
        rw [String.toList_ofList]
        exact ⟨⟨by simpa [String.ext_iff] using hne, hfree⟩, hcs.symm⟩
  · have htarget : target.toList.isEmpty = false := by simpa using hne
    rw [hcs, targetOf?_append hfree, htarget]
    simp

theorem toList_mention_text (r : Mention) :
    r.text.toList = (":" ++ r.role.word ++ ":`").toList ++ (r.target.toList ++ [backquote]) := by
  rw [Mention.text]
  simp [backquote]

theorem mentionWith?_eq_some_iff {role : Role} {cs rest : List Char} {r : Mention} :
    mentionWith? role cs = some (r, rest)
      ↔ r.role = role ∧ IsReference r ∧ cs = r.text.toList ++ rest := by
  simp only [mentionWith?, Option.bind_eq_bind, Option.bind_eq_some_iff, dropLead?_eq_some_iff,
    Prod.exists, targetOf?_eq_some_iff, Option.some.injEq, Prod.mk.injEq, toList_mention_text]
  constructor
  · rintro ⟨mid, rfl, target, after, ⟨⟨hne, hfree⟩, rfl⟩, rfl, rfl⟩
    exact ⟨rfl, ⟨hne, hfree⟩, by simp⟩
  · rintro ⟨rfl, href, rfl⟩
    exact ⟨r.target.toList ++ backquote :: rest, by simp, r.target, rest,
      ⟨⟨href.target_ne, href.backquote_not_mem⟩, rfl⟩, rfl, rfl⟩

/-- The roles are told apart by the second character of a reference. -/
theorem role_eq_of_text_append_eq {r r' : Mention} {rest rest' : List Char}
    (h : r.text.toList ++ rest = r'.text.toList ++ rest') : r.role = r'.role := by
  rw [toList_mention_text, toList_mention_text] at h
  cases hrole : r.role <;> cases hrole' : r'.role <;> simp [hrole, hrole', Role.word] at h ⊢

theorem mention?_eq_some_iff {cs rest : List Char} {r : Mention} :
    mention? cs = some (r, rest) ↔ IsReference r ∧ cs = r.text.toList ++ rest := by
  simp only [mention?, Option.or_eq_some_iff, mentionWith?_eq_some_iff]
  constructor
  · rintro (⟨-, h⟩ | ⟨-, -, h⟩)
    · exact h
    · exact h
  · intro h
    cases hrole : r.role with
    | type => exact .inl ⟨rfl, h⟩
    | property =>
      refine .inr ⟨Option.eq_none_iff_forall_ne_some.mpr fun found hfound => ?_, rfl, h⟩
      obtain ⟨hrole', -, hcs⟩ := mentionWith?_eq_some_iff.mp hfound
      have heq := role_eq_of_text_append_eq (hcs.symm.trans h.2)
      rw [hrole, hrole'] at heq
      cases heq

theorem mention?_eq_none_iff {cs : List Char} : mention? cs = none ↔ ¬StartsReference cs := by
  rw [Option.eq_none_iff_forall_ne_some]
  refine ⟨fun h ⟨r, href, rest, hcs⟩ => ?_, fun h found hfound => ?_⟩
  · exact h (r, rest) (mention?_eq_some_iff.mpr ⟨href, hcs.symm⟩)
  · obtain ⟨href, hcs⟩ := mention?_eq_some_iff.mp hfound
    exact h ⟨found.1, href, found.2, hcs.symm⟩

/-! ### Decompositions -/

theorem pieces_mention {r : Mention} (h : IsReference r) (text rest : List Char) :
    pieces text (r.text.toList ++ rest) = textPiece text ++ .mention r :: pieces [] rest := by
  have hfound : mention? (r.text.toList ++ rest) = some (r, rest) :=
    mention?_eq_some_iff.mpr ⟨h, rfl⟩
  cases hcs : r.text.toList ++ rest with
  | nil => simp [toList_mention_text] at hcs
  | cons c cs =>
    rw [hcs] at hfound
    rw [pieces]
    split <;> simp_all

theorem pieces_cons {c : Char} {cs : List Char} (h : ¬StartsReference (c :: cs))
    (text : List Char) : pieces text (c :: cs) = pieces (c :: text) cs := by
  have hnone := mention?_eq_none_iff.mpr h
  rw [pieces]
  split <;> simp_all

/-- Characters at which no reference starts are read as plain text. -/
theorem pieces_append {cs rest : List Char}
    (h : ∀ u v, cs = u ++ v → v ≠ [] → ¬StartsReference (v ++ rest)) (text : List Char) :
    pieces text (cs ++ rest) = pieces (cs.reverse ++ text) rest := by
  induction cs generalizing text with
  | nil => rfl
  | cons c cs ih =>
    have hc : ¬StartsReference (c :: (cs ++ rest)) := h [] (c :: cs) rfl (by simp)
    have hcs : ∀ u v, cs = u ++ v → v ≠ [] → ¬StartsReference (v ++ rest) := by
      intro u v hsplit hv
      exact h (c :: u) v (by rw [hsplit]; rfl) hv
    rw [List.cons_append, pieces_cons hc, ih hcs]
    simp

namespace Leftmost

theorem nil : Leftmost [] [] where
  source_eq := rfl
  isReference := by simp
  text_ne := by simp
  apart := List.isChain_nil
  not_startsReference := by simp

theorem tail {text : List Char} {p : Piece} {ps : List Piece} (h : Leftmost text (p :: ps)) :
    Leftmost (ps.flatMap Piece.source) ps where
  source_eq := rfl
  isReference := fun r hr => h.isReference r (List.mem_cons_of_mem p hr)
  text_ne := fun s hs => h.text_ne s (List.mem_cons_of_mem p hs)
  apart := h.apart.tail
  not_startsReference := by
    intro before s after u v hps
    exact h.not_startsReference (p :: before) s after u v (by rw [hps]; rfl)

theorem mention_cons {r : Mention} {rest : List Char} {ps : List Piece} (hr : IsReference r)
    (h : Leftmost rest ps) : Leftmost (r.text.toList ++ rest) (.mention r :: ps) where
  source_eq := by rw [List.flatMap_cons, h.source_eq]; rfl
  isReference := by
    intro r' hmem
    rcases List.mem_cons.mp hmem with heq | hmem
    · cases heq
      exact hr
    · exact h.isReference r' hmem
  text_ne := by
    intro s hmem
    exact h.text_ne s (by simpa using hmem)
  apart := List.isChain_cons.mpr ⟨fun _ _ => .inl rfl, h.apart⟩
  not_startsReference := by
    intro before s after u v hps
    cases before with
    | nil => cases hps
    | cons p before => exact h.not_startsReference before s after u v (List.cons.inj hps).2

theorem text_cons {s : String} {rest : List Char} {ps : List Piece} (hs : s ≠ "")
    (hfree : ∀ u v, s.toList = u ++ v → v ≠ [] → ¬StartsReference (v ++ rest))
    (hhead : ∀ p ∈ ps.head?, p.mention?.isSome) (h : Leftmost rest ps) :
    Leftmost (s.toList ++ rest) (.text s :: ps) where
  source_eq := by rw [List.flatMap_cons, h.source_eq]; rfl
  isReference := by
    intro r hmem
    exact h.isReference r (by simpa using hmem)
  text_ne := by
    intro s' hmem
    rcases List.mem_cons.mp hmem with heq | hmem
    · cases heq
      exact hs
    · exact h.text_ne s' hmem
  apart := List.isChain_cons.mpr ⟨fun p hp => .inr (hhead p hp), h.apart⟩
  not_startsReference := by
    intro before s' after u v hps
    cases before with
    | nil =>
      cases hps
      rw [h.source_eq]
      exact hfree u v
    | cons p before => exact h.not_startsReference before s' after u v (List.cons.inj hps).2

/-- What has been read as plain text comes before a decomposition that begins with a reference. -/
theorem textPiece_append {text rest : List Char} {ps : List Piece}
    (hfree : ∀ u v, text.reverse = u ++ v → v ≠ [] → ¬StartsReference (v ++ rest))
    (hhead : ∀ p ∈ ps.head?, p.mention?.isSome) (h : Leftmost rest ps) :
    Leftmost (text.reverse ++ rest) (textPiece text ++ ps) := by
  cases text with
  | nil => exact h
  | cons c text =>
    have hpiece := text_cons (s := String.ofList (c :: text).reverse) (by simp)
      (by rwa [String.toList_ofList]) hhead h
    rwa [String.toList_ofList] at hpiece

end Leftmost

/-- **The scan gives a leftmost decomposition.** No reference starts in the plain text that has
been read. -/
theorem leftmost_pieces (text cs : List Char)
    (hfree : ∀ u v, text.reverse = u ++ v → v ≠ [] → ¬StartsReference (v ++ cs)) :
    Leftmost (text.reverse ++ cs) (pieces text cs) := by
  fun_induction pieces text cs with
  | case1 text =>
    have h := Leftmost.nil.textPiece_append hfree (by simp)
    rwa [List.append_nil (textPiece text)] at h
  | case2 text c cs r rest hfound ih =>
    obtain ⟨hr, hcs⟩ := mention?_eq_some_iff.mp hfound
    have hrest : Leftmost rest (pieces [] rest) := ih fun u v hnil hv => by simp_all
    rw [hcs] at hfree ⊢
    exact (hrest.mention_cons hr).textPiece_append hfree (by simp [Piece.mention?])
  | case3 text c cs hnone ih =>
    have hc : ¬StartsReference (c :: cs) := mention?_eq_none_iff.mp hnone
    have hlonger : ∀ u v, (c :: text).reverse = u ++ v → v ≠ [] → ¬StartsReference (v ++ cs) := by
      intro u v hsplit hv
      obtain ⟨v, d, rfl⟩ := (List.eq_nil_or_concat' v).resolve_left hv
      rw [List.reverse_cons, ← List.append_assoc] at hsplit
      obtain ⟨htext, hd⟩ := List.append_inj' hsplit rfl
      cases hd
      rw [List.append_assoc, List.singleton_append]
      -- the place is at the character that has just been read, or before it
      by_cases hempty : v = []
      · rwa [hempty]
      · exact hfree u v htext hempty
    simpa using ih hlonger

theorem textPiece_reverse {s : String} (h : s ≠ "") : textPiece s.toList.reverse = [.text s] := by
  simp [textPiece, h]

theorem pieces_eq_of_leftmost {cs : List Char} {ps : List Piece} (h : Leftmost cs ps) :
    pieces [] cs = ps := by
  rw [← h.source_eq]
  induction ps generalizing cs with
  | nil =>
    rw [List.flatMap_nil, pieces]
    rfl
  | cons p ps ih =>
    have hps : pieces [] (ps.flatMap Piece.source) = ps := ih h.tail
    rw [List.flatMap_cons]
    cases p with
    | mention r =>
      have hr : IsReference r := h.isReference r List.mem_cons_self
      rw [Piece.source, pieces_mention hr, hps]
      rfl
    | text s =>
      have hs : s ≠ "" := h.text_ne s List.mem_cons_self
      have hfree := fun u v => h.not_startsReference [] s ps u v rfl
      rw [Piece.source, pieces_append hfree, List.append_nil]
      -- the plain text ends with the paragraph or where a reference starts
      cases ps with
      | nil => rw [List.flatMap_nil, pieces, textPiece_reverse hs]
      | cons p ps =>
        cases p with
        | text s' => simpa [Piece.mention?] using (List.isChain_cons.mp h.apart).1
        | mention r =>
          have hr : IsReference r := h.isReference r (by simp)
          rw [List.flatMap_cons, Piece.source, pieces_mention hr] at hps ⊢
          rw [textPiece_reverse hs]
          exact congrArg (.text s :: ·) hps

/-- **The pieces of a paragraph are its only leftmost decomposition.** -/
theorem leftmost_iff {cs : List Char} {ps : List Piece} :
    Leftmost cs ps ↔ pieces [] cs = ps := by
  refine ⟨pieces_eq_of_leftmost, fun h => ?_⟩
  rw [← h]
  exact leftmost_pieces [] cs fun u v hnil hv => by simp_all

example : pieces [] "::class:`a:attr:`b`, :class:``c:attr:`d`".toList
    = [.text ":", .mention ⟨.type, "a:attr:"⟩, .text "b`, :class:``c",
      .mention ⟨.property, "d"⟩] := by
  decide +kernel

/-! ## Descriptions -/

/-- What a piece reads as: a reference that the lookup does not find leaves its target. -/
inductive Reads (lookup : Lookup) : Piece → Inline → Prop where
  | text (s : String) : Reads lookup (.text s) (.text s)
  | found {r : Mention} {i : Inline} : lookup r = some i → Reads lookup (.mention r) i
  | unresolved {r : Mention} : lookup r = none → Reads lookup (.mention r) (.text r.target)

theorem reads_resolve (lookup : Lookup) (p : Piece) : Reads lookup p (p.resolve lookup) := by
  cases p with
  | text s => exact .text s
  | mention r =>
    rw [Piece.resolve]
    cases hlookup : lookup r with
    | none => exact .unresolved hlookup
    | some i => exact .found hlookup

theorem filterMap_unresolved? (lookup : Lookup) (ps : List Piece) :
    ps.filterMap (Piece.unresolved? lookup)
      = (ps.filterMap Piece.mention?).filter fun r => (lookup r).isNone := by
  rw [List.filter_filterMap]
  refine List.filterMap_congr fun p _ => ?_
  cases p with
  | text s => rfl
  | mention r =>
    cases hlookup : lookup r <;>
      simp [Piece.unresolved?, Piece.mention?, Option.filter_some, hlookup]

theorem forall₂_leftmost_iff (s : String) (ps : List (List Piece)) :
    List.Forall₂ (fun p q => Leftmost p.toList q) (paragraphsOf s) ps ↔ paragraphPieces s = ps := by
  rw [paragraphPieces, paragraphTexts_eq, ← List.forall₂_eq_eq_eq, List.forall₂_map_left_iff]
  simp only [leftmost_iff]

theorem parse_eq_none_iff (lookup : Lookup) (s : String) :
    parse lookup s = none ↔ paragraphsOf s = [] := by
  rw [parse, paragraphPieces, paragraphTexts_eq]
  cases paragraphsOf s <;> simp

theorem paragraphs_of_parse {lookup : Lookup} {s : String} {d : Description}
    (h : parse lookup s = some d) :
    d.paragraphs = (paragraphPieces s).map (·.map (Piece.resolve lookup)) := by
  rw [parse] at h
  split at h
  · next summary remarks hparagraphs =>
    cases h
    exact hparagraphs.symm
  · cases h

/-- **Descriptions are read without loss.** The paragraphs of a text are its runs of lines that
are not blank, with the white space folded; each has one leftmost decomposition into references and
plain text. The text is a description iff it has a paragraph, and then the paragraphs of the
description, of which the first is the summary, are what the pieces of these read as. The
references that are listed as unresolved are those that the lookup does not find, in the order of
the text. -/
theorem parse_leftmost (lookup : Lookup) (s : String) :
    ∃ ps : List (List Piece),
      (∀ qs, List.Forall₂ (fun p q => Leftmost p.toList q) (paragraphsOf s) qs ↔ ps = qs)
      ∧ (parse lookup s = none ↔ paragraphsOf s = [])
      ∧ (∀ d ∈ parse lookup s,
          List.Forall₂ (List.Forall₂ (Reads lookup)) ps (d.summary :: d.remarks))
      ∧ (unresolved lookup s).map Mention.text
        = ((ps.flatten.filterMap Piece.mention?).filter fun r => (lookup r).isNone).map
          Mention.text := by
  refine ⟨paragraphPieces s, forall₂_leftmost_iff s, parse_eq_none_iff lookup s, ?_, ?_⟩
  · intro d hd
    show List.Forall₂ _ _ d.paragraphs
    rw [paragraphs_of_parse hd, List.forall₂_map_right_iff]
    refine List.forall₂_same.mpr fun p _ => ?_
    rw [List.forall₂_map_right_iff]
    exact List.forall₂_same.mpr fun q _ => reads_resolve lookup q
  · rw [unresolved, filterMap_unresolved?]

end Description
end WireModel
