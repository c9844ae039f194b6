import Mathlib.Algebra.GroupWithZero.Nat
import WireModel.Proofs.Links
import WireModel.Proofs.Paragraphs

/-!
# Lines of the Markdown of a tree

The Markdown of a tree is put together from lines, and the shape of the tree prescribes how many
there are: two for a heading, one for a paragraph, one for each item of a list and for each row of a
table, and a blank line between two blocks. The texts of the tree are escaped on their way into the
lines, but a line feed stays where it is.

* **`Text.length_lines_unlines`**: of lines that are put together, each line feed in a line adds one
  line; and **`Text.lines_unlines_iff`**: they are read back iff they have none.
* **`Reference.Markdown.totalFeeds_blockLines`**: no function of the renderer adds a line feed to
  those of the texts, or drops one.
* **`Reference.Markdown.length_lines_render`** counts the lines of the whole.
-/

namespace WireModel

/-- A size that adds up adds up over lists that are joined, with the separators between them. -/
theorem size_intercalate {α : Type} {size : List α → Nat} (hnil : size [] = 0)
    (happend : ∀ xs ys, size (xs ++ ys) = size xs + size ys) (separator : List α)
    (parts : List (List α)) : size (separator.intercalate parts)
      = (parts.map size).sum + (parts.length - 1) * size separator := by
  induction parts with
  | nil => simpa using hnil
  | cons xs parts ih =>
    cases parts with
    | nil => simp
    | cons ys parts =>
      have hsucc : (parts.length + 1) * size separator
          = parts.length * size separator + size separator := Nat.succ_mul ..
      rw [List.intercalate_cons_cons, happend, happend, ih]
      simp only [List.map_cons, List.sum_cons, List.length_cons, Nat.add_sub_cancel]
      omega

/-! ## Line feeds -/

namespace Text

/-- A text without a line feed. -/
def IsLine (s : String) : Prop := '\n' ∉ s.toList

instance (s : String) : Decidable (IsLine s) := inferInstanceAs (Decidable ('\n' ∉ s.toList))

/-- The number of line feeds in a text. -/
def feeds (s : String) : Nat := s.toList.count '\n'

/-- The number of line feeds in some texts. -/
def totalFeeds (texts : List String) : Nat := (texts.map feeds).sum

/-- The texts that have a line feed. -/
def broken (texts : List String) : List String := texts.filter fun s => !decide (IsLine s)

theorem feeds_eq_zero_iff {s : String} : feeds s = 0 ↔ IsLine s := List.count_eq_zero

theorem feeds_append (s t : String) : feeds (s ++ t) = feeds s + feeds t := by
  rw [feeds, String.toList_append, List.count_append]
  rfl

theorem totalFeeds_cons (s : String) (texts : List String) :
    totalFeeds (s :: texts) = feeds s + totalFeeds texts := List.sum_cons

theorem totalFeeds_append (texts more : List String) :
    totalFeeds (texts ++ more) = totalFeeds texts + totalFeeds more := by
  rw [totalFeeds, List.map_append, List.sum_append]
  rfl

theorem totalFeeds_flatMap {α : Type} (items : List α) (f : α → List String) :
    totalFeeds (items.flatMap f) = (items.map fun a => totalFeeds (f a)).sum := by
  induction items with
  | nil => rfl
  | cons a items ih => rw [List.flatMap_cons, totalFeeds_append, ih, List.map_cons, List.sum_cons]

/-- Texts that are put together from texts have the line feeds of these. -/
theorem totalFeeds_map {α : Type} {items : List α} {f : α → String} {g : α → List String}
    (h : ∀ a ∈ items, feeds (f a) = totalFeeds (g a)) :
    totalFeeds (items.map f) = totalFeeds (items.flatMap g) := by
  rw [totalFeeds, List.map_map, totalFeeds_flatMap]
  exact congrArg List.sum (List.map_congr_left h)

theorem totalFeeds_eq_zero_iff {texts : List String} :
    totalFeeds texts = 0 ↔ ∀ s ∈ texts, IsLine s := by
  induction texts with
  | nil => simp [totalFeeds]
  | cons s texts ih =>
    rw [totalFeeds_cons, Nat.add_eq_zero_iff, ih, feeds_eq_zero_iff, List.forall_mem_cons]

theorem broken_append (texts more : List String) :
    broken (texts ++ more) = broken texts ++ broken more := List.filter_append ..

theorem broken_flatMap {α : Type} (items : List α) (f : α → List String) :
    broken (items.flatMap f) = items.flatMap fun a => broken (f a) := List.filter_flatMap ..

theorem broken_eq_nil_iff {texts : List String} : broken texts = [] ↔ ∀ s ∈ texts, IsLine s := by
  simp [broken, List.filter_eq_nil_iff]

theorem broken_singleton {s : String} (h : IsLine s) : broken [s] = [] :=
  broken_eq_nil_iff.mpr (List.forall_mem_singleton.mpr h)

/-- Texts without a line feed can be left out of the count. -/
theorem totalFeeds_broken (texts : List String) : totalFeeds (broken texts) = totalFeeds texts := by
  induction texts with
  | nil => rfl
  | cons s texts ih =>
    by_cases hs : IsLine s
    · have hskip : broken (s :: texts) = broken texts := by simp [broken, hs]
      rw [hskip, ih, totalFeeds_cons, feeds_eq_zero_iff.mpr hs, Nat.zero_add]
    · have hkeep : broken (s :: texts) = s :: broken texts := by simp [broken, hs]
      rw [hkeep, totalFeeds_cons, totalFeeds_cons, ih]

theorem feeds_join (texts : List String) : feeds (String.join texts) = totalFeeds texts := by
  rw [feeds, String.toList_join, List.count_flatMap]
  rfl

theorem feeds_intercalate (separator : String) (texts : List String) :
    feeds (separator.intercalate texts)
      = totalFeeds texts + (texts.length - 1) * feeds separator := by
  rw [feeds, String.toList_intercalate,
    size_intercalate List.count_nil (fun xs ys => List.count_append), List.map_map,
    List.length_map]
  rfl

/-- What stands for each character has as many line feeds as the character. -/
theorem feeds_flatMap {f : Char → List Char} (h : ∀ c, (f c).count '\n' = [c].count '\n')
    (s : String) : feeds (String.ofList (s.toList.flatMap f)) = feeds s := by
  rw [feeds, String.toList_ofList, feeds]
  induction s.toList with
  | nil => rfl
  | cons c cs ih => rw [List.flatMap_cons, List.count_append, h, ih, ← List.count_append]; rfl

/-- **A text has one line more than line feeds.** -/
theorem length_lines (s : String) : (lines s).length = feeds s + 1 := by
  rw [lines, List.length_map, feeds]
  induction s.toList with
  | nil => rfl
  | cons c cs ih =>
    -- a line feed opens a part, and any other character goes to the first part
    rw [List.splitOn_cons_eq_if_modifyHead, List.count_cons]
    split
    · rw [List.length_cons, ih]
    · rw [List.length_modifyHead, ih]

theorem length_lines_unlines {ls : List String} (h : ls ≠ []) :
    (lines (unlines ls)).length = ls.length + totalFeeds ls := by
  have hfeed : feeds "\n" = 1 := rfl
  have hpos : 0 < ls.length := List.length_pos_iff.mpr h
  rw [length_lines, unlines, feeds_intercalate, hfeed]
  omega

/-- **Lines are read back iff they are lines.** -/
theorem lines_unlines_iff {ls : List String} (h : ls ≠ []) :
    lines (unlines ls) = ls ↔ ∀ l ∈ ls, IsLine l := by
  constructor
  · intro hlines l hl
    rw [← hlines] at hl
    exact not_mem_of_mem_lines hl
  · intro hall
    have hfree : ∀ l ∈ ls.map String.toList, '\n' ∉ l := List.forall_mem_map.mpr hall
    have hseparator : "\n".toList = ['\n'] := rfl
    rw [lines, unlines, String.toList_intercalate, hseparator,
      List.splitOn_intercalate '\n' hfree (by simpa using h), List.map_map]
    simp [Function.comp_def]

theorem IsLine.append {s t : String} (hs : IsLine s) (ht : IsLine t) : IsLine (s ++ t) := by
  rw [IsLine, String.toList_append, List.mem_append]
  exact not_or.mpr ⟨hs, ht⟩

end Text

open Text

namespace Reference

/-! ## Lines of a tree -/

/-- The texts that a piece of running text is written from. -/
def Span.texts : Span → List String
  | .text s | .code s => [s]
  | .link s anchor _ => [s, anchor]
  | .target anchor => [anchor]

namespace Block

/-- The texts of a block apart from its running text. -/
def labels : Block → List String
  | .heading _ text anchor => [anchor, text]
  | .table header _ => header
  | _ => []

/-- All texts that a block is written from. -/
def texts (b : Block) : List String := b.labels ++ b.spans.flatMap Span.texts

/-- The number of lines that the shape of a block prescribes. -/
def height : Block → Nat
  | .heading _ _ _ => 2
  | .paragraph _ => 1
  | .list items => items.length
  | .table _ rows => 2 + rows.length

end Block

namespace Tree

def texts (tree : Tree) : List String := tree.blocks.flatMap Block.texts

/-- The number of lines that the shape of a tree prescribes: those of its blocks, and a blank line
between two of them. -/
def height (tree : Tree) : Nat := (tree.blocks.map Block.height).sum + (tree.blocks.length - 1)

/-- The lines that a tree is written as. -/
def lines (tree : Tree) : List String := [""].intercalate (tree.blocks.map Markdown.blockLines)

end Tree

namespace Markdown

theorem feeds_escape (s : String) : feeds (escape s) = feeds s := by
  apply feeds_flatMap
  intro c
  split
  · rfl
  · rfl

theorem feeds_escapeBars (s : String) : feeds (escapeBars s) = feeds s := by
  apply feeds_flatMap
  intro c
  split
  · next hbar => rw [hbar]; rfl
  · rfl

theorem feeds_codeSpan (s : String) : feeds (codeSpan s) = feeds s := by
  have hmark : feeds "`" = 0 := rfl
  have hopen : feeds "`` " = 0 := rfl
  have hclose : feeds " ``" = 0 := rfl
  unfold codeSpan
  split
  · rw [feeds_append, feeds_append, hopen, hclose]
    omega
  · rw [feeds_append, feeds_append, hmark]
    omega

theorem feeds_anchorTag (anchor : String) : feeds (anchorTag anchor) = feeds anchor := by
  have hopen : feeds "<a id=\"" = 0 := rfl
  have hclose : feeds "\"></a>" = 0 := rfl
  rw [anchorTag, feeds_append, feeds_append, hopen, hclose]
  omega

theorem feeds_span (s : Span) : feeds (span s) = totalFeeds s.texts := by
  cases s with
  | text s => exact (feeds_escape s).trans (Nat.add_zero _).symm
  | code s => exact (feeds_codeSpan s).trans (Nat.add_zero _).symm
  | target anchor => exact (feeds_anchorTag anchor).trans (Nat.add_zero _).symm
  | link s anchor isCode =>
    have hlabel : feeds (if isCode then codeSpan s else escape s) = feeds s := by
      split
      · exact feeds_codeSpan s
      · exact feeds_escape s
    have hopen : feeds "[" = 0 := rfl
    have hmiddle : feeds "](#" = 0 := rfl
    have hclose : feeds ")" = 0 := rfl
    show feeds ("[" ++ (if isCode then codeSpan s else escape s) ++ "](#" ++ anchor ++ ")")
      = feeds s + (feeds anchor + 0)
    rw [feeds_append, feeds_append, feeds_append, feeds_append, hlabel, hopen, hmiddle, hclose]
    omega

theorem feeds_spans (content : Spans) :
    feeds (spans content) = totalFeeds (content.flatMap Span.texts) := by
  rw [spans, feeds_join]
  exact totalFeeds_map fun s _ => feeds_span s

theorem feeds_cell (content : Spans) :
    feeds (cell content) = totalFeeds (content.flatMap Span.texts) := by
  unfold cell
  split
  · next hempty =>
    rw [List.isEmpty_iff.mp hempty]
    rfl
  · rw [feeds_escapeBars, feeds_spans]

theorem feeds_row (cells : List String) : feeds (row cells) = totalFeeds cells := by
  have hopen : feeds "| " = 0 := rfl
  have hbar : feeds " | " = 0 := rfl
  have hclose : feeds " |" = 0 := rfl
  rw [row, feeds_append, feeds_append, feeds_intercalate, hopen, hbar, hclose]
  omega

/-- **A block has the line feeds of its texts.** -/
theorem totalFeeds_blockLines (b : Block) : totalFeeds (blockLines b) = totalFeeds b.texts := by
  cases b with
  | heading level text anchor =>
    have hspace : feeds " " = 0 := rfl
    have hmarks : feeds (Text.times level "#") = 0 := by
      rw [Text.times, feeds_join, totalFeeds_eq_zero_iff]
      intro s hs
      rw [List.eq_of_mem_replicate hs]
      decide
    show feeds (anchorTag anchor) + (feeds (Text.times level "#" ++ " " ++ escape text) + 0)
      = feeds anchor + (feeds text + 0)
    rw [feeds_anchorTag, feeds_append, feeds_append, hmarks, hspace, feeds_escape, Nat.zero_add]
  | paragraph content => exact (Nat.add_zero _).trans (feeds_spans content)
  | list items =>
    have hmark : feeds "- " = 0 := rfl
    show totalFeeds (items.map fun item => "- " ++ spans item)
      = totalFeeds (items.flatten.flatMap Span.texts)
    rw [List.flatten_eq_flatMap, List.flatMap_assoc]
    apply totalFeeds_map
    intro item _
    rw [feeds_append, hmark, feeds_spans, Nat.zero_add]
    rfl
  | table header rows =>
    have hdivider : feeds ("|" ++ String.join (header.map fun _ => "---|")) = 0 := by
      rw [feeds_append, feeds_join, totalFeeds_eq_zero_iff.mpr]
      · rfl
      · rw [List.forall_mem_map]
        intro _ _
        decide
    have hrow : ∀ cells ∈ rows, feeds (row (cells.map cell))
        = totalFeeds (cells.flatMap fun content => content.flatMap Span.texts) := by
      intro cells _
      rw [feeds_row]
      exact totalFeeds_map fun content _ => feeds_cell content
    have hrows : rows.flatten.flatten.flatMap Span.texts
        = rows.flatMap fun cells => cells.flatMap fun content => content.flatMap Span.texts := by
      simp only [List.flatten_eq_flatMap, List.flatMap_assoc, id]
    show feeds (row header) + (feeds ("|" ++ String.join (header.map fun _ => "---|"))
        + totalFeeds (rows.map fun cells => row (cells.map cell)))
      = totalFeeds (header ++ rows.flatten.flatten.flatMap Span.texts)
    rw [feeds_row, hdivider, Nat.zero_add, totalFeeds_append, hrows, totalFeeds_map hrow]

theorem length_blockLines (b : Block) : (blockLines b).length = b.height := by
  cases b with
  | heading | paragraph => rfl
  | list items => exact List.length_map ..
  | table header rows =>
    show (rows.map _).length + 1 + 1 = 2 + rows.length
    rw [List.length_map]
    omega

theorem length_lines (tree : Tree) : tree.lines.length = tree.height := by
  rw [Tree.lines, size_intercalate List.length_nil (fun _ _ => List.length_append), List.map_map,
    List.length_map, List.length_singleton, Nat.mul_one, Tree.height]
  exact congrArg (List.sum · + _) (List.map_congr_left fun b _ => length_blockLines b)

theorem totalFeeds_lines (tree : Tree) : totalFeeds tree.lines = totalFeeds tree.texts := by
  have hblank : totalFeeds [""] = 0 := rfl
  rw [Tree.lines, size_intercalate rfl totalFeeds_append, List.map_map, hblank, Nat.mul_zero,
    Nat.add_zero, Tree.texts, totalFeeds_flatMap]
  exact congrArg List.sum (List.map_congr_left fun b _ => totalFeeds_blockLines b)

theorem lines_ne_nil {tree : Tree} (h : 0 < tree.height) : tree.lines ≠ [] := by
  rw [← length_lines] at h
  exact List.length_pos_iff.mp h

/-- **Each line feed in a text adds a line** to those that the shape prescribes. -/
theorem length_lines_render {tree : Tree} (h : 0 < tree.height) :
    (Text.lines (render tree)).length = tree.height + totalFeeds tree.texts := by
  rw [← length_lines, ← totalFeeds_lines]
  exact length_lines_unlines (lines_ne_nil h)

/-- The lines are those that the tree is written as iff every text is on one line. -/
theorem lines_render_iff {tree : Tree} (h : 0 < tree.height) :
    Text.lines (render tree) = tree.lines ↔ ∀ s ∈ tree.texts, IsLine s := by
  rw [← totalFeeds_eq_zero_iff, ← totalFeeds_lines, totalFeeds_eq_zero_iff]
  exact lines_unlines_iff (lines_ne_nil h)

end Markdown

end Reference

end WireModel
