import Mathlib.Data.List.Forall2
import WireModel.Reference.Markdown

/-!
# Cells of a table row

A row of a table is one line: a bar stands at either end and between two cells, each with a space on
its inner sides, and a bar that belongs to a cell gets a backslash in front of it. Cells have
backslashes of their own, anywhere: before a bar, which running text escapes already, and at the end
of a code span.

The readers of this module know nothing of how a row was made. A line is cut at its *open* bars,
those that do not follow a backslash, and in a part the backslash before each bar is dropped.

* **`Markdown.partsFrom_cell`**: a cell is cut off at the bar behind it, and nowhere before.
* **`Markdown.dropSlashes_escaped`**: dropping the backslashes undoes the escaping of bars, whatever
  stands in front of the bars.
* **`Markdown.table_rows_recovered`**: so the parts of each row of a table are its cells.
-/

namespace WireModel.Reference.Markdown

/-! ## Readers -/

/-- The parts of a text between its open bars; `before` is the character in front of the text. -/
def partsFrom (before : Option Char) : List Char → List (List Char)
  | [] => [[]]
  | c :: cs =>
    if c = '|' ∧ before ≠ some '\\' then [] :: partsFrom (some c) cs
    else (partsFrom (some c) cs).modifyHead (c :: ·)

/-- The parts of a line between its open bars. -/
def parts (line : String) : List String := (partsFrom none line.toList).map String.ofList

/-- Every backslash before a bar is dropped. -/
def dropSlashes : List Char → List Char
  | '\\' :: '|' :: cs => '|' :: dropSlashes cs
  | c :: cs => c :: dropSlashes cs
  | [] => []

/-- The text with a bar for each bar behind a backslash. -/
def unescapeBars (s : String) : String := String.ofList (dropSlashes s.toList)

/-- What a reader finds in a part of a row: the cell between two spaces, and a dash for an empty
cell. -/
def Holds (part : String) (content : Spans) : Prop :=
  ∃ inner, part = " " ++ inner ++ " "
    ∧ unescapeBars inner = if content = [] then "—" else spans content

/-! ## Bars of a cell -/

/-- How a character is written in a cell. -/
def escapeBar (c : Char) : List Char := if c = '|' then ['\\', '|'] else [c]

theorem toList_escapeBars (s : String) : (escapeBars s).toList = s.toList.flatMap escapeBar :=
  String.toList_ofList

theorem partsFrom_of_ne {c : Char} (h : c ≠ '|') (before : Option Char) (cs : List Char) :
    partsFrom before (c :: cs) = (partsFrom (some c) cs).modifyHead (c :: ·) := by
  simp [partsFrom, h]

theorem partsFrom_bar {before : Option Char} (h : before ≠ some '\\') (cs : List Char) :
    partsFrom before ('|' :: cs) = [] :: partsFrom (some '|') cs := by
  simp [partsFrom, h]

/-- **A cell ends at the bar behind it.** The space between the two matters where the cell ends in a
backslash. -/
theorem partsFrom_cell (before : Option Char) (cs rest : List Char) :
    partsFrom before (cs.flatMap escapeBar ++ ' ' :: '|' :: rest)
      = (cs.flatMap escapeBar ++ [' ']) :: partsFrom (some '|') rest := by
  induction cs generalizing before with
  | nil =>
    rw [List.flatMap_nil, List.nil_append, partsFrom_of_ne (by decide), partsFrom_bar (by decide)]
    rfl
  | cons c cs ih =>
    rw [List.flatMap_cons, escapeBar]
    split
    · -- the bar follows the backslash of its escape
      simp [partsFrom, ih]
    · next hbar =>
      rw [List.singleton_append, List.cons_append, partsFrom_of_ne hbar, ih]
      rfl

theorem head?_escaped_ne (cs : List Char) : (cs.flatMap escapeBar).head? ≠ some '|' := by
  cases cs with
  | nil => nofun
  | cons c cs =>
    rw [List.flatMap_cons, escapeBar]
    split
    · simp
    · next hbar => simpa using hbar

theorem dropSlashes_cons {c : Char} {cs : List Char} (h : c ≠ '\\' ∨ cs.head? ≠ some '|') :
    dropSlashes (c :: cs) = c :: dropSlashes cs := by
  rw [dropSlashes.eq_def]
  split
  · next heq =>
    obtain ⟨rfl, rfl⟩ := List.cons.inj heq
    simp at h
  · next heq =>
    obtain ⟨rfl, rfl⟩ := List.cons.inj heq
    rfl
  · next heq => cases heq

/-- **Dropping the backslashes undoes the escaping of bars.** A backslash of the text itself stays:
where a bar follows it, the backslash of the escape stands between the two. -/
theorem dropSlashes_escaped (cs : List Char) : dropSlashes (cs.flatMap escapeBar) = cs := by
  induction cs with
  | nil => rfl
  | cons c cs ih =>
    rw [List.flatMap_cons, escapeBar]
    split
    · next hbar =>
      rw [List.cons_append, List.singleton_append, dropSlashes, ih, hbar]
    · rw [List.singleton_append, dropSlashes_cons (.inr (head?_escaped_ne cs)), ih]

theorem unescapeBars_escapeBars (s : String) : unescapeBars (escapeBars s) = s := by
  rw [unescapeBars, toList_escapeBars, dropSlashes_escaped, String.ofList_toList]

/-! ## Rows -/

/-- A row is a bar, and then each cell between two spaces with the bar behind it. -/
theorem toList_row {cells : List String} (h : cells ≠ []) :
    (row cells).toList
      = '|' :: cells.flatMap fun cell => ' ' :: (cell.toList ++ [' ', '|']) := by
  have hjoined : (" | ".intercalate cells).toList ++ " |".toList
      = (cells.flatMap fun cell => ' ' :: (cell.toList ++ [' ', '|'])).tail := by
    induction cells with
    | nil => exact absurd rfl h
    | cons cell cells ih =>
      cases cells with
      | nil => simp
      | cons other cells =>
        rw [String.intercalate_cons_cons, String.toList_append, String.toList_append,
          List.append_assoc, List.append_assoc, ih (List.cons_ne_nil _ _)]
        simp
  obtain ⟨cell, cells, rfl⟩ := List.exists_cons_of_ne_nil h
  rw [row, String.toList_append, String.toList_append, List.append_assoc, hjoined]
  rfl

/-- A cell before its bars are escaped. -/
def plainCell (content : Spans) : String := if content = [] then "—" else spans content

theorem cell_eq (content : Spans) : cell content = escapeBars (plainCell content) := by
  cases content with
  | nil => rfl
  | cons s content => rfl

theorem holds_cell (content : Spans) : Holds (" " ++ cell content ++ " ") content :=
  ⟨cell content, rfl, by rw [cell_eq, unescapeBars_escapeBars, plainCell]⟩

/-- Behind a bar, each cell is cut off with the spaces around it, and nothing is left after the last
bar. -/
theorem map_partsFrom_cells (contents : List Spans) :
    (partsFrom (some '|') ((contents.map cell).flatMap
        fun cell => ' ' :: (cell.toList ++ [' ', '|']))).map String.ofList
      = (contents.map fun content => " " ++ cell content ++ " ") ++ [""] := by
  induction contents with
  | nil => rfl
  | cons content contents ih =>
    have hpart : String.ofList (' ' :: ((cell content).toList ++ [' ']))
        = " " ++ cell content ++ " " := by
      apply String.toList_inj.mp
      simp
    rw [List.map_cons, List.flatMap_cons, List.cons_append, partsFrom_of_ne (by decide),
      List.append_assoc, cell_eq, toList_escapeBars, List.cons_append, List.singleton_append,
      partsFrom_cell, List.modifyHead_cons, List.map_cons, ih, ← toList_escapeBars, ← cell_eq,
      hpart]
    rfl

theorem parts_row {contents : List Spans} (h : contents ≠ []) :
    parts (row (contents.map cell))
      = "" :: ((contents.map fun content => " " ++ cell content ++ " ") ++ [""]) := by
  rw [parts, toList_row (by simpa using h), partsFrom_bar (by decide), List.map_cons,
    map_partsFrom_cells]

/-- **A row is read back cell by cell.** Behind its first two lines, the lines of a table are its
rows. Where a row has cells, its line is cut into an empty part at either end and, in between, one
part for each cell, which holds the cell. -/
theorem table_rows_recovered (header : List String) {rows : List (List Spans)} (h : [] ∉ rows) :
    List.Forall₂ (fun line cells => ∃ inner, parts line = "" :: (inner ++ [""])
        ∧ List.Forall₂ Holds inner cells)
      ((blockLines (.table header rows)).drop 2) rows := by
  show List.Forall₂ _ (rows.map fun cells => row (cells.map cell)) rows
  rw [List.forall₂_map_left_iff, List.forall₂_same]
  intro cells hcells
  refine ⟨_, parts_row (ne_of_mem_of_not_mem hcells h), ?_⟩
  rw [List.forall₂_map_left_iff, List.forall₂_same]
  exact fun content _ => holds_cell content

/-- Cells with bars and backslashes in every place: at the end of a text and of a code span, in a
link and in its anchor, and next to each other. -/
def crossings : List (List Spans) :=
  [[[.text "a|b\\"], [], [.code "|`\\|\\"], [.link "\\|" "x|y" true, .text "||"]], [[.text ""]]]

theorem crossings_recovered : [] ∉ crossings
    ∧ List.Forall₂ (fun line cells => ∃ inner, parts line = "" :: (inner ++ [""])
        ∧ List.Forall₂ Holds inner cells)
      ((blockLines (.table ["Where"] crossings)).drop 2) crossings :=
  ⟨by decide, table_rows_recovered ["Where"] (by decide)⟩

end WireModel.Reference.Markdown
