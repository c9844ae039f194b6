import WireModel.Options
import WireModel.Proofs.Resolution

/-!
# Comments and literals of generated code

A reader of generated code passes over `/* … */` comments and over the contents of string literals
in single quotes, in which a backslash escapes the next character. `Scanner` is such a reader. It
knows nothing about rows and pieces: it sees characters, and what it takes for a comment may end
where a careless text ends it.

* **`Scanner.run_literal`**: a literal ends at its own closing quote, whatever its value is.
* **`Block.Contained.docRows`**: a documentation comment ends at its own last row, whatever its
  paragraphs are, and at whatever indentation it stands.

`Block.Contained` says of a block that the scanner finds in it the comments, literals and code that
the pieces of its rows say, row by row. This is kept by all ways of putting blocks together, and it
holds of every row whose code has neither a quote nor a slash.
-/

namespace WireModel.TypeScript

/-! ## The scanner -/

/-- What a scanner finds: a character of code that is not blank, a comment, or a literal with what
stands between its quotes. -/
inductive Lexeme where
  | code (c : Char)
  | comment
  | literal (content : List Char)
  deriving DecidableEq, Repr

/-- The characters that are left when comments and the contents of literals are deleted. -/
def Lexeme.bare : Lexeme → List Char
  | .code c => [c]
  | .comment => []
  | .literal _ => [Text.apostrophe, Text.apostrophe]

/-- A character of code, unless it is blank. -/
def visible (c : Char) : List Lexeme := if Text.isBlank c then [] else [.code c]

/-- Where a scanner is: in code, behind a slash, in a comment, behind a star of a comment, in a
literal, or behind a backslash of a literal. In a literal it has seen some of the content. -/
inductive Scanner where
  | code
  | slash
  | comment
  | star
  | literal (content : List Char)
  | escape (content : List Char)
  deriving DecidableEq, Repr

namespace Scanner

def ofCode (c : Char) : Scanner × List Lexeme :=
  if c = Text.apostrophe then (.literal [], [])
  else if c = '/' then (.slash, [])
  else (.code, visible c)

def step : Scanner → Char → Scanner × List Lexeme
  | .code, c => ofCode c
  -- a slash that opens no comment is code
  | .slash, c =>
    if c = '*' then (.comment, []) else ((ofCode c).1, .code '/' :: (ofCode c).2)
  | .comment, c => (if c = '*' then .star else .comment, [])
  | .star, c =>
    if c = '/' then (.code, [.comment]) else (if c = '*' then .star else .comment, [])
  | .literal content, c =>
    if c = '\\' then (.escape (content ++ [c]), [])
    else if c = Text.apostrophe then (.code, [.literal content])
    else (.literal (content ++ [c]), [])
  | .escape content, c => (.literal (content ++ [c]), [])

/-- Where a scanner ends up, and what it has found. -/
def run : Scanner → List Char → Scanner × List Lexeme
  | s, [] => (s, [])
  | s, c :: rest => ((run (s.step c).1 rest).1, (s.step c).2 ++ (run (s.step c).1 rest).2)

/-- What is still to be reported at the end of a text. -/
def pending : Scanner → List Lexeme
  | .slash => [.code '/']
  | _ => []

/-- One step after another. -/
theorem run_append {s t u : Scanner} {cs ds : List Char} {found more : List Lexeme}
    (hcs : s.run cs = (t, found)) (hds : t.run ds = (u, more)) :
    s.run (cs ++ ds) = (u, found ++ more) := by
  induction cs generalizing s found with
  | nil =>
    cases hcs
    exact hds
  | cons c cs ih =>
    rw [run, Prod.mk.injEq] at hcs
    obtain ⟨hstate, rfl⟩ := hcs
    have hrest := ih (s := (s.step c).1) (Prod.ext hstate rfl)
    rw [List.cons_append, run, hrest, List.append_assoc]

end Scanner

/-- What a scanner finds in a text. -/
def lexemesOf (text : String) : List Lexeme :=
  (Scanner.code.run text.toList).2 ++ (Scanner.code.run text.toList).1.pending

/-- A text without comments, without the contents of its literals and without blanks. -/
def stripped (text : String) : List Char := (lexemesOf text).flatMap Lexeme.bare

/-! ## Inert code -/

/-- A character that neither opens a literal nor can be part of what opens a comment. -/
def isInert (c : Char) : Bool := c != Text.apostrophe && c != '/'

/-- Code in which nothing is opened. -/
def Inert (s : String) : Prop := ∀ c ∈ s.toList, isInert c = true

namespace Inert

theorem fixed {cs : List Char} (h : cs.all isInert = true) : Inert (String.ofList cs) := by
  rw [Inert, String.toList_ofList]
  exact List.all_eq_true.mp h

theorem append {s t : String} (hs : Inert s) (ht : Inert t) : Inert (s ++ t) := by
  rw [Inert, String.toList_append]
  exact List.forall_mem_append.mpr ⟨hs, ht⟩

theorem word {s : String} (h : Name.IsWord s) : Inert s := by
  intro c hc
  rw [isInert, Bool.and_eq_true, bne_iff_ne, bne_iff_ne]
  have hplain := h.2 c hc
  constructor <;> rintro rfl <;> exact absurd hplain (by decide)

end Inert

namespace Scanner

theorem step_of_isInert {c : Char} (h : isInert c = true) : code.step c = (.code, visible c) := by
  rw [isInert, Bool.and_eq_true, bne_iff_ne, bne_iff_ne] at h
  rw [step, ofCode, if_neg h.1, if_neg h.2]

theorem run_inert {cs : List Char} (h : ∀ c ∈ cs, isInert c = true) :
    code.run cs = (.code, cs.flatMap visible) := by
  induction cs with
  | nil => rfl
  | cons c cs ih =>
    rw [run, step_of_isInert (h c List.mem_cons_self),
      ih fun d hd => h d (List.mem_cons_of_mem c hd)]
    rfl

/-! ## Blanks -/

theorem isInert_of_isBlank {c : Char} (h : Text.isBlank c = true) : isInert c = true := by
  rw [isInert, Bool.and_eq_true, bne_iff_ne, bne_iff_ne]
  constructor <;> rintro rfl <;> exact absurd h (by decide)

theorem run_blanks {cs : List Char} (h : ∀ c ∈ cs, Text.isBlank c = true) :
    code.run cs = (.code, []) := by
  rw [run_inert fun c hc => isInert_of_isBlank (h c hc)]
  have hnone : cs.flatMap visible = [] :=
    List.flatMap_eq_nil_iff.mpr fun c hc => if_pos (h c hc)
  rw [hnone]

/-! ## Literals -/

/-- Characters that stand for themselves in a literal. -/
theorem run_kept (content : List Char) {cs : List Char}
    (h : ∀ c ∈ cs, c ≠ '\\' ∧ c ≠ Text.apostrophe) :
    (literal content).run cs = (.literal (content ++ cs), []) := by
  induction cs generalizing content with
  | nil => rw [run, List.append_nil]
  | cons c cs ih =>
    obtain ⟨hescape, hquote⟩ := h c List.mem_cons_self
    have hrest := ih (content ++ [c]) fun d hd => h d (List.mem_cons_of_mem c hd)
    rw [run, step, if_neg hescape, if_neg hquote, hrest, List.append_assoc]
    rfl

theorem run_escaped (content : List Char) (c : Char) :
    (literal content).run ['\\', c] = (.literal (content ++ ['\\', c]), []) := by
  show (literal (content ++ ['\\'] ++ [c]), []) = _
  rw [List.append_assoc]
  rfl

theorem run_controlEscape (content : List Char) {c : Char} (h : c.toNat < 0x20) :
    (literal content).run (Text.controlEscape c)
      = (.literal (content ++ Text.controlEscape c), []) := by
  have hhex : ∀ n < 16, Text.hexDigit n ≠ '\\' ∧ Text.hexDigit n ≠ Text.apostrophe := by decide
  unfold Text.controlEscape
  split
  case h_6 =>
    have hdigits : ∀ d ∈ ['0', '0', Text.hexDigit (c.toNat / 16), Text.hexDigit (c.toNat % 16)],
        d ≠ '\\' ∧ d ≠ Text.apostrophe := by
      simp only [List.forall_mem_cons]
      exact ⟨by decide, by decide, hhex _ (by omega), hhex _ (by omega), fun d hd => nomatch hd⟩
    have hall := run_append (run_escaped content 'u') (run_kept _ hdigits)
    rwa [List.append_assoc] at hall
  all_goals exact run_escaped content _

/-- One character of a value does not lead out of a literal. -/
theorem run_escapeChar (content : List Char) (c : Char) :
    (literal content).run (Text.escapeChar Text.apostrophe c)
      = (.literal (content ++ Text.escapeChar Text.apostrophe c), []) := by
  unfold Text.escapeChar
  split
  · exact run_escaped content c
  split
  · next hcontrol => exact run_controlEscape content hcontrol
  · next hplain _ =>
    rw [not_or] at hplain
    exact run_kept content (List.forall_mem_singleton.mpr hplain.symm)

theorem run_value (content cs : List Char) :
    (literal content).run (cs.flatMap (Text.escapeChar Text.apostrophe))
      = (.literal (content ++ cs.flatMap (Text.escapeChar Text.apostrophe)), []) := by
  induction cs generalizing content with
  | nil => rw [List.flatMap_nil, run, List.append_nil]
  | cons c cs ih =>
    have hall := run_append (run_escapeChar content c) (ih _)
    rwa [List.append_assoc] at hall

end Scanner

/-- What stands between the quotes of a literal. -/
def contentOf (value : String) : List Char :=
  value.toList.flatMap (Text.escapeChar Text.apostrophe)

/-- **A literal ends at its own closing quote.** -/
theorem Scanner.run_literal (value : String) :
    code.run (Text.literal value).toList = (.code, [.literal (contentOf value)]) := by
  have hopen : code.run [Text.apostrophe] = (.literal [], []) := rfl
  have hclose : (literal (contentOf value)).run [Text.apostrophe]
      = (.code, [.literal (contentOf value)]) := rfl
  rw [Text.literal, Text.quoteWith, String.toList_ofList]
  exact run_append (run_append hopen (run_value [] value.toList)) hclose

end WireModel.TypeScript

/-! ## Texts that do not end a comment -/

namespace WireModel

namespace Options

theorem closesComment_iff {cs : List Char} :
    closesComment cs = true ↔ ['*', '/'] <:+: cs := by
  fun_induction closesComment cs with
  | case1 rest => exact iff_of_true rfl ⟨[], rest, rfl⟩
  | case2 c rest hclose ih =>
    rw [ih, List.infix_cons_iff]
    refine (or_iff_right fun hprefix => ?_).symm
    obtain ⟨more, heq⟩ := hprefix
    obtain ⟨rfl, rfl⟩ := List.cons.inj heq
    exact hclose _ rfl rfl
  | case3 => exact iff_of_false (by decide) (by simp)

/-- What a text that ends no comment looks like from its first character. -/
theorem closesComment_cons_eq_false {c : Char} {cs : List Char}
    (h : closesComment (c :: cs) = false) :
    closesComment cs = false ∧ (c = '*' → cs.head? ≠ some '/') := by
  rw [Bool.eq_false_iff, ne_eq, closesComment_iff, List.infix_cons_iff, not_or] at h
  obtain ⟨hstart, hrest⟩ := h
  refine ⟨by rwa [Bool.eq_false_iff, ne_eq, closesComment_iff], ?_⟩
  rintro rfl hslash
  cases cs with
  | nil => cases hslash
  | cons d cs =>
    obtain rfl := Option.some.inj hslash
    exact hstart ⟨cs, rfl⟩

end Options

namespace Text

open Options

/-- Where the end of a comment is broken up, there is none. -/
theorem closesComment_breakCommentEnds (cs : List Char) :
    closesComment (breakCommentEnds cs) = false := by
  have hhead : ∀ cs : List Char, (breakCommentEnds cs).head? = cs.head? := by
    intro cs
    fun_cases breakCommentEnds cs <;> rfl
  fun_induction breakCommentEnds cs with
  | case1 rest ih => simpa [closesComment] using ih
  | case2 c rest hclose ih =>
    cases hrest : breakCommentEnds rest with
    | nil => simp [closesComment]
    | cons d more =>
      rw [hrest] at ih
      rw [closesComment]
      · exact ih
      · rintro _ rfl heq
        obtain ⟨rfl, rfl⟩ := List.cons.inj heq
        have hslash := hhead rest
        rw [hrest] at hslash
        cases rest with
        | nil => cases hslash
        | cons e rest =>
          obtain rfl := Option.some.inj hslash
          exact hclose rest rfl rfl
  | case3 => rfl

/-- No line of a comment ends it. -/
theorem closesComment_of_mem_commentLines {paragraph line : String}
    (h : line ∈ commentLines paragraph) : closesComment line.toList = false := by
  obtain ⟨cs, hcs, rfl⟩ := List.mem_map.mp h
  rw [String.toList_ofList] at hcs ⊢
  have hinfix : cs <:+: breakCommentEnds paragraph.toList := by
    have hjoin := infix_intercalate ['\n'] hcs
    rwa [List.intercalate_splitOn] at hjoin
  refine Bool.eq_false_iff.mpr fun hclose => ?_
  have hall := closesComment_iff.mpr ((closesComment_iff.mp hclose).trans hinfix)
  rw [closesComment_breakCommentEnds] at hall
  cases hall

theorem closesComment_starLine {line : String} (h : closesComment line.toList = false) :
    closesComment (starLine line).toList = false := by
  unfold starLine
  split
  · decide
  · rw [String.toList_append]
    show closesComment (' ' :: '*' :: ' ' :: line.toList) = false
    simpa [closesComment] using h

/-- A line behind a star is not the last line of a comment. -/
theorem starLine_ne (line : String) : starLine line ≠ " */" := by
  intro heq
  have hchars := congrArg String.toList heq
  unfold starLine at hchars
  split at hchars
  · exact absurd hchars (by decide)
  · rw [String.toList_append] at hchars
    have hthird : some ' ' = some '/' := congrArg (·[2]?) hchars
    exact absurd hthird (by decide)

/-- The lines between the first and the last line of a documentation comment. -/
theorem closesComment_of_mem_docLines {paragraphs : List String} {line : String}
    (h : line ∈ [""].intercalate (paragraphs.map commentLines)) :
    closesComment line.toList = false := by
  refine intercalate_induction (P := fun ls => ∀ l ∈ ls, closesComment l.toList = false)
    ?_ ?_ ?_ ?_ line h
  · exact fun l hl => nomatch hl
  · exact List.forall_mem_singleton.mpr rfl
  · exact fun hxs hys => List.forall_mem_append.mpr ⟨hxs, hys⟩
  · exact List.forall_mem_map.mpr fun paragraph _ l hl => closesComment_of_mem_commentLines hl

end Text

namespace TypeScript

open Options

/-! ## Comments -/

namespace Scanner

theorem run_comment_blanks {cs : List Char} (h : ∀ c ∈ cs, Text.isBlank c = true) :
    comment.run cs = (.comment, []) := by
  induction cs with
  | nil => rfl
  | cons c cs ih =>
    have hstar : c ≠ '*' := by
      rintro rfl
      exact absurd (h '*' List.mem_cons_self) (by decide)
    rw [run, step, if_neg hstar, ih fun d hd => h d (List.mem_cons_of_mem c hd)]
    rfl

/-- A line that ends no comment leaves the scanner in the comment. -/
theorem run_line {s : Scanner} {cs : List Char}
    (hs : s = .comment ∨ s = .star ∧ cs.head? ≠ some '/') (h : closesComment cs = false) :
    s.run (cs ++ ['\n']) = (.comment, []) := by
  induction cs generalizing s with
  | nil => rcases hs with rfl | ⟨rfl, -⟩ <;> rfl
  | cons c cs ih =>
    obtain ⟨hrest, hslash⟩ := closesComment_cons_eq_false h
    have hstep : s.step c = (if c = '*' then .star else .comment, []) := by
      rcases hs with rfl | ⟨rfl, hhead⟩
      · rfl
      · exact if_neg fun heq => hhead (congrArg some heq)
    rw [List.cons_append, run, hstep, ih _ hrest]
    · rfl
    · dsimp only
      split
      · next heq => exact .inr ⟨rfl, hslash heq⟩
      · exact .inl rfl

end Scanner

/-! ## Rows -/

/-- What a piece is to a scanner. A comment is found where its last line ends. -/
def Piece.lexemes : Piece → List Lexeme
  | .code s => s.toList.flatMap visible
  | .literal value => [.literal (contentOf value)]
  | .comment s => if s = " */" then [.comment] else []

def Row.lexemes (r : Row) : List Lexeme := r.pieces.flatMap Piece.lexemes

/-- The rows as they stand in a file. -/
def Block.chars (indent : String) (rows : Block) : List Char :=
  rows.flatMap fun r => (r.render indent).toList ++ ['\n']

/-- An indentation that a scanner does not see. -/
def IsBlankText (s : String) : Prop := ∀ c ∈ s.toList, Text.isBlank c = true

theorem toList_renderFile (indent : String) {rows : Block} (h : rows ≠ []) :
    (renderFile indent rows).toList = rows.chars indent := by
  have hlines : ∀ ls : List String, ls ≠ [] →
      ("\n".intercalate ls ++ "\n").toList = ls.flatMap fun l => l.toList ++ ['\n'] := by
    intro ls hls
    induction ls with
    | nil => exact absurd rfl hls
    | cons l ls ih =>
      cases ls with
      | nil => simp
      | cons m ls =>
        have hrest := ih (List.cons_ne_nil m ls)
        rw [String.toList_append] at hrest ⊢
        rw [String.intercalate_cons_cons, String.toList_append, String.toList_append,
          List.flatMap_cons, ← hrest]
        simp
  rw [renderFile, Text.unlines, hlines _ (by simpa using h), List.flatMap_map]
  rfl

/-- The indentation of a row is blank. -/
theorem Row.exists_render {indent : String} (h : IsBlankText indent) (r : Row) :
    ∃ blanks, (∀ c ∈ blanks, Text.isBlank c = true)
      ∧ (r.render indent).toList = blanks ++ r.text.toList := by
  unfold Row.render Text.indentLine
  split
  · exact ⟨[], List.forall_mem_nil _, rfl⟩
  · refine ⟨(Text.times r.level indent).toList, fun c hc => ?_, String.toList_append⟩
    rw [Text.times, String.toList_join, List.mem_flatMap] at hc
    obtain ⟨s, hs, hc⟩ := hc
    rw [List.eq_of_mem_replicate hs] at hc
    exact h c hc

/-- Where a scanner is behind a row: still in a comment, unless this is the last row of one. -/
def Row.leaves (r : Row) : Scanner :=
  match r.pieces with
  | [.comment s] => if s = " */" then .code else .comment
  | _ => .code

/-- Where a scanner is behind some rows. -/
def Block.leaves (rows : Block) : Scanner := (rows.getLast?.map Row.leaves).getD .code

/-- Behind some rows, a scanner is where the last of them leaves it, and it has found what their
pieces say. -/
def Block.Reads (indent : String) (rows : Block) : Prop :=
  Scanner.code.run (rows.chars indent) = (rows.leaves, rows.flatMap Row.lexemes)

/-- Comments and literals end where they are meant to: a scanner reads these rows as their pieces
say, whichever row it has come to, and it ends up in code again. -/
structure Block.Contained (rows : Block) : Prop where
  leaves : rows.leaves = .code
  reads : ∀ indent, IsBlankText indent → ∀ before, before <+: rows → Block.Reads indent before

/-- Code without quotes and slashes, or a literal. -/
def Piece.Inert : Piece → Prop
  | .code s => TypeScript.Inert s
  | .literal _ => True
  | .comment _ => False

def Row.Inert (r : Row) : Prop := ∀ p ∈ r.pieces, p.Inert

theorem Piece.Inert.run {p : Piece} (h : p.Inert) :
    Scanner.code.run p.text.toList = (.code, p.lexemes) := by
  cases p with
  | code s => exact Scanner.run_inert h
  | literal value => exact Scanner.run_literal value
  | comment s => exact absurd h id

theorem Row.Inert.run {r : Row} (h : r.Inert) :
    Scanner.code.run r.text.toList = (.code, r.lexemes) := by
  obtain ⟨level, pieces⟩ := r
  show Scanner.code.run (String.join (pieces.map Piece.text)).toList
    = (.code, pieces.flatMap Piece.lexemes)
  rw [String.toList_join, List.flatMap_map]
  induction pieces with
  | nil => rfl
  | cons p pieces ih =>
    have hp := (h p List.mem_cons_self).run
    exact Scanner.run_append hp (ih fun q hq => h q (List.mem_cons_of_mem p hq))

/-! ### Rows of comments -/

/-- A row between the first and the last row of a comment. -/
def Row.IsInner (level : Nat) (r : Row) : Prop :=
  ∃ line, closesComment line.toList = false ∧ r = Row.comment level (Text.starLine line)

/-- The rows of a comment before its last one. -/
theorem Block.openComment {level : Nat} {rows : Block} (h : ∀ r ∈ rows, r.IsInner level) :
    Block.leaves (Row.comment level "/**" :: rows) = .comment
      ∧ (Row.comment level "/**" :: rows).flatMap Row.lexemes = [] := by
  have hrows : ∀ r ∈ Row.comment level "/**" :: rows, r.leaves = .comment ∧ r.lexemes = [] := by
    refine List.forall_mem_cons.mpr ⟨⟨rfl, rfl⟩, fun r hr => ?_⟩
    obtain ⟨line, -, rfl⟩ := h r hr
    have hline := Text.starLine_ne line
    exact ⟨if_neg hline, (List.append_nil _).trans (if_neg hline)⟩
  constructor
  · rw [Block.leaves, List.getLast?_eq_some_getLast (List.cons_ne_nil _ _)]
    exact (hrows _ (List.getLast_mem _)).1
  · exact List.flatMap_eq_nil_iff.mpr fun r hr => (hrows r hr).2

section Comment

variable {indent : String} (hindent : IsBlankText indent) (level : Nat)

include hindent

theorem Scanner.run_openingRow :
    code.run (((Row.comment level "/**").render indent).toList ++ ['\n']) = (.comment, []) := by
  obtain ⟨blanks, hblanks, hrender⟩ := (Row.comment level "/**").exists_render hindent
  have hopen : code.run ("/**".toList ++ ['\n']) = (.comment, []) := rfl
  rw [hrender, Row.text_comment, List.append_assoc]
  exact run_append (run_blanks hblanks) hopen

theorem Scanner.run_closingRow :
    comment.run (((Row.comment level " */").render indent).toList ++ ['\n'])
      = (.code, [.comment]) := by
  obtain ⟨blanks, hblanks, hrender⟩ := (Row.comment level " */").exists_render hindent
  have hclose : comment.run (" */".toList ++ ['\n']) = (.code, [.comment]) := rfl
  rw [hrender, Row.text_comment, List.append_assoc]
  exact run_append (run_comment_blanks hblanks) hclose

theorem Scanner.run_innerRows {rows : Block} (h : ∀ r ∈ rows, r.IsInner level) :
    comment.run (Block.chars indent rows) = (.comment, []) := by
  induction rows with
  | nil => rfl
  | cons r rows ih =>
    obtain ⟨line, hcloses, rfl⟩ := h r List.mem_cons_self
    obtain ⟨blanks, hblanks, hrender⟩ :=
      (Row.comment level (Text.starLine line)).exists_render hindent
    have hline := run_line (.inl rfl) (Text.closesComment_starLine hcloses)
    rw [Block.chars, List.flatMap_cons, hrender, Row.text_comment, List.append_assoc blanks]
    exact run_append (run_append (run_comment_blanks hblanks) hline)
      (ih fun x hx => h x (List.mem_cons_of_mem _ hx))

theorem Scanner.run_openComment {rows : Block} (h : ∀ r ∈ rows, r.IsInner level) :
    code.run (Block.chars indent (Row.comment level "/**" :: rows)) = (.comment, []) :=
  run_append (run_openingRow hindent level) (run_innerRows hindent level h)

end Comment

/-! ### Blocks -/

theorem Block.leaves_append {rows : Block} (h : rows.leaves = .code) (more : Block) :
    Block.leaves (rows ++ more) = Block.leaves more := by
  rw [Block.leaves, List.getLast?_append]
  cases hlast : more.getLast? with
  | none =>
    rw [Option.none_or, Block.leaves, hlast]
    exact h
  | some r => rw [Option.some_or, Block.leaves, hlast]

/-- A prefix of two blocks ends in one of them. -/
theorem Block.prefix_append {before rows more : Block} (h : before <+: rows ++ more) :
    before <+: rows ∨ ∃ rest, rest <+: more ∧ before = rows ++ rest := by
  obtain hshort | hlong := List.prefix_or_prefix_of_prefix h (List.prefix_append rows more)
  · exact .inl hshort
  · obtain ⟨rest, rfl⟩ := hlong
    exact .inr ⟨rest, (List.prefix_append_right_inj rows).mp h, rfl⟩

namespace Block.Contained

theorem nil : Block.Contained [] := by
  refine ⟨rfl, fun indent _ before hbefore => ?_⟩
  rw [List.prefix_nil.mp hbefore]
  rfl

theorem append {rows more : Block} (hrows : rows.Contained) (hmore : more.Contained) :
    Block.Contained (rows ++ more) := by
  refine ⟨(Block.leaves_append hrows.leaves more).trans hmore.leaves, ?_⟩
  intro indent hindent before hbefore
  obtain hbefore | ⟨rest, hrest, rfl⟩ := Block.prefix_append hbefore
  · exact hrows.reads indent hindent before hbefore
  · have hfirst := hrows.reads indent hindent rows List.prefix_rfl
    rw [Block.Reads, hrows.leaves] at hfirst
    rw [Block.Reads, Block.chars, List.flatMap_append, List.flatMap_append,
      Block.leaves_append hrows.leaves]
    exact Scanner.run_append hfirst (hmore.reads indent hindent rest hrest)

theorem row {r : Row} (hr : r.Inert) : Block.Contained [r] := by
  have hleaves : r.leaves = .code := by
    unfold Row.leaves
    split
    · next s hpieces => exact absurd (hr (.comment s) (by simp [hpieces])) id
    · rfl
  refine ⟨hleaves, fun indent hindent before hbefore => ?_⟩
  obtain rfl | ⟨rest, rfl, hrest⟩ := List.prefix_cons_iff.mp hbefore
  · rfl
  · obtain rfl := List.prefix_nil.mp hrest
    obtain ⟨blanks, hblanks, hrender⟩ := r.exists_render hindent
    have hend : Scanner.code.run ['\n'] = (.code, []) := rfl
    have hline := Scanner.run_append (Scanner.run_append (Scanner.run_blanks hblanks) hr.run) hend
    rw [Block.Reads, Block.chars, List.flatMap_singleton, List.flatMap_singleton, hrender, hline,
      List.append_nil]
    exact congrArg (·, r.lexemes) hleaves.symm

theorem cons {r : Row} {rows : Block} (hr : r.Inert) (hrows : rows.Contained) :
    Block.Contained (r :: rows) :=
  append (row hr) hrows

theorem of_inert {rows : Block} (h : ∀ r ∈ rows, r.Inert) : rows.Contained := by
  induction rows with
  | nil => exact nil
  | cons r rows ih =>
    exact cons (h r List.mem_cons_self) (ih fun x hx => h x (List.mem_cons_of_mem r hx))

theorem flatMap {α : Type} {items : List α} {f : α → Block}
    (h : ∀ a ∈ items, (f a).Contained) : Block.Contained (items.flatMap f) := by
  induction items with
  | nil => exact nil
  | cons a items ih =>
    rw [List.flatMap_cons]
    exact append (h a List.mem_cons_self) (ih fun x hx => h x (List.mem_cons_of_mem a hx))

theorem blank : Block.Contained [Row.blank] := row fun _ h => nomatch h

theorem joinBlocks {blocks : List Block} (h : ∀ b ∈ blocks, b.Contained) :
    Block.Contained (joinBlocks blocks) :=
  joinBlocks_induction nil blank append h

/-- **A documentation comment ends at its own last row.** -/
theorem docRows (level : Nat) (paragraphs : List String) :
    Block.Contained (docRows level paragraphs) := by
  unfold TypeScript.docRows Text.docComment
  split
  · exact nil
  let inner := ([""].intercalate (paragraphs.map Text.commentLines)).map fun line =>
    Row.comment level (Text.starLine line)
  have hinner : ∀ r ∈ inner, r.IsInner level :=
    List.forall_mem_map.mpr fun line hline =>
      ⟨line, Text.closesComment_of_mem_docLines hline, rfl⟩
  rw [List.map_cons, List.map_append, List.map_map]
  show Block.Contained (Row.comment level "/**" :: (inner ++ [Row.comment level " */"]))
  have hleaves : Block.leaves (Row.comment level "/**" :: (inner ++ [Row.comment level " */"]))
      = .code := by
    rw [Block.leaves, ← List.cons_append, List.getLast?_concat]
    rfl
  refine ⟨hleaves, fun indent hindent before hbefore => ?_⟩
  obtain rfl | ⟨rest, rfl, hrest⟩ := List.prefix_cons_iff.mp hbefore
  · rfl
  obtain rfl | hrest := List.prefix_concat_iff.mp hrest
  · -- the whole comment: all rows but the last one leave the scanner in it
    have hall := Scanner.run_append (Scanner.run_openComment hindent level hinner)
      (Scanner.run_closingRow hindent level)
    rw [Block.Reads, hleaves, ← List.cons_append, List.flatMap_append, (Block.openComment hinner).2,
      Block.chars, List.flatMap_append, List.flatMap_singleton]
    exact hall
  · have hrest : ∀ r ∈ rest, r.IsInner level := fun r hr => hinner r (hrest.subset hr)
    rw [Block.Reads, (Block.openComment hrest).1, (Block.openComment hrest).2]
    exact Scanner.run_openComment hindent level hrest

end Block.Contained

/-- A file of contained rows is read as its rows say. -/
theorem Block.Contained.lexemesOf_renderFile {rows : Block} (h : rows.Contained) {indent : String}
    (hindent : IsBlankText indent) :
    lexemesOf (renderFile indent rows) = rows.flatMap Row.lexemes := by
  cases rows with
  | nil =>
    have hempty : renderFile indent [] = "\n" := by simp [renderFile, Text.unlines]
    rw [hempty]
    rfl
  | cons r rows =>
    have hreads := h.reads indent hindent _ List.prefix_rfl
    rw [Block.Reads, h.leaves] at hreads
    rw [lexemesOf, toList_renderFile indent (List.cons_ne_nil r rows), hreads]
    exact List.append_nil _

end TypeScript
end WireModel
