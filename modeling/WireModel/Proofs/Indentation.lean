import Mathlib.Tactic.IntervalCases
import WireModel.Proofs.FreeText
import WireModel.Proofs.LineStructure
import WireModel.Proofs.Number.Text
import WireModel.Proofs.SchemaReferences
import WireModel.Proofs.SnippetReports

/-!
# Indentation of a schema

How deep a line of JSON text lies is found by reading the text before it: a reader counts the arrays
and objects that are open, and does not look at brackets inside of texts. This module shows that the
printer indents every line by what such a reader finds, and that what it takes for one level is the
requested indentation only if that has at most ten characters.

* **`Json.Indented`** says of a text and a unit that every line stands behind one copy of the unit
  for each level, and that no blank follows. It speaks of the text alone; the reader
  (`Json.Reading`) knows nothing of the printer.
* **`Json.levelled_rows`**: the rows of a value lead the reader from a depth back to that depth, and
  each of them stands at the depth that the reader finds before it. This is the invariant behind
  everything else.
* **`Json.indented_pretty`** and **`Json.indented_pretty_iff`**: so the printed text is indented by
  the gap, and by the requested indentation iff the gap is all of it.
* **`Model.schema_indented`** is what follows for the schema of a model.
-/

namespace WireModel

namespace Json

/-! ## Nesting -/

/-- Where a reader of JSON text stands. -/
inductive Place where
  | between
  | text
  | escape
  deriving DecidableEq, Repr

/-- Where a reader stands, and how many arrays and objects are open there. -/
structure Reading where
  place : Place
  depth : Nat
  deriving DecidableEq, Repr

def opens (c : Char) : Bool := c == '[' || c == '\x7b'

def closes (c : Char) : Bool := c == ']' || c == '\x7d'

namespace Reading

/-- Reads a character. What stands in a text opens and closes nothing. -/
def step (r : Reading) (c : Char) : Reading :=
  match r.place with
  | .between =>
    if c = Text.doubleQuote then { r with place := .text }
    else if opens c then { r with depth := r.depth + 1 }
    else if closes c then { r with depth := r.depth - 1 }
    else r
  | .text =>
    if c = Text.doubleQuote then { r with place := .between }
    else if c = '\\' then { r with place := .escape }
    else r
  | .escape => { r with place := .text }

/-- Reads characters one after the other. -/
def run (r : Reading) (cs : List Char) : Reading := cs.foldl step r

end Reading

/-- A character that a line is indented with. -/
def isMargin (c : Char) : Bool := c == ' ' || c == '\t'

/-- How deep a line lies behind the lines `before`: as many arrays and objects are open there, less
the one that the line begins with closing. -/
def depthOf (before : List String) (line : String) : Nat :=
  let reading := Reading.run ⟨.between, 0⟩ (before.flatMap fun l => l.toList ++ ['\n'])
  if (line.toList.find? fun c => !isMargin c).any closes then reading.depth - 1
  else reading.depth

/-- Every line of a text stands behind one copy of `unit` for each level that it lies deep, and what
follows is neither a space nor a tab. -/
def Indented (unit text : String) : Prop :=
  ∀ before line after, Text.lines text = before ++ line :: after → ∃ c rest,
    isMargin c = false ∧ line.toList = (Text.times (depthOf before line) unit).toList ++ c :: rest

/-- The units differ in length, so they can not both indent a line that lies one level deep. -/
theorem Indented.unit_unique {unit other text : String} (h : Indented unit text)
    (hother : Indented other text) (hunit : ∀ c ∈ unit.toList, isMargin c = true)
    (hmargin : ∀ c ∈ other.toList, isMargin c = true) {before after : List String} {line : String}
    (hlines : Text.lines text = before ++ line :: after) (hdepth : depthOf before line = 1) :
    unit = other := by
  -- either unit is the longest part of the line that is made of spaces and tabs
  have htake : ∀ {u : String}, (∀ c ∈ u.toList, isMargin c = true) → Indented u text →
      line.toList.takeWhile isMargin = u.toList := by
    intro u hu hindented
    obtain ⟨c, rest, hc, hline⟩ := hindented before line after hlines
    have hone : Text.times 1 u = u := by simp [Text.times, String.join]
    rw [hline, hdepth, hone, List.takeWhile_append_of_pos hu,
      List.takeWhile_cons_of_neg (by simp [hc]), List.append_nil]
  exact String.toList_inj.mp ((htake hunit h).symm.trans (htake hmargin hother))

/-! ## Pieces of a line -/

/-- A character that changes nothing for a reader outside of texts. -/
def isNeutral (c : Char) : Bool := c != Text.doubleQuote && !opens c && !closes c

namespace Reading

theorem run_append (r : Reading) (cs ds : List Char) : r.run (cs ++ ds) = (r.run cs).run ds :=
  List.foldl_append ..

theorem run_cons (r : Reading) (c : Char) (cs : List Char) : r.run (c :: cs) = (r.step c).run cs :=
  rfl

theorem run_neutral {cs : List Char} (h : ∀ c ∈ cs, isNeutral c = true) (depth : Nat) :
    run ⟨.between, depth⟩ cs = ⟨.between, depth⟩ := by
  induction cs with
  | nil => rfl
  | cons c cs ih =>
    obtain ⟨hc, hcs⟩ := List.forall_mem_cons.mp h
    have hstep : step ⟨.between, depth⟩ c = ⟨.between, depth⟩ := by
      simp only [isNeutral, Bool.and_eq_true, bne_iff_ne, Bool.not_eq_true'] at hc
      simp [step, hc]
    rw [run_cons, hstep, ih hcs]

theorem run_escapeChar (depth : Nat) (c : Char) :
    run ⟨.text, depth⟩ (Text.escapeChar Text.doubleQuote c) = ⟨.text, depth⟩ := by
  unfold Text.escapeChar
  split_ifs with hmark hcontrol
  · -- whatever follows a backslash ends the escape
    rfl
  · -- nor do the letters and digits of a longer escape end the text
    have hall : ∀ n < 0x20,
        run ⟨.text, depth⟩ (Text.controlEscape (Char.ofNat n)) = ⟨.text, depth⟩ := by
      intro n hn
      interval_cases n <;> rfl
    have hchar := hall c.toNat hcontrol
    rwa [Char.ofNat_toNat] at hchar
  · obtain ⟨hquote, hbackslash⟩ := not_or.mp hmark
    show step ⟨.text, depth⟩ c = _
    simp [step, hquote, hbackslash]

theorem run_escaped (depth : Nat) (cs : List Char) :
    run ⟨.text, depth⟩ (cs.flatMap (Text.escapeChar Text.doubleQuote)) = ⟨.text, depth⟩ := by
  induction cs with
  | nil => rfl
  | cons c cs ih => rw [List.flatMap_cons, run_append, run_escapeChar, ih]

/-- A quoted text opens and closes nothing, whatever stands in it. -/
theorem run_quote (depth : Nat) (s : String) :
    run ⟨.between, depth⟩ (Text.quote s).toList = ⟨.between, depth⟩ := by
  have hopen : step ⟨.between, depth⟩ Text.doubleQuote = ⟨.text, depth⟩ := rfl
  have hclose : run ⟨.text, depth⟩ [Text.doubleQuote] = ⟨.between, depth⟩ := rfl
  rw [Text.quote, Text.quoteWith, String.toList_ofList, List.cons_append, run_cons, hopen,
    run_append, run_escaped, hclose]

end Reading

/-- A piece of a line that opens and closes nothing, and does not begin with a blank. -/
structure IsPiece (s : String) : Prop where
  line : Text.IsLine s
  head : ∀ c ∈ s.toList.head?, isMargin c = false ∧ closes c = false
  run : ∀ depth, Reading.run ⟨.between, depth⟩ s.toList = ⟨.between, depth⟩

theorem head?_append_of_mem {c : Char} {s : String} (h : c ∈ s.toList.head?) (t : String) :
    c ∈ (s ++ t).toList.head? := by
  rw [String.toList_append, List.head?_append, Option.mem_def.mp h]
  rfl

theorem isPiece_empty : IsPiece "" where
  line := by decide
  head := nofun
  run _ := rfl

theorem isPiece_of_neutral {s : String} (hline : Text.IsLine s)
    (hhead : ∀ c ∈ s.toList.head?, isMargin c = false)
    (hneutral : ∀ c ∈ s.toList, isNeutral c = true) : IsPiece s where
  line := hline
  head := by
    intro c hc
    have hcloses := hneutral c (List.mem_of_mem_head? hc)
    simp only [isNeutral, Bool.and_eq_true, Bool.not_eq_true'] at hcloses
    exact ⟨hhead c hc, hcloses.2⟩
  run := Reading.run_neutral hneutral

/-- The same for a fixed text, where it can be computed. -/
theorem isPiece_fixed {s : String} (hline : Text.IsLine s)
    (hhead : s.toList.head?.all (fun c => !isMargin c) = true)
    (hneutral : s.toList.all isNeutral = true) : IsPiece s := by
  refine isPiece_of_neutral hline (fun c hc => ?_) (List.all_eq_true.mp hneutral)
  rw [Option.mem_def.mp hc] at hhead
  simpa using hhead

theorem isPiece_comma : IsPiece "," := isPiece_fixed (by decide) (by decide) (by decide)

theorem isPiece_null : IsPiece "null" := isPiece_fixed (by decide) (by decide) (by decide)

theorem isPiece_quote (s : String) : IsPiece (Text.quote s) where
  line := Text.isLine_quote s
  head := by
    intro c hc
    obtain rfl : Text.doubleQuote = c := by simpa [Text.quote, Text.quoteWith] using hc
    decide
  run depth := Reading.run_quote depth s

theorem IsPiece.append {s t : String} (hs : IsPiece s) (ht : IsPiece t) : IsPiece (s ++ t) where
  line := Text.IsLine.append hs.line ht.line
  head := by
    intro c hc
    rw [String.toList_append, List.head?_append, Option.mem_def, Option.or_eq_some_iff] at hc
    exact hc.elim (hs.head c) fun hc => ht.head c hc.2
  run depth := by rw [String.toList_append, Reading.run_append, hs.run, ht.run]

theorem isPiece_key (key : String) : IsPiece (Text.quote key ++ ": ") :=
  (isPiece_quote key).append (isPiece_fixed (by decide) (by decide) (by decide))

/-! ## Rows of a value -/

/-- A value all of whose numbers are in normal form, as numbers that are read are. -/
inductive Normal : Json → Prop where
  | null : Normal .null
  | bool (b : Bool) : Normal (.bool b)
  | number {x : Binary64} (h : x.Normal) : Normal (.number x)
  | text (s : String) : Normal (.text s)
  | array {items : List Json} (h : ∀ item ∈ items, Normal item) : Normal (.array items)
  | object {members : Members} (h : ∀ m ∈ members, Normal m.2) : Normal (.object members)

namespace Row

/-- A row leads a reader from the depth `d` to the depth `e`, and it stands at the depth of what is
open before it, less what it begins with closing. -/
structure Leads (r : Row) (d e : Nat) : Prop where
  line : Text.IsLine r.text
  head : ∃ c ∈ r.text.toList.head?, isMargin c = false ∧ r.depth = if closes c then d - 1 else d
  run : Reading.run ⟨.between, d⟩ r.text.toList = ⟨.between, e⟩

theorem leads_piece {s : String} (h : IsPiece s) (hne : s ≠ "") (d : Nat) :
    (Row.mk d s).Leads d d where
  line := h.line
  head := by
    obtain ⟨c, cs, hs⟩ := List.exists_cons_of_ne_nil (mt String.toList_eq_nil_iff.mp hne)
    have hc : c ∈ s.toList.head? := by rw [hs]; rfl
    obtain ⟨hmargin, hcloses⟩ := h.head c hc
    exact ⟨c, hc, hmargin, by simp [hcloses]⟩
  run := h.run d

theorem Leads.before {k d e : Nat} {s t : String} (h : (Row.mk k s).Leads d e) (ht : IsPiece t) :
    (Row.mk k (s ++ t)).Leads d e where
  line := Text.IsLine.append h.line ht.line
  head := by
    obtain ⟨c, hc, hmargin, hdepth⟩ := h.head
    exact ⟨c, head?_append_of_mem hc t, hmargin, hdepth⟩
  run := by
    rw [String.toList_append, Reading.run_append, h.run, ht.run]

theorem Leads.behind {d e : Nat} {s t : String} (h : (Row.mk d t).Leads d e) (hs : IsPiece s) :
    (Row.mk d (s ++ t)).Leads d e where
  line := Text.IsLine.append hs.line h.line
  head := by
    by_cases hne : s = ""
    · rw [hne, String.empty_append]
      exact h.head
    · obtain ⟨c, hc, hmargin, hdepth⟩ := (leads_piece hs hne d).head
      exact ⟨c, head?_append_of_mem hc t, hmargin, hdepth⟩
  run := by
    rw [String.toList_append, Reading.run_append, hs.run, h.run]

/-- The line that a row is printed as. -/
def line (gap : String) (r : Row) : String := Text.times r.depth gap ++ r.text

end Row

/-- Rows that lead a reader from one depth to another. -/
inductive Levelled : Nat → List Row → Nat → Prop where
  | nil (d : Nat) : Levelled d [] d
  | cons {d e f : Nat} {r : Row} {rows : List Row} (hr : r.Leads d e)
      (hrows : Levelled e rows f) : Levelled d (r :: rows) f

theorem Levelled.single {d e : Nat} {r : Row} (h : r.Leads d e) : Levelled d [r] e :=
  .cons h (.nil e)

theorem Levelled.append {d e f : Nat} {rows more : List Row} (h : Levelled d rows e)
    (hmore : Levelled e more f) : Levelled d (rows ++ more) f := by
  induction h with
  | nil => exact hmore
  | cons hr _ ih => exact .cons hr (ih hmore)

/-- No character of a number means anything to a reader. -/
theorem neutral_of_isNumeral {c : Char} (h : Binary64.isNumeral c = true) :
    isNeutral c = true ∧ isMargin c = false := by
  have hfixed : ∀ d ∈ [Text.doubleQuote, '[', '\x7b', ']', '\x7d', ' ', '\t'], c ≠ d := by
    rintro d hd rfl
    simp only [List.mem_cons, List.not_mem_nil, or_false] at hd
    rcases hd with rfl | rfl | rfl | rfl | rfl | rfl | rfl <;> exact absurd h (by decide)
  simp only [List.forall_mem_cons] at hfixed
  simp [isNeutral, isMargin, opens, closes, hfixed]

theorem neutral_of_isMargin {c : Char} (h : isMargin c = true) : isNeutral c = true := by
  have hchar : c = ' ' ∨ c = '\t' := by simpa [isMargin] using h
  rcases hchar with rfl | rfl <;> rfl

theorem isPiece_numberText (x : Binary64) : IsPiece (numberText x) := by
  unfold numberText
  split
  · have hneutral := fun c (hc : c ∈ x.text.toList) =>
      neutral_of_isNumeral (Binary64.mem_text hc)
    exact isPiece_of_neutral x.isLine_text
      (fun c hc => (hneutral c (List.mem_of_mem_head? hc)).2) fun c hc => (hneutral c hc).1
  · exact isPiece_null

theorem numberText_ne_empty {x : Binary64} (h : x.Normal) : numberText x ≠ "" := by
  intro hempty
  cases x with
  | infinite =>
    have hnull : "null" = "" := hempty
    exact absurd hnull (by decide)
  | finite negative mantissa exponent =>
    rcases Nat.eq_zero_or_pos mantissa with rfl | hpos
    · have hzero : "0" = "" := hempty
      exact absurd hzero (by decide)
    · -- a text that is read back as a number is not empty
      have hread := Binary64.numberOf_text hpos h
      have htext : (Binary64.finite negative mantissa exponent).text = "" := hempty
      rw [htext] at hread
      cases hread

section Rows

variable {lead trail : String} (hlead : IsPiece lead) (htrail : IsPiece trail)

include hlead htrail

theorem levelled_piece {s : String} (hs : IsPiece s) (hne : s ≠ "") (d : Nat) :
    Levelled d [⟨d, lead ++ s ++ trail⟩] d :=
  .single (((Row.leads_piece hs hne d).behind hlead).before htrail)

/-- Rows one level deeper, between the row that opens them and the row that closes them. -/
theorem levelled_enclosed {bracket closing : String} {d : Nat} {rows : List Row}
    (hopen : (Row.mk d bracket).Leads d (d + 1)) (hrows : Levelled (d + 1) rows (d + 1))
    (hclose : (Row.mk d closing).Leads (d + 1) d) :
    Levelled d (⟨d, lead ++ bracket⟩ :: (rows ++ [⟨d, closing ++ trail⟩])) d :=
  .cons (hopen.behind hlead) (hrows.append (.single (hclose.before htrail)))

end Rows

theorem leads_open {s : String} {c : Char} (hs : s.toList = [c]) (hc : opens c = true) (d : Nat) :
    (Row.mk d s).Leads d (d + 1) := by
  have hchar : c = '[' ∨ c = '\x7b' := by simpa [opens] using hc
  refine ⟨?_, ⟨c, by rw [hs]; rfl, ?_⟩, ?_⟩
  · rw [Text.IsLine, hs]
    rcases hchar with rfl | rfl <;> decide
  · rcases hchar with rfl | rfl <;> exact ⟨rfl, rfl⟩
  · rw [hs]
    rcases hchar with rfl | rfl <;> rfl

theorem leads_close {s : String} {c : Char} (hs : s.toList = [c]) (hc : closes c = true)
    (d : Nat) : (Row.mk d s).Leads (d + 1) d := by
  have hchar : c = ']' ∨ c = '\x7d' := by simpa [closes] using hc
  refine ⟨?_, ⟨c, by rw [hs]; rfl, ?_⟩, ?_⟩
  · rw [Text.IsLine, hs]
    rcases hchar with rfl | rfl <;> decide
  · rcases hchar with rfl | rfl <;> exact ⟨rfl, rfl⟩
  · rw [hs]
    rcases hchar with rfl | rfl <;> rfl

/-- An opening bracket and the one that closes it. -/
theorem isPiece_brackets {s t : String} {c d : Char} (hs : s.toList = [c]) (hc : opens c = true)
    (ht : t.toList = [d]) (hd : closes d = true) : IsPiece (s ++ t) where
  line := Text.IsLine.append (leads_open hs hc 0).line (leads_close ht hd 0).line
  head := by
    have hchar : c = '[' ∨ c = '\x7b' := by simpa [opens] using hc
    rw [String.toList_append, hs, ht]
    rcases hchar with rfl | rfl <;> simp [isMargin, closes]
  run depth := by
    rw [String.toList_append, Reading.run_append, (leads_open hs hc depth).run,
      (leads_close ht hd depth).run]

/-- What the rows of a value do to a reader, wherever the value stands. -/
def IsLevelled (v : Json) : Prop :=
  ∀ d lead trail, IsPiece lead → IsPiece trail → Levelled d (rows d lead trail v) d

theorem levelled_itemRows {items : List Json} (h : ∀ item ∈ items, item.IsLevelled) (d : Nat) :
    Levelled d (itemRows d items) d := by
  induction items with
  | nil => exact .nil d
  | cons item rest ih =>
    obtain ⟨hitem, hrest⟩ := List.forall_mem_cons.mp h
    cases rest with
    | nil => exact hitem d "" "" isPiece_empty isPiece_empty
    | cons => exact (hitem d "" "," isPiece_empty isPiece_comma).append (ih hrest)

theorem levelled_memberRows {members : Members} (h : ∀ m ∈ members, m.2.IsLevelled) (d : Nat) :
    Levelled d (memberRows d members) d := by
  induction members with
  | nil => exact .nil d
  | cons m rest ih =>
    obtain ⟨hvalue, hrest⟩ := List.forall_mem_cons.mp h
    cases rest with
    | nil => exact hvalue d _ "" (isPiece_key m.1) isPiece_empty
    | cons => exact (hvalue d _ "," (isPiece_key m.1) isPiece_comma).append (ih hrest)

/-- **The rows of a value lead from a depth back to that depth.** -/
theorem levelled_rows {v : Json} (h : v.Normal) : v.IsLevelled := by
  induction h with
  | null =>
    intro d lead trail hlead htrail
    exact levelled_piece hlead htrail isPiece_null (by decide) d
  | bool b =>
    intro d lead trail hlead htrail
    have hpiece : IsPiece (if b then "true" else "false") := by
      cases b <;> exact isPiece_fixed (by decide) (by decide) (by decide)
    exact levelled_piece hlead htrail hpiece (by cases b <;> decide) d
  | @number x hx =>
    intro d lead trail hlead htrail
    exact levelled_piece hlead htrail (isPiece_numberText x) (numberText_ne_empty hx) d
  | text s =>
    intro d lead trail hlead htrail
    have hne : Text.quote s ≠ "" := by simp [Text.quote, Text.quoteWith]
    exact levelled_piece hlead htrail (isPiece_quote s) hne d
  | @array items _ ih =>
    intro d lead trail hlead htrail
    cases items with
    | nil =>
      have hpiece : IsPiece ("[" ++ "]") := isPiece_brackets rfl rfl rfl rfl
      exact levelled_piece hlead htrail hpiece (by decide) d
    | cons item rest =>
      exact levelled_enclosed hlead htrail (leads_open rfl rfl d)
        (levelled_itemRows ih (d + 1)) (leads_close rfl rfl d)
  | @object members _ ih =>
    intro d lead trail hlead htrail
    cases members with
    | nil =>
      have hrow : rows d lead trail (.object [])
          = [⟨d, lead ++ (openBrace ++ closeBrace) ++ trail⟩] := by
        rw [rows, @String.append_assoc lead openBrace closeBrace]
      rw [hrow]
      exact levelled_piece hlead htrail (isPiece_brackets rfl rfl rfl rfl) (by decide) d
    | cons m rest =>
      exact levelled_enclosed hlead htrail (leads_open rfl rfl d)
        (levelled_memberRows ih (d + 1)) (leads_close rfl rfl d)

/-! ## Printed values -/

section Print

variable {gap : String} (hgap : ∀ c ∈ gap.toList, isMargin c = true)

include hgap

theorem isMargin_of_mem_times {n : Nat} {c : Char} (hc : c ∈ (Text.times n gap).toList) :
    isMargin c = true := by
  rw [Text.times, String.toList_join, List.mem_flatMap] at hc
  obtain ⟨copy, hcopy, hc⟩ := hc
  rw [List.eq_of_mem_replicate hcopy] at hc
  exact hgap c hc

/-- A reader that has passed the first of some rows stands at the depth that the next row begins
at. -/
theorem Levelled.exists_reading {d e : Nat} {rows : List Row} (h : Levelled d rows e)
    {before after : List Row} {r : Row} (hrows : rows = before ++ r :: after) :
    ∃ m n, Reading.run ⟨.between, d⟩
        ((before.map (Row.line gap)).flatMap fun l => l.toList ++ ['\n']) = ⟨.between, m⟩
      ∧ r.Leads m n := by
  induction h generalizing before with
  | nil => simp at hrows
  | @cons d e f r' rows hr _ ih =>
    cases before with
    | nil =>
      obtain ⟨rfl, rfl⟩ := List.cons.inj hrows
      exact ⟨d, e, rfl, hr⟩
    | cons first before =>
      obtain ⟨rfl, hrest⟩ := List.cons.inj hrows
      obtain ⟨m, n, hrun, hleads⟩ := ih hrest
      refine ⟨m, n, ?_, hleads⟩
      have hindent : Reading.run ⟨.between, d⟩ (Text.times r'.depth gap).toList = ⟨.between, d⟩ :=
        Reading.run_neutral (fun c hc => neutral_of_isMargin (isMargin_of_mem_times hgap hc)) d
      have hfeed : Reading.run ⟨.between, e⟩ ['\n'] = ⟨.between, e⟩ := rfl
      rw [List.map_cons, List.flatMap_cons, Row.line, String.toList_append, Reading.run_append,
        Reading.run_append, Reading.run_append, hindent, hr.run, hfeed, hrun]

/-- A row stands at the depth of its line. -/
theorem Levelled.depthOf_eq {e : Nat} {rows : List Row} (h : Levelled 0 rows e)
    {before after : List Row} {r : Row} (hrows : rows = before ++ r :: after) :
    depthOf (before.map (Row.line gap)) (r.line gap) = r.depth ∧ Text.IsLine r.text
      ∧ ∃ c rest, isMargin c = false ∧ r.text.toList = c :: rest := by
  obtain ⟨m, n, hrun, hleads⟩ := h.exists_reading hgap hrows
  obtain ⟨c, hc, hmargin, hdepth⟩ := hleads.head
  obtain ⟨rest, htext⟩ := List.head?_eq_some_iff.mp hc
  have hskip : (Text.times r.depth gap).toList.find? (fun c => !isMargin c) = none := by
    rw [List.find?_eq_none]
    intro c hc
    simp [isMargin_of_mem_times hgap hc]
  have hfirst : (r.line gap).toList.find? (fun c => !isMargin c) = some c := by
    rw [Row.line, String.toList_append, List.find?_append, hskip, Option.none_or, htext,
      List.find?_cons_of_pos (by simp [hmargin])]
  refine ⟨?_, hleads.line, c, rest, hmargin, htext⟩
  rw [depthOf, hrun, hfirst, hdepth]
  rfl

/-- The lines of rows are the rows, each of them indented. -/
theorem Levelled.indented {e : Nat} {rows : List Row} (h : Levelled 0 rows e) (hne : rows ≠ []) :
    Text.lines (Text.unlines (rows.map (Row.line gap))) = rows.map (Row.line gap)
      ∧ Indented gap (Text.unlines (rows.map (Row.line gap))) := by
  have hlines : Text.lines (Text.unlines (rows.map (Row.line gap))) = rows.map (Row.line gap) := by
    refine (Text.lines_unlines_iff (by simpa using hne)).mpr (List.forall_mem_map.mpr ?_)
    intro r hr
    obtain ⟨before, after, hrows⟩ := List.append_of_mem hr
    have hmargin : Text.IsLine (Text.times r.depth gap) := by
      intro hfeed
      exact absurd (isMargin_of_mem_times hgap hfeed) (by decide)
    exact Text.IsLine.append hmargin (h.depthOf_eq hgap hrows).2.1
  refine ⟨hlines, fun before line after hsplit => ?_⟩
  rw [hlines] at hsplit
  obtain ⟨first, last, rfl, rfl, hlast⟩ := List.map_eq_append_iff.mp hsplit
  obtain ⟨r, last, rfl, rfl, rfl⟩ := List.map_eq_cons_iff.mp hlast
  obtain ⟨hdepth, -, c, rest, hc, htext⟩ := h.depthOf_eq hgap rfl
  refine ⟨c, rest, hc, ?_⟩
  rw [hdepth, Row.line, String.toList_append, htext]

end Print

theorem isMargin_gapOf {indent : String} (h : ∀ c ∈ indent.toList, isMargin c = true) :
    ∀ c ∈ (gapOf indent).toList, isMargin c = true := by
  intro c hc
  rw [gapOf, String.toList_ofList] at hc
  exact h c (List.mem_of_mem_take hc)

theorem gapOf_eq_iff {indent : String} : gapOf indent = indent ↔ indent.length ≤ 10 := by
  rw [← String.toList_inj, gapOf, String.toList_ofList, List.take_eq_self_iff, String.length_toList]

theorem gapOf_ne_empty {indent : String} (h : indent ≠ "") : gapOf indent ≠ "" := by
  rw [Ne, ← String.toList_inj, gapOf, String.toList_ofList]
  simpa using h

/-- The first row of a value stands at the depth of the value. -/
theorem rows_eq_cons (d : Nat) (lead trail : String) (v : Json) :
    ∃ text more, rows d lead trail v = ⟨d, text⟩ :: more := by
  cases v with
  | null | bool | number | text => exact ⟨_, _, rfl⟩
  | array items => cases items <;> exact ⟨_, _, rfl⟩
  | object members => cases members <;> exact ⟨_, _, rfl⟩

/-- Behind its brace, an object goes on with a row one level deeper. -/
theorem rows_object (m : String × Json) (members : Members) :
    ∃ text more, rows 0 "" "" (object (m :: members))
      = [⟨0, "" ++ openBrace⟩] ++ ⟨1, text⟩ :: more := by
  obtain ⟨trail, rest, hmembers⟩ : ∃ trail rest, memberRows 1 (m :: members)
      = rows 1 (Text.quote m.1 ++ ": ") trail m.2 ++ rest := by
    cases members with
    | nil => exact ⟨"", [], (List.append_nil _).symm⟩
    | cons => exact ⟨",", _, rfl⟩
  obtain ⟨text, more, hfirst⟩ := rows_eq_cons 1 (Text.quote m.1 ++ ": ") trail m.2
  have hobject : rows 0 "" "" (object (m :: members))
      = ⟨0, "" ++ openBrace⟩ :: (memberRows 1 (m :: members) ++ [⟨0, closeBrace ++ ""⟩]) := rfl
  rw [hobject, hmembers, hfirst]
  exact ⟨text, _, rfl⟩

section Pretty

variable {indent : String} (hne : indent ≠ "")

include hne

theorem pretty_eq (v : Json) :
    pretty indent v = Text.unlines ((rows 0 "" "" v).map (Row.line (gapOf indent))) := by
  have hgap : (gapOf indent).isEmpty = false := by
    simpa using gapOf_ne_empty hne
  simp only [pretty, hgap]
  rfl

variable (hindent : ∀ c ∈ indent.toList, isMargin c = true)

include hindent

/-- **What is printed is indented by the gap.** -/
theorem indented_pretty {v : Json} (h : v.Normal) : Indented (gapOf indent) (pretty indent v) := by
  obtain ⟨text, more, hrows⟩ := rows_eq_cons 0 "" "" v
  have hlevelled := levelled_rows h 0 "" "" isPiece_empty isPiece_empty
  rw [pretty_eq hne]
  exact (hlevelled.indented (isMargin_gapOf hindent) (by simp [hrows])).2

/-- **An object is indented as requested iff the gap is all of the indentation.** -/
theorem indented_pretty_iff {m : String × Json} {members : Members}
    (h : (object (m :: members)).Normal) :
    Indented indent (pretty indent (object (m :: members))) ↔ indent.length ≤ 10 := by
  have hprinted := indented_pretty hne hindent h
  refine ⟨fun hrequested => ?_, fun hshort => by rwa [gapOf_eq_iff.mpr hshort] at hprinted⟩
  -- the line of the first member lies one level deep, and that tells the units apart
  have hgap := isMargin_gapOf hindent
  have hlevelled := levelled_rows h 0 "" "" isPiece_empty isPiece_empty
  obtain ⟨text, more, hrows⟩ := rows_object m members
  have hlines : Text.lines (pretty indent (object (m :: members)))
      = [⟨0, "" ++ openBrace⟩].map (Row.line (gapOf indent))
        ++ (Row.mk 1 text).line (gapOf indent) :: more.map (Row.line (gapOf indent)) := by
    rw [pretty_eq hne, (hlevelled.indented hgap (by simp [hrows])).1, hrows]
    rfl
  exact gapOf_eq_iff.mp (hprinted.unit_unique hrequested hgap hindent hlines
    (hlevelled.depthOf_eq hgap hrows).1)

end Pretty

/-! ## Values in normal form -/

theorem normal_object_iff {members : Members} :
    (object members).Normal ↔ ∀ m ∈ members, m.2.Normal :=
  ⟨fun | .object h => h, .object⟩

theorem normal_array_iff {items : List Json} :
    (array items).Normal ↔ ∀ item ∈ items, item.Normal :=
  ⟨fun | .array h => h, .array⟩

@[simp] theorem normal_text (s : String) : (text s).Normal := .text s

@[simp] theorem normal_bool (b : Bool) : (bool b).Normal := .bool b

@[simp] theorem normal_texts (items : List String) : (texts items).Normal :=
  .array (List.forall_mem_map.mpr fun s _ => .text s)

@[simp] theorem normal_empty : (object []).Normal := .object nofun

@[simp] theorem normal_cons_iff {m : String × Json} {rest : Members} :
    (object (m :: rest)).Normal ↔ m.2.Normal ∧ (object rest).Normal := by
  simp only [normal_object_iff, List.forall_mem_cons]

@[simp] theorem normal_append_iff {first second : Members} :
    (object (first ++ second)).Normal ↔ (object first).Normal ∧ (object second).Normal := by
  simp only [normal_object_iff, List.forall_mem_append]

theorem normal_ofList {pairs : List (String × Json)} (h : ∀ m ∈ pairs, m.2.Normal) :
    (object (Members.ofList pairs)).Normal :=
  .object fun _ hm => h _ (Members.mem_of_mem_ofList hm)

end Json

/-! ## The schema of a model -/

namespace Schema

open Codec

variable {t : Table} {key : String}

theorem normal_withDescription (description : Option Description) {schema : Json.Members}
    (h : (Json.object schema).Normal) :
    (Json.object (withDescription description schema)).Normal := by
  cases description with
  | none => exact h
  | some d => simpa [withDescription] using h

theorem normal_ofPrimitive (kind : Primitive) : (Json.object (ofPrimitive kind)).Normal := by
  cases kind <;> simp [ofPrimitive]

theorem normal_ofAtom (t : Table) (a : Atom) : (Json.object (ofAtom t a)).Normal := by
  cases a with
  | primitive kind => exact normal_ofPrimitive kind
  | named name =>
    rw [ofAtom]
    split <;> simp [reference]

theorem normal_ofField (t : Table) (type : FieldType Atom) :
    (Json.object (ofField t type)).Normal := by
  rw [ofField]
  split
  · simp [normal_ofAtom]
  · exact normal_ofAtom t type.item

theorem normal_ofClass (t : Table) (key : String) (c : ClassPlan) :
    (Json.object (ofClass t key c)).Normal := by
  have hproperties : (Json.object (properties t key c)).Normal := by
    refine Json.normal_ofList (List.forall_mem_append.mpr ⟨List.forall_mem_map.mpr ?_, ?_⟩)
    · intro m _
      exact normal_withDescription _ (normal_ofField t m.property.type)
    · split <;> simp
  refine normal_withDescription _ ?_
  split <;> simp [hproperties]

theorem normal_choiceOf (i : Interface) : (choiceOf i).2.Normal := by
  simp [choiceOf, Json.normal_array_iff, reference]

/-- Without handwritten classes, no number finds its way into a schema. -/
theorem normal_build {plan : Plan} (hplan : Plan.of t = .ok plan)
    (hgenerated : ∀ c ∈ t.classes, c.isHandwritten = false) {snippets : Snippets}
    (hsilent : (definitions plan key snippets).2 = []) :
    (build plan key snippets).1.Normal := by
  have hdefinitions : (Json.object (definitions plan key snippets).1).Normal := by
    refine .object fun m hm => ?_
    rcases mem_definitions hplan hsilent hm with ⟨s, hs, -, hdescribes⟩ | ⟨i, -, rfl⟩
    · obtain ⟨name, definition⟩ := m
      cases hdescribes with
      | enumeration e => exact normal_withDescription _ (by simp)
      | constrained c => exact normal_withDescription _ (normal_ofPrimitive _)
      | generated _ _ => exact normal_ofClass t key _
      | handwritten hhand _ =>
        rw [hgenerated _ (Table.mem_classes.mpr hs)] at hhand
        cases hhand
    · exact normal_choiceOf i
  unfold build
  cases plan.table.description <;> simp [hdefinitions]

end Schema

theorem Table.handwritten_eq_nil {t : Table} (h : ∀ c ∈ t.classes, c.isHandwritten = false) :
    t.handwritten = [] := by
  refine List.map_eq_nil_iff.mpr (List.filter_eq_nil_iff.mpr fun c hc => ?_)
  rw [h c (List.mem_filter.mp hc).1]
  exact Bool.false_ne_true

theorem Options.isMargin_indent {settings : Settings} {o : Options}
    (h : Options.resolve settings = .ok o) :
    o.indent ≠ "" ∧ ∀ c ∈ o.indent.toList, Json.isMargin c = true := by
  have hindent := isIndent_of_resolve h
  simp only [isIndent, Bool.and_eq_true, Bool.or_eq_true, List.all_eq_true, beq_iff_eq] at hindent
  obtain ⟨hne, hchars⟩ := hindent
  refine ⟨by simpa using hne, fun c hc => ?_⟩
  rcases hchars with hspaces | htabs
  · rw [hspaces c hc]
    rfl
  · rw [htabs c hc]
    rfl

/-- What the schema of a table is indented by. -/
theorem Table.Sound.indented_schema {key : String} {t : Table} (h : t.Sound key)
    (hgenerated : ∀ c ∈ t.classes, c.isHandwritten = false) {o : Options} (hne : o.indent ≠ "")
    (hindent : ∀ c ∈ o.indent.toList, Json.isMargin c = true) (snippets : Snippets) :
    ∃ text, generate t .jsonschema o snippets = .ok
        (if t.constructorDiagnostics = [] then .ok [⟨"schema.json", text ++ "\n"⟩]
          else .error t.constructorDiagnostics)
      ∧ Json.Indented (Json.gapOf o.indent) text
      ∧ (Json.Indented o.indent text ↔ o.indent.length ≤ 10) := by
  obtain ⟨plan, hplan⟩ := h.exists_plan
  have hplans := Codec.Plan.plans_of_eq_ok hplan
  have hhand : t.handwritten = [] := t.handwritten_eq_nil hgenerated
  have hsilent : (Schema.build plan o.discriminatorKey snippets).2 = [] := by
    rw [log_schema hplans, hhand]
    rfl
  have hproblems : t.problems .jsonschema snippets = t.constructorDiagnostics := by
    rw [problems, hhand]
    exact List.append_nil _
  have hnormal := Schema.normal_build hplan hgenerated hsilent
  refine ⟨_, ?_, Json.indented_pretty hne hindent hnormal,
    Json.indented_pretty_iff hne hindent hnormal⟩
  rw [generate, hplan]
  refine congrArg Except.ok ((Codec.Plan.generate_eq hplans .jsonschema o snippets).trans ?_)
  rw [hproblems]
  rfl

/-- **The schema is indented by the gap.** A model without handwritten classes has its schema
generated, unless a constructor does not fit. Every line of it stands behind one gap for each array
or object that is open, and the gap is the requested indentation iff that has at most ten
characters: of a longer one, only the first ten count. -/
theorem Model.schema_indented {settings : Settings} {o : Options}
    (ho : Options.resolve settings = .ok o) {value : Json} {table : Table}
    (h : compile value o = .ok table) (hgenerated : ∀ c ∈ table.classes, c.isHandwritten = false)
    (snippets : Snippets) :
    ∃ text, generate table .jsonschema o snippets = .ok
        (if table.constructorDiagnostics = [] then .ok [⟨"schema.json", text ++ "\n"⟩]
          else .error table.constructorDiagnostics)
      ∧ Json.Indented (Json.gapOf o.indent) text
      ∧ (Json.Indented o.indent text ↔ o.indent.length ≤ 10) := by
  obtain ⟨hne, hindent⟩ := Options.isMargin_indent ho
  exact (Model.sound_of_load h).indented_schema hgenerated hne hindent snippets

/-- A description with brackets in it, and a list. -/
def drawers : Json :=
  .object [("name", .text "drawers"), ("description", .text "Socks [and] \x7bother things."),
    ("types", .array [
      .object [("kind", .text "concreteClass"), ("name", .text "drawer"),
        ("properties", .array [
          .object [("name", .text "labels"), ("type", .text "List[str]")]]),
        ("constructorArguments", .array [
          .object [("name", .text "labels"), ("type", .text "List[str]")]])]])]

theorem exists_drawers (o : Options) (h : ((compile drawers o).toOption.any fun t =>
      decide ((∀ c ∈ t.classes, c.isHandwritten = false) ∧ t.constructorDiagnostics = [])) = true) :
    ∃ table, compile drawers o = .ok table ∧ (∀ c ∈ table.classes, c.isHandwritten = false)
      ∧ table.constructorDiagnostics = [] := by
  cases hcompile : compile drawers o with
  | error => simp [hcompile, Except.toOption] at h
  | ok table =>
    rw [hcompile] at h
    exact ⟨table, rfl, of_decide_eq_true h⟩

/-- A tab for each level. -/
theorem drawers_indented : ∃ table text,
    Options.resolve { indent := some "\t" } = .ok { indent := "\t" }
      ∧ compile drawers { indent := "\t" } = .ok table
      ∧ (∀ c ∈ table.classes, c.isHandwritten = false)
      ∧ generate table .jsonschema { indent := "\t" } []
        = .ok (.ok [⟨"schema.json", text ++ "\n"⟩])
      ∧ Json.Indented "\t" text := by
  have hresolve : Options.resolve { indent := some "\t" } = .ok { indent := "\t" } := rfl
  obtain ⟨table, hcompile, hgenerated, hfits⟩ := exists_drawers { indent := "\t" }
    (by decide +kernel)
  obtain ⟨text, hfiles, -, hindented⟩ := Model.schema_indented hresolve hcompile hgenerated []
  rw [if_pos hfits] at hfiles
  exact ⟨table, text, hresolve, hcompile, hgenerated, hfiles, hindented.mpr (by decide)⟩

/-- Twelve spaces are accepted, but they are not what a level of the schema is indented by. -/
theorem drawers_not_indented : ∃ table text,
    Options.resolve { indent := some "            " } = .ok { indent := "            " }
      ∧ compile drawers { indent := "            " } = .ok table
      ∧ (∀ c ∈ table.classes, c.isHandwritten = false)
      ∧ generate table .jsonschema { indent := "            " } []
        = .ok (.ok [⟨"schema.json", text ++ "\n"⟩])
      ∧ ¬Json.Indented "            " text ∧ Json.Indented "          " text := by
  have hresolve : Options.resolve { indent := some "            " }
      = .ok { indent := "            " } := rfl
  obtain ⟨table, hcompile, hgenerated, hfits⟩ := exists_drawers { indent := "            " }
    (by decide +kernel)
  obtain ⟨hne, hmargin⟩ := Options.isMargin_indent hresolve
  obtain ⟨text, hfiles, hgap, hindented⟩ :=
    (Model.sound_of_load hcompile).indented_schema hgenerated hne hmargin []
  rw [if_pos hfits] at hfiles
  exact ⟨table, text, hresolve, hcompile, hgenerated, hfiles,
    fun hrequested => absurd (hindented.mp hrequested) (by decide), hgap⟩

end WireModel
