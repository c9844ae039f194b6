import WireModel.Proofs.Layout

/-!
# Rows as text

Source text can be put together as text: the lines of a text are indented, and the texts of blocks
are joined with a blank line between them (`Text.indent`, `Text.blocks`). The emitters put it
together from rows instead, which know their level, and make text of them once. This module shows
that both give the same text.

* **`TypeScript.Block.indent_text`**: indenting the text of rows raises their levels, so the rows of
  a comment are the comment, indented.
* **`TypeScript.Block.blocks_text`**: joining the texts of blocks is joining the blocks. An empty
  text is left out, and an empty block is, so the blocks must not consist of one empty row.
* **`TypeScript.TypesModule.renderFile_emit`** and **`TypeScript.CodecModule.renderFile_emit`**: no
  block of the two modules is like that, so the modules are the texts of their blocks.
-/

namespace WireModel

theorem forall_mem_pair {α : Type} {P : α → Prop} {a b : α} (h : P a ∧ P b) :
    ∀ x ∈ [a, b], P x :=
  List.forall_mem_cons.mpr ⟨h.1, List.forall_mem_singleton.mpr h.2⟩

theorem map_intercalate {α β : Type} (f : α → β) (separator : List α) (parts : List (List α)) :
    (separator.intercalate parts).map f
      = (separator.map f).intercalate (parts.map (List.map f)) := by
  induction parts with
  | nil => rfl
  | cons xs parts ih =>
    cases parts with
    | nil => simp
    | cons ys parts =>
      rw [List.intercalate_cons_cons, List.map_append, List.map_append, ih]
      simp only [List.map_cons, List.intercalate_cons_cons]

namespace Text

/-! ## Indented lines -/

theorem IsLine.times {unit : String} (h : IsLine unit) (n : Nat) : IsLine (times n unit) := by
  rw [← feeds_eq_zero_iff, Text.times, feeds_join, totalFeeds_eq_zero_iff]
  intro s hs
  rwa [List.eq_of_mem_replicate hs]

theorem IsLine.indentLine {unit line : String} (hunit : IsLine unit) (hline : IsLine line)
    (n : Nat) : IsLine (indentLine unit n line) := by
  rw [Text.indentLine]
  split
  · exact hline
  · exact (hunit.times n).append hline

/-- Indentation in front of indentation. -/
theorem indentLine_indentLine (unit : String) (m n : Nat) (line : String) :
    indentLine unit m (indentLine unit n line) = indentLine unit (m + n) line := by
  by_cases hline : line = ""
  · subst hline
    rfl
  · have htimes : times (m + n) unit = times m unit ++ times n unit := by
      rw [times, List.replicate_add, String.join_append]
      rfl
    have hindented : times n unit ++ line ≠ "" := by simp [hline]
    rw [indentLine, indentLine, indentLine]
    simp only [String.isEmpty_iff, hline, hindented, if_false, htimes, String.append_assoc]

/-- **Indenting goes line by line.** -/
theorem indent_unlines (unit : String) (n : Nat) {ls : List String} (h : ∀ l ∈ ls, IsLine l) :
    indent unit n (unlines ls) = unlines (ls.map (indentLine unit n)) := by
  cases ls with
  | nil => rfl
  | cons l ls => rw [indent, (lines_unlines_iff (List.cons_ne_nil l ls)).mpr h]

/-! ## Joined lines -/

/-- Texts with a blank line between them are lines with an empty line between them. -/
theorem intercalate_unlines {parts : List (List String)} (h : ∀ ls ∈ parts, ls ≠ []) :
    "\n\n".intercalate (parts.map unlines) = unlines ([""].intercalate parts) := by
  induction parts with
  | nil => rfl
  | cons xs parts ih =>
    obtain ⟨hxs, hparts⟩ := List.forall_mem_cons.mp h
    cases parts with
    | nil => simp
    | cons ys parts =>
      have hrest : [""].intercalate (ys :: parts) ≠ [] := by
        intro hnil
        have hys := infix_intercalate [""] (List.mem_cons_self : ys ∈ ys :: parts)
        rw [hnil, List.infix_nil] at hys
        exact hparts ys List.mem_cons_self hys
      -- a blank line is the empty line between two others
      have hgap : "\n\n" = "\n" ++ unlines [""] ++ "\n" := by decide
      rw [List.map_cons, List.map_cons, String.intercalate_cons_cons, ← List.map_cons, ih hparts,
        List.intercalate_cons_cons, unlines_append (by simp) hrest, unlines_append hxs (by simp),
        hgap]
      simp only [String.append_assoc]

/-- **Joining texts is joining lines**, if an empty text stands for no lines. -/
theorem blocks_unlines {parts : List (List String)} (h : ∀ ls ∈ parts, unlines ls = "" → ls = []) :
    blocks (parts.map unlines)
      = unlines ([""].intercalate (parts.filter fun ls => !ls.isEmpty)) := by
  have hfilter : (parts.map unlines).filter (fun s => !s.isEmpty)
      = (parts.filter fun ls => !ls.isEmpty).map unlines := by
    rw [List.filter_map]
    congr 1
    refine List.filter_congr fun ls hls => ?_
    have hempty : (unlines ls).isEmpty = ls.isEmpty := by
      rw [Bool.eq_iff_iff, String.isEmpty_iff, List.isEmpty_iff]
      exact ⟨h ls hls, fun hnil => hnil ▸ rfl⟩
    exact congrArg not hempty
  rw [blocks, hfilter, intercalate_unlines]
  intro ls hls
  simpa using (List.mem_filter.mp hls).2

end Text

namespace TypeScript

open Text

/-! ## The text of rows -/

/-- The text of rows, without the line feed at the end of a file. -/
def Block.text (unit : String) (rows : Block) : String := unlines (rows.map (Row.render unit))

theorem renderFile_eq_text (unit : String) (rows : Block) :
    renderFile unit rows = rows.text unit ++ "\n" := rfl

/-- A row that is some levels deeper. -/
def Row.raise (levels : Nat) (r : Row) : Row := { r with level := levels + r.level }

theorem Row.render_raise (unit : String) (n : Nat) (r : Row) :
    (r.raise n).render unit = indentLine unit n (r.render unit) :=
  (indentLine_indentLine unit n r.level r.text).symm

/-- **Indenting the text of rows raises their levels.** -/
theorem Block.indent_text {unit : String} (hunit : Text.IsLine unit) {rows : Block}
    (hrows : rows.IsLines) (n : Nat) :
    indent unit n (rows.text unit) = Block.text unit (rows.map (Row.raise n)) := by
  have hlines : ∀ l ∈ rows.map (Row.render unit), Text.IsLine l :=
    List.forall_mem_map.mpr fun r hr => hunit.indentLine (hrows r hr).text r.level
  rw [Block.text, indent_unlines unit n hlines, Block.text, List.map_map, List.map_map]
  congr 1
  exact List.map_congr_left fun r _ => (r.render_raise unit n).symm

/-- The rows of a comment are the comment, indented. -/
theorem text_docRows (unit : String) (n : Nat) (paragraphs : List String) :
    (docRows n paragraphs).text unit = indent unit n (unlines (docComment paragraphs)) := by
  have hrender : ∀ l, (Row.comment n l).render unit = indentLine unit n l := by
    intro l
    rw [Row.render, Row.text_comment]
    rfl
  rw [indent_unlines unit n fun l hl => isLine_of_mem_docComment hl, Block.text, docRows,
    List.map_map]
  exact congrArg unlines (List.map_congr_left fun l _ => hrender l)

/-! ## Blocks that show -/

/-- A block does not consist of one empty row. -/
def Block.Shows (rows : Block) : Prop := ∀ r, rows = [r] → r.text ≠ ""

namespace Block.Shows

theorem nil : Block.Shows [] := fun _ h => nomatch h

/-- A block that ends with a row that is not empty. -/
theorem concat (rows : Block) {r : Row} (h : r.text ≠ "") : Block.Shows (rows ++ [r]) := by
  intro s hs
  obtain rfl : r = s := by
    have hlast := congrArg List.getLast? hs
    simpa using hlast
  exact h

/-- What ends with a block that shows shows itself. -/
theorem append (rows : Block) {more : Block} (hne : more ≠ []) (h : more.Shows) :
    Block.Shows (rows ++ more) := by
  intro r hr
  rcases List.append_eq_singleton_iff.mp hr with ⟨-, hmore⟩ | ⟨-, hmore⟩
  · exact h r hmore
  · exact absurd hmore hne

/-- A block of two rows or more. -/
theorem of_length {rows : Block} (h : 2 ≤ rows.length) : rows.Shows := by
  rintro r rfl
  simp at h

/-- A block that ends with two rows or more. -/
theorem append_of_length (rows : Block) {more : Block} (h : 2 ≤ more.length) :
    Block.Shows (rows ++ more) :=
  .of_length (h.trans (by simp))

/-- **A block that shows has a text**, unless it has no rows. -/
theorem eq_nil {rows : Block} (h : rows.Shows) {unit : String} (htext : rows.text unit = "") :
    rows = [] := by
  match rows, h with
  | [], _ => rfl
  | [r], h =>
    have hr : r.text ≠ "" := h r rfl
    rw [Block.text, List.map_singleton, unlines, String.intercalate_singleton, Row.render,
      indentLine, if_neg (by simpa using hr)] at htext
    simp [hr] at htext
  | r :: s :: rest, _ =>
    -- there is a line feed between two rows, even if both are empty
    rw [Block.text, List.map_cons, List.map_cons, unlines, String.intercalate_cons_cons] at htext
    simp at htext

end Block.Shows

/-- **Joining the texts of blocks is joining the blocks.** -/
theorem Block.blocks_text (unit : String) {parts : List Block} (h : ∀ b ∈ parts, b.Shows) :
    blocks (parts.map (Block.text unit)) = (joinBlocks parts).text unit := by
  have hlines : ∀ ls ∈ parts.map (List.map (Row.render unit)), unlines ls = "" → ls = [] := by
    refine List.forall_mem_map.mpr fun b hb hempty => ?_
    rw [(h b hb).eq_nil hempty]
    rfl
  have hfilter : (parts.map (List.map (Row.render unit))).filter (fun ls => !ls.isEmpty)
      = (parts.filter fun b => !b.isEmpty).map (List.map (Row.render unit)) := by
    rw [List.filter_map]
    congr 2
    funext b
    simp
  calc blocks (parts.map (Block.text unit))
      = blocks ((parts.map (List.map (Row.render unit))).map unlines) := by
        rw [List.map_map]
        rfl
    _ = (joinBlocks parts).text unit := by
        rw [blocks_unlines hlines, hfilter, Block.text, joinBlocks, map_intercalate]
        rfl

/-! ## The blocks of the modules -/

theorem shows_docRows (level : Nat) (paragraphs : List String) :
    Block.Shows (docRows level paragraphs) := by
  rw [docRows, docComment]
  split
  · exact .nil
  · exact .of_length (by simp)

theorem shows_bannerRows (banner : List String) : Block.Shows (bannerRows banner) := by
  rw [bannerRows, bannerComment]
  split
  · exact .nil
  · exact shows_docRows 0 [unlines banner]

theorem bracedRows_ne_nil (head : String) (members : Block) : bracedRows head members ≠ [] := by
  rw [bracedRows]
  split <;> exact List.cons_ne_nil _ _

theorem shows_bracedRows (head : String) (members : Block) :
    Block.Shows (bracedRows head members) := by
  rw [bracedRows]
  split
  · exact .concat [] (by simp)
  · exact .of_length (by simp)

/-- A text that is not empty is one line at least, and if it is one line, this line is not empty. -/
theorem shows_snippetRows (level : Nat) {text : String} (h : text ≠ "") :
    Block.Shows (snippetRows level text) := by
  intro r hr
  obtain ⟨line, hline, rfl⟩ := List.map_eq_singleton_iff.mp hr
  have htext := unlines_lines text
  rw [hline, unlines, String.intercalate_singleton] at htext
  rwa [Row.text_code, htext]

/-- Several blocks in a row show if the last of them does. -/
theorem Block.Shows.flatMap {α : Type} {items : List α} {f : α → Block}
    (h : ∀ a ∈ items, f a ≠ [] ∧ (f a).Shows) : Block.Shows (items.flatMap f) := by
  rcases List.eq_nil_or_concat items with rfl | ⟨init, last, rfl⟩
  · exact .nil
  · obtain ⟨hne, hshows⟩ := h last (by simp)
    rw [List.concat_eq_append, List.flatMap_append, List.flatMap_singleton]
    exact .append _ hne hshows

section Types

theorem FieldDeclaration.shows_rows (f : FieldDeclaration) : f.rows ≠ [] ∧ Block.Shows f.rows :=
  ⟨List.append_ne_nil_of_right_ne_nil _ (List.cons_ne_nil _ _), .concat _ (by simp)⟩

theorem shows_constructorRows (parameters : List ParameterDeclaration) :
    Block.Shows (constructorRows parameters) := by
  rw [constructorRows]
  split
  · exact .nil
  · exact .concat _ (by simp)

/-- The members of a class are three blocks, of which the first two may be missing. -/
theorem text_members (unit : String) (fields : List FieldDeclaration)
    (parameters : List ParameterDeclaration) (visit : String) :
    (joinBlocks [fields.flatMap FieldDeclaration.rows, constructorRows parameters,
        visitRows visit]).text unit
      = blocks [Block.text unit (fields.flatMap FieldDeclaration.rows),
          (constructorRows parameters).text unit, (visitRows visit).text unit] := by
  refine (Block.blocks_text unit ?_).symm
  refine List.forall_mem_cons.mpr ⟨.flatMap fun f _ => f.shows_rows, List.forall_mem_cons.mpr
    ⟨shows_constructorRows parameters, List.forall_mem_singleton.mpr ?_⟩⟩
  exact .of_length (by simp [visitRows])

theorem Declaration.shows_emit (snippets : Snippets) (d : Declaration) :
    Block.Shows (d.emit snippets).1 := by
  cases d with
  | enumeration doc name literals => exact .append _ (bracedRows_ne_nil _ _) (shows_bracedRows _ _)
  | interface doc name bases fields =>
    exact .append _ (bracedRows_ne_nil _ _) (shows_bracedRows _ _)
  | classType doc name bases fields parameters visit =>
    exact .append _ (bracedRows_ne_nil _ _) (shows_bracedRows _ _)
  | handwritten name =>
    rw [Declaration.emit]
    split
    · next text _ =>
      by_cases htext : text = ""
      · subst htext
        exact .nil
      · dsimp only
        rw [if_neg (by simpa using htext)]
        exact shows_snippetRows 0 htext
    · exact .nil

/-- The blocks of the module: its head, and one for each declaration. -/
def TypesModule.blocks (snippets : Snippets) (m : TypesModule) : List Block :=
  [bannerRows m.banner, rootRows, transformerRows m.visits]
    ++ m.declarations.map fun d => (d.emit snippets).1

/-- **The module of types is the texts of its blocks.** -/
theorem TypesModule.renderFile_emit (unit : String) (snippets : Snippets) (m : TypesModule) :
    renderFile unit (m.emit snippets).1
      = Text.blocks ((m.blocks snippets).map (Block.text unit)) ++ "\n" := by
  have hjoined : (m.emit snippets).1 = joinBlocks (m.blocks snippets) := by
    rw [emit, blocks, List.map_map]
    rfl
  have hshows : ∀ b ∈ m.blocks snippets, b.Shows := by
    refine List.forall_mem_append.mpr ⟨List.forall_mem_cons.mpr ⟨shows_bannerRows m.banner,
      forall_mem_pair ⟨?_, ?_⟩⟩, List.forall_mem_map.mpr fun d _ => d.shows_emit snippets⟩
    · exact .append_of_length _ (by simp)
    · exact .concat _ (by simp)
  rw [renderFile_eq_text, hjoined, Block.blocks_text unit hshows]

end Types

section Codec

theorem shows_facadeRows (stem type summary : String) :
    Block.Shows (facadeRows stem type summary) :=
  .append_of_length _ (by simp)

theorem ClassCodec.shows_emitParse (snippets : Snippets) (c : ClassCodec) :
    Block.Shows (c.emitParse snippets).1 := by
  rw [ClassCodec.emitParse]
  split
  · split
    · exact .concat _ (by simp)
    · exact .nil
  · exact .concat _ (by simp)

theorem ClassCodec.shows_emitMethod (snippets : Snippets) (c : ClassCodec) :
    Block.Shows (c.emitMethod snippets).1 := by
  rw [ClassCodec.emitMethod]
  split
  · split
    · exact .of_length (by simp)
    · exact .nil
  · exact .of_length (by simp)

theorem TypeCodec.shows_emitRoutines (snippets : Snippets) (codec : TypeCodec) :
    ∀ emitted ∈ codec.emitRoutines snippets, Block.Shows emitted.1 := by
  cases codec with
  | enumeration e =>
    exact forall_mem_pair ⟨.append_of_length _ (by simp), shows_facadeRows _ _ _⟩
  | interface i =>
    exact forall_mem_pair ⟨.append_of_length _ (by simp), shows_facadeRows _ _ _⟩
  | classType c =>
    exact forall_mem_pair ⟨c.shows_emitParse snippets, shows_facadeRows _ _ _⟩

/-- The methods of the transformer are one block for each class. -/
theorem text_methods (unit : String) (snippets : Snippets) (classes : List ClassCodec) :
    (joinBlocks (classes.map fun c => (c.emitMethod snippets).1)).text unit
      = blocks ((classes.map fun c => (c.emitMethod snippets).1).map (Block.text unit)) :=
  (Block.blocks_text unit
    (List.forall_mem_map.mpr fun c _ => c.shows_emitMethod snippets)).symm

/-- The blocks of the module: its head, the tables, what parses, the writer, and what writes
literals. -/
def CodecModule.blocks (snippets : Snippets) (m : CodecModule) : List Block :=
  [bannerRows m.banner, importRows m.runtimeModule m.typesModule]
    ++ (m.enumerations.flatMap fun e => [e.fromTableRows, e.toTableRows])
    ++ (m.codecs.flatMap (TypeCodec.emitRoutines snippets)).map (·.1)
    ++ [writerRows (joinBlocks (m.classes.map fun c => (c.emitMethod snippets).1)),
      toJsonableRows]
    ++ m.enumerations.map EnumerationCodec.writeRows

/-- **The codec module is the texts of its blocks.** -/
theorem CodecModule.renderFile_emit (unit : String) (snippets : Snippets) (m : CodecModule) :
    renderFile unit (m.emit snippets).1
      = Text.blocks ((m.blocks snippets).map (Block.text unit)) ++ "\n" := by
  have hjoined : (m.emit snippets).1 = joinBlocks (m.blocks snippets) := by
    simp only [emit, blocks, List.map_map]
    rfl
  have hshows : ∀ b ∈ m.blocks snippets, b.Shows := by
    refine List.forall_mem_append.mpr ⟨List.forall_mem_append.mpr ⟨List.forall_mem_append.mpr
      ⟨List.forall_mem_append.mpr ⟨?_, ?_⟩, ?_⟩, ?_⟩, ?_⟩
    · exact forall_mem_pair ⟨shows_bannerRows m.banner, .of_length (by simp [importRows])⟩
    · refine List.forall_mem_flatMap.mpr fun e _ => forall_mem_pair ⟨?_, ?_⟩
      · exact .concat _ (by simp)
      · exact .concat _ (by simp)
    · refine List.forall_mem_map.mpr (List.forall_mem_flatMap.mpr fun codec _ => ?_)
      exact codec.shows_emitRoutines snippets
    · refine forall_mem_pair ⟨?_, ?_⟩
      · exact .append_of_length _ (by simp)
      · exact .append_of_length _ (by simp)
    · exact List.forall_mem_map.mpr fun e _ => .append_of_length _ (by simp)
  rw [renderFile_eq_text, hjoined, Block.blocks_text unit hshows]

end Codec

end TypeScript
end WireModel
