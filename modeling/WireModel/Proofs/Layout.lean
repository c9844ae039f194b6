import WireModel.Proofs.Declarations
import WireModel.Proofs.FreeText
import WireModel.Proofs.LineStructure
import WireModel.Proofs.SnippetReports

/-!
# Layout of generated code

Generated code is written from rows, and a row stands behind its indentation. This module shows that
the rows are the lines of a file whatever they are made from: none of their texts has a line feed.
Names are words, literals are quoted, and comments and handwritten code are cut into lines before
they become rows. So the requested indentation is repeated in front of lines and is found nowhere
else.

* **`TypesModule.Within.isLines_emit`** and **`CodecModule.Within.isLines_emit`**: the rows of the
  two modules are lines. The lemmas go by the functions that write the rows, and snippets are rows
  like any others.
* **`Model.files_laid_out`**: the files of a model are laid out from rows that are the same for
  every indentation that is accepted.
-/

namespace WireModel

namespace Text

theorem IsLine.fixed {cs : List Char} (h : cs.all (· != '\n') = true) :
    IsLine (String.ofList cs) := by
  intro hfeed
  rw [String.toList_ofList] at hfeed
  exact absurd (List.all_eq_true.mp h '\n' hfeed) (by decide)

/-- A line between two fixed texts. -/
theorem IsLine.between {before after : List Char} {s : String}
    (hbefore : before.all (· != '\n') = true) (hs : IsLine s)
    (hafter : after.all (· != '\n') = true) :
    IsLine (String.ofList before ++ s ++ String.ofList after) :=
  ((IsLine.fixed hbefore).append hs).append (.fixed hafter)

theorem isLine_intercalate {separator : String} (hseparator : IsLine separator)
    {parts : List String} (h : ∀ s ∈ parts, IsLine s) :
    IsLine (separator.intercalate parts) := by
  rw [← feeds_eq_zero_iff, feeds_intercalate, feeds_eq_zero_iff.mpr hseparator,
    totalFeeds_eq_zero_iff.mpr h, Nat.mul_zero]

theorem isLine_of_mem_docComment {paragraphs : List String} {line : String}
    (h : line ∈ docComment paragraphs) : IsLine line := by
  have hfixed : IsLine "/**" ∧ IsLine " */" ∧ IsLine " *" ∧ IsLine " * " ∧ IsLine "" := by decide
  obtain ⟨hopen, hclose, hstar, hlead, hempty⟩ := hfixed
  unfold docComment at h
  split at h
  · cases h
  · -- a paragraph is cut into lines before the stars are put in front of them
    have hinner : ∀ l ∈ [""].intercalate (paragraphs.map commentLines), IsLine l := by
      refine intercalate_induction (P := fun ls => ∀ l ∈ ls, IsLine l) nofun ?_ ?_ ?_
      · exact List.forall_mem_singleton.mpr hempty
      · exact fun hls hmore => List.forall_mem_append.mpr ⟨hls, hmore⟩
      · exact List.forall_mem_map.mpr fun p _ l hl => not_mem_of_mem_lines hl
    have hall : ∀ l ∈ "/**" :: (([""].intercalate (paragraphs.map commentLines)).map starLine
        ++ [" */"]), IsLine l := by
      refine List.forall_mem_cons.mpr ⟨hopen, List.forall_mem_append.mpr
        ⟨List.forall_mem_map.mpr fun l hl => ?_, List.forall_mem_singleton.mpr hclose⟩⟩
      unfold starLine
      split
      · exact hstar
      · exact hlead.append (hinner l hl)
    exact hall line h

end Text

open Text

namespace TypeScript

open Name

/-! ## Rows that are lines -/

/-- No piece of a row breaks it. -/
def Row.IsLine (r : Row) : Prop := ∀ p ∈ r.pieces, Text.IsLine p.text

/-- Every row of a block is one line. -/
def Block.IsLines (rows : Block) : Prop := ∀ r ∈ rows, r.IsLine

theorem Row.IsLine.text {r : Row} (h : r.IsLine) : Text.IsLine r.text := by
  rw [← feeds_eq_zero_iff, Row.text, feeds_join, totalFeeds_eq_zero_iff]
  exact List.forall_mem_map.mpr h

theorem Piece.isLine_literal (value : String) : Text.IsLine (Piece.literal value).text :=
  isLine_quoteWith (by decide) value

theorem Piece.isLine_fixed {cs : List Char} (h : cs.all (· != '\n') = true) :
    ∀ p ∈ [Piece.code (String.ofList cs)], Text.IsLine p.text :=
  List.forall_mem_singleton.mpr (Text.IsLine.fixed h)

/-- A literal between two fixed codes. -/
theorem Piece.isLine_quoted {before after : List Char} (value : String)
    (hbefore : before.all (· != '\n') = true) (hafter : after.all (· != '\n') = true) :
    ∀ p ∈ [Piece.code (String.ofList before), .literal value, .code (String.ofList after)],
      Text.IsLine p.text :=
  List.forall_mem_cons.mpr ⟨Text.IsLine.fixed hbefore, List.forall_mem_cons.mpr
    ⟨isLine_literal value, Piece.isLine_fixed hafter⟩⟩

namespace Row

theorem isLine_code {level : Nat} {s : String} (h : Text.IsLine s) : (Row.code level s).IsLine :=
  List.forall_mem_singleton.mpr h

theorem isLine_comment {level : Nat} {s : String} (h : Text.IsLine s) :
    (Row.comment level s).IsLine := List.forall_mem_singleton.mpr h

theorem isLine_blank : Row.blank.IsLine := fun _ hp => nomatch hp

/-- A row with one piece between two codes. -/
theorem isLine_around {level : Nat} {before after : String} {p : Piece}
    (hbefore : Text.IsLine before) (hp : Text.IsLine p.text) (hafter : Text.IsLine after) :
    (Row.mk level [.code before, p, .code after]).IsLine :=
  List.forall_mem_cons.mpr ⟨hbefore, List.forall_mem_cons.mpr
    ⟨hp, List.forall_mem_singleton.mpr hafter⟩⟩

theorem isLine_quoted {level : Nat} {before after : List Char} (value : String)
    (hbefore : before.all (· != '\n') = true) (hafter : after.all (· != '\n') = true) :
    (Row.mk level [.code (String.ofList before), .literal value,
      .code (String.ofList after)]).IsLine := Piece.isLine_quoted value hbefore hafter

end Row

namespace Block.IsLines

theorem nil : Block.IsLines [] := fun _ hr => nomatch hr

theorem cons {r : Row} {rows : Block} (hr : r.IsLine) (hrows : rows.IsLines) :
    Block.IsLines (r :: rows) := List.forall_mem_cons.mpr ⟨hr, hrows⟩

theorem code {level : Nat} {s : String} {rows : Block} (hs : Text.IsLine s)
    (hrows : rows.IsLines) : Block.IsLines (.code level s :: rows) :=
  cons (Row.isLine_code hs) hrows

theorem fixed {level : Nat} {cs : List Char} {rows : Block}
    (h : cs.all (· != '\n') = true) (hrows : rows.IsLines) :
    Block.IsLines (.code level (String.ofList cs) :: rows) :=
  code (.fixed h) hrows

theorem append {rows more : Block} (hrows : rows.IsLines) (hmore : more.IsLines) :
    Block.IsLines (rows ++ more) := List.forall_mem_append.mpr ⟨hrows, hmore⟩

theorem map {α : Type} {items : List α} {f : α → Row} (h : ∀ a ∈ items, (f a).IsLine) :
    Block.IsLines (items.map f) := List.forall_mem_map.mpr h

theorem flatMap {α : Type} {items : List α} {f : α → Block}
    (h : ∀ a ∈ items, (f a).IsLines) : Block.IsLines (items.flatMap f) :=
  List.forall_mem_flatMap.mpr h

theorem spaced {rows : Block} (h : rows.IsLines) : Block.IsLines (spaced rows) := by
  unfold TypeScript.spaced
  split
  · exact nil
  · exact cons Row.isLine_blank h

theorem joinBlocks {blocks : List Block} (h : ∀ b ∈ blocks, b.IsLines) :
    Block.IsLines (joinBlocks blocks) := forall_mem_joinBlocks Row.isLine_blank h

theorem docRows (level : Nat) (paragraphs : List String) :
    Block.IsLines (docRows level paragraphs) :=
  map fun _ hline => Row.isLine_comment (isLine_of_mem_docComment hline)

theorem bannerRows (banner : List String) : Block.IsLines (bannerRows banner) := by
  refine map fun line hline => Row.isLine_comment ?_
  unfold bannerComment at hline
  split at hline
  · cases hline
  · exact isLine_of_mem_docComment hline

/-- Handwritten code is cut into lines. -/
theorem snippetRows (level : Nat) (text : String) : Block.IsLines (snippetRows level text) :=
  map fun _ hline => Row.isLine_code (not_mem_of_mem_lines hline)

end Block.IsLines

/-! ## The module of types -/

variable {scope : Scope}

theorem Scope.isLine_of_type {name : String} (h : scope.type name) : Text.IsLine name :=
  (scope.word_of_type h).isLine

theorem TypeExpr.Within.isLine {e : TypeExpr} (he : e.Within scope) {qualifier : String}
    (hqualifier : Text.IsLine qualifier) : Text.IsLine (e.text qualifier) := by
  induction e with
  | primitive kind => cases kind <;> exact .fixed rfl
  | named name => exact hqualifier.append (scope.isLine_of_type (he name List.mem_cons_self))
  | array item ih => exact .between rfl (ih he) rfl
  | orNull type ih => exact (ih he).append (.fixed rfl)

theorem Value.Within.isLine {v : Value} (hv : v.Within scope) : Text.IsLine v.piece.text := by
  cases v with
  | null => exact Text.IsLine.fixed rfl
  | bool b => cases b <;> exact Text.IsLine.fixed rfl
  | number x => exact x.isLine_text
  | bigint x => exact x.isLine_text.append (.fixed rfl)
  | text value => exact Piece.isLine_literal value
  | literal enumeration l =>
    exact ((scope.isLine_of_type hv.1).append (.fixed rfl)).append hv.2.isLine

theorem isLines_bracedRows {head : String} {members : Block} (hhead : Text.IsLine head)
    (hmembers : members.IsLines) : Block.IsLines (bracedRows head members) := by
  unfold bracedRows
  split
  · exact .code (hhead.append (.fixed rfl)) .nil
  · exact .code (hhead.append (.fixed rfl)) (.append hmembers (.fixed rfl .nil))

theorem LiteralDeclaration.isLines_rows {l : LiteralDeclaration} (hl : IsWord l.name) :
    Block.IsLines l.rows :=
  .append (.docRows 1 _) (.code (hl.isLine.append (.fixed rfl)) .nil)

theorem FieldDeclaration.Within.isLines_rows {f : FieldDeclaration} (hf : f.Within scope) :
    Block.IsLines f.rows := by
  have htype : Text.IsLine (f.type.text "") := hf.type.isLine (.fixed rfl)
  refine .append (.docRows 1 _) (.code ?_ .nil)
  exact ((hf.name.isLine.append (.fixed rfl)).append htype).append (.fixed rfl)

namespace ParameterDeclaration.Within

variable {p : ParameterDeclaration} (hp : p.Within scope)

include hp

theorem isLine_row {ending : String} (hending : Text.IsLine ending) : (p.row ending).IsLine := by
  have htype : Text.IsLine (p.type.text "") := hp.type.isLine (.fixed rfl)
  have hhead : Text.IsLine (p.name ++ ": " ++ p.type.text "") :=
    (hp.name.isLine.append (.fixed rfl)).append htype
  unfold ParameterDeclaration.row
  split
  · next value hvalue =>
    exact Row.isLine_around (hhead.append (.fixed rfl)) (hp.initializer value hvalue).isLine hending
  · exact Row.isLine_code (hhead.append hending)

theorem isLine_assignment : p.assignment.IsLine := by
  have hhead : Text.IsLine ("this." ++ p.field ++ " = " ++ p.name) :=
    (Text.IsLine.between rfl hp.field.isLine rfl).append hp.name.isLine
  unfold ParameterDeclaration.assignment
  split
  · next value hvalue =>
    exact Row.isLine_around (hhead.append (.fixed rfl)) (hp.fallback value hvalue).isLine
      (.fixed rfl)
  · exact Row.isLine_code (hhead.append (.fixed rfl))

end ParameterDeclaration.Within

theorem ParameterDeclaration.isLines_rows {parameters : List ParameterDeclaration}
    (h : ∀ p ∈ parameters, p.Within scope) :
    Block.IsLines (ParameterDeclaration.rows parameters) := by
  fun_induction ParameterDeclaration.rows parameters with
  | case1 => exact .nil
  | case2 p => exact .cons ((h p List.mem_cons_self).isLine_row (.fixed rfl)) .nil
  | case3 p rest _ ih =>
    obtain ⟨hp, hrest⟩ := List.forall_mem_cons.mp h
    exact .cons (hp.isLine_row (.fixed rfl)) (ih hrest)

theorem isLines_constructorRows {parameters : List ParameterDeclaration}
    (h : ∀ p ∈ parameters, p.Within scope) : Block.IsLines (constructorRows parameters) := by
  have hparameters := ParameterDeclaration.isLines_rows h
  have hassignments : Block.IsLines (parameters.map ParameterDeclaration.assignment) :=
    .map fun p hp => (h p hp).isLine_assignment
  unfold constructorRows
  split
  · exact .nil
  · exact .append (.append (.append (.append (.fixed rfl .nil) hparameters) (.fixed rfl .nil))
      hassignments) (.fixed rfl .nil)

theorem isLines_visitRows {method : String} (hmethod : IsWord method) :
    Block.IsLines (visitRows method) :=
  .fixed rfl (.code (.between rfl hmethod.isLine rfl) (.fixed rfl .nil))

theorem Declaration.Within.isLines_emit {d : Declaration} (hd : d.Within scope)
    (snippets : Snippets) : Block.IsLines (d.emit snippets).1 := by
  have hhead : ∀ {start clause name : String} {bases : List String}, Text.IsLine start →
      scope.type name → Text.IsLine clause → (∀ base ∈ bases, scope.type base) →
      Text.IsLine (start ++ name ++ clause ++ ", ".intercalate bases) := by
    intro start clause name bases hstart hname hclause hbases
    have hjoined : Text.IsLine (", ".intercalate bases) :=
      isLine_intercalate (.fixed rfl) fun base hbase => scope.isLine_of_type (hbases base hbase)
    exact ((hstart.append (scope.isLine_of_type hname)).append hclause).append hjoined
  cases hd with
  | enumeration hname hliterals =>
    refine .append (.docRows 0 _) (isLines_bracedRows ?_ (.flatMap fun l hl => ?_))
    · exact .append (.fixed rfl) (scope.isLine_of_type hname)
    · exact LiteralDeclaration.isLines_rows (hliterals l hl)
  | interface hname hbases hfields =>
    refine .append (.docRows 0 _) (isLines_bracedRows ?_ (.flatMap fun f hf => ?_))
    · exact hhead (.fixed rfl) hname (.fixed rfl) hbases
    · exact (hfields f hf).isLines_rows
  | classType hname hbases hfields hparameters hvisit =>
    refine .append (.docRows 0 _) (isLines_bracedRows ?_ (.joinBlocks ?_))
    · exact hhead (.fixed rfl) hname (.fixed rfl) hbases
    · simp only [List.forall_mem_cons]
      exact ⟨.flatMap fun f hf => (hfields f hf).isLines_rows,
        isLines_constructorRows hparameters, isLines_visitRows hvisit, nofun⟩
  | handwritten name =>
    -- nothing is written where the code is missing or empty
    simp only [Declaration.emit]
    split
    · dsimp only
      split
      · exact .nil
      · exact .snippetRows 0 _
    · exact .nil

theorem isLines_rootRows : Block.IsLines rootRows :=
  .append (.append (.append (.docRows 0 _) (.fixed rfl .nil)) (.docRows 1 _))
    (.fixed rfl (.fixed rfl .nil))

theorem isLines_transformerRows {visits : List VisitDeclaration}
    (h : ∀ v ∈ visits, IsWord v.method ∧ scope.type v.type) :
    Block.IsLines (transformerRows visits) := by
  refine .append (.append (.append (.docRows 0 _) ?_) ?_) (.fixed rfl .nil)
  · exact .fixed rfl (.fixed rfl (.fixed rfl (.fixed rfl .nil)))
  · split
    · exact .nil
    · refine .cons Row.isLine_blank (.map fun v hv => Row.isLine_code ?_)
      obtain ⟨hmethod, htype⟩ := h v hv
      exact ((Text.IsLine.between rfl hmethod.isLine rfl).append
        (scope.isLine_of_type htype)).append (.fixed rfl)

/-- **The rows of the module of types are lines.** -/
theorem TypesModule.Within.isLines_emit {m : TypesModule} (h : m.Within scope)
    (snippets : Snippets) : Block.IsLines (m.emit snippets).1 := by
  refine .joinBlocks (List.forall_mem_append.mpr ⟨?_, ?_⟩)
  · simp only [List.forall_mem_cons]
    exact ⟨.bannerRows m.banner, isLines_rootRows, isLines_transformerRows h.visits, nofun⟩
  · exact List.forall_mem_map.mpr (List.forall_mem_map.mpr fun d hd =>
      (h.declarations d hd).isLines_emit snippets)

/-! ## The codec module -/

theorem isLine_qualifier : Text.IsLine qualifier := .fixed rfl

/-- A generated type between two fixed texts. -/
theorem Scope.isLine_qualified {name : String} (h : scope.type name) {before after : List Char}
    (hbefore : before.all (· != '\n') = true) (hafter : after.all (· != '\n') = true) :
    Text.IsLine (String.ofList before ++ qualifier ++ name ++ String.ofList after) :=
  (((Text.IsLine.fixed hbefore).append isLine_qualifier).append (scope.isLine_of_type h)).append
    (.fixed hafter)

theorem Parser.Within.isLine {p : Parser} (hp : p.Within scope) : Text.IsLine p.text := by
  cases p with
  | primitive kind => cases kind <;> exact .fixed rfl
  | generated stem => exact (scope.isWord_parseRoutine hp).isLine

theorem Writer.Within.isLine {w : Writer} (hw : w.Within scope) {value text : String}
    (htext : w.write? value = some text) (hvalue : Text.IsLine value) : Text.IsLine text := by
  cases w with
  | same => cases htext
  | support function =>
    cases htext
    have hfunction : Text.IsLine function := by rcases hw with rfl | rfl <;> exact .fixed rfl
    exact ((hfunction.append (.fixed rfl)).append hvalue).append (.fixed rfl)
  | enumeration stem =>
    cases htext
    exact (((scope.isWord_writeRoutine hw).isLine.append (.fixed rfl)).append hvalue).append
      (.fixed rfl)
  | object =>
    cases htext
    exact .between rfl hvalue rfl

/-! ### Parse routines

A proof takes the rows of a definition in their order: `fixed` computes that a row without a hole is
a line, `code` leaves the text of a row to prove, and `cons` a row with a literal in it. -/

theorem isLines_signatureRows {stem name : String} (hstem : scope.parser stem)
    (hname : scope.type name) : Block.IsLines (signatureRows stem name) :=
  .code (.between rfl (scope.isWord_parseRoutine hstem).isLine rfl)
    (.fixed rfl (.code (scope.isLine_qualified hname rfl rfl) .nil))

theorem isLines_objectGuardRows : Block.IsLines objectGuardRows :=
  .fixed rfl (.fixed rfl (.fixed rfl .nil))

theorem EnumerationCodec.Within.isLines_parseRows {e : EnumerationCodec} (he : e.Within scope) :
    Block.IsLines e.parseRows := by
  have htype := scope.isLine_of_type he.type
  refine .append (isLines_signatureRows he.parser he.type) ?_
  refine .fixed rfl (.fixed rfl (.fixed rfl (.fixed rfl ?_)))
  refine .code (.between rfl he.fromTable.isLine rfl) (.fixed rfl (.fixed rfl ?_))
  exact .code (.between rfl htype rfl) (.fixed rfl (.fixed rfl (.fixed rfl (.fixed rfl .nil))))

theorem Choice.isLines_rows {c : Choice} (hc : scope.parser c.stem) : Block.IsLines c.rows :=
  .cons (Row.isLine_quoted c.value rfl rfl)
    (.code (.between rfl (scope.isWord_parseRoutine hc).isLine rfl) .nil)

theorem InterfaceCodec.Within.isLines_parseRows {i : InterfaceCodec} (hi : i.Within scope) :
    Block.IsLines i.parseRows := by
  -- the key stands twice in the row that looks it up
  have hdiscriminator : (Row.mk 1 [.code "const modelType = Object.hasOwn(node, ",
      .literal i.discriminator, .code ") ? node[", .literal i.discriminator,
      .code "] : undefined;"]).IsLine :=
    List.forall_mem_cons.mpr ⟨Text.IsLine.fixed rfl, List.forall_mem_cons.mpr
      ⟨Piece.isLine_literal _, Piece.isLine_quoted i.discriminator rfl rfl⟩⟩
  have hchoices : Block.IsLines (i.choices.flatMap Choice.rows) :=
    .flatMap fun c hc => Choice.isLines_rows (hi.choices c hc)
  refine .append (.append (.append (.append ?_ isLines_objectGuardRows) ?_) hchoices) ?_
  · exact isLines_signatureRows hi.parser hi.type
  · refine .cons Row.isLine_blank (.cons hdiscriminator (.fixed rfl ?_))
    refine .cons (Row.isLine_quoted _ rfl rfl) (.fixed rfl ?_)
    refine .cons (Row.isLine_quoted _ rfl rfl) (.fixed rfl (.fixed rfl (.fixed rfl ?_)))
    exact .fixed rfl (.cons Row.isLine_blank (.fixed rfl .nil))
  · refine .fixed rfl (.code ?_ (.fixed rfl (.fixed rfl .nil)))
    exact .between rfl (scope.isLine_of_type hi.type) rfl

theorem Slot.isLine_failureRow (s : Slot) (level : Nat) {failure : List Piece}
    (h : ∀ p ∈ failure, Text.IsLine p.text) : (s.failureRow level failure).IsLine :=
  List.forall_mem_append.mpr ⟨List.forall_mem_append.mpr ⟨Piece.isLine_fixed rfl, h⟩,
    Piece.isLine_quoted s.key rfl rfl⟩

namespace Slot.Within

variable {s : Slot} (hs : s.Within scope)

include hs

theorem isLines_itemRows : Block.IsLines s.itemRows := by
  refine .code (.between rfl hs.parser.isLine rfl) (.fixed rfl ?_)
  refine .cons (s.isLine_failureRow 5 (Piece.isLine_fixed rfl)) (.fixed rfl ?_)
  exact .code (hs.binding.isLine.append (.fixed rfl)) .nil

theorem isLines_listRows : Block.IsLines s.listRows := by
  have hitem := hs.item.isLine isLine_qualifier
  have hparser := hs.parser.isLine
  refine .fixed rfl (.cons (s.isLine_failureRow 5 (Piece.isLine_fixed rfl)) (.fixed rfl ?_))
  refine .code (.between rfl hitem rfl) (.fixed rfl (.fixed rfl ?_))
  refine .cons (s.isLine_failureRow 6 (Piece.isLine_quoted _ rfl rfl)) (.fixed rfl ?_)
  refine .code (.between rfl hparser rfl) (.fixed rfl ?_)
  refine .cons (s.isLine_failureRow 6 (Piece.isLine_fixed rfl)) (.fixed rfl (.fixed rfl ?_))
  exact .fixed rfl (.code (hs.binding.isLine.append (.fixed rfl)) .nil)

theorem isLines_caseRows : Block.IsLines s.caseRows := by
  refine .append (.append ?_ ?_) (.fixed rfl (.fixed rfl .nil))
  · exact .cons (Row.isLine_quoted s.key rfl rfl) (.fixed rfl (.fixed rfl (.fixed rfl .nil)))
  · split
    · exact hs.isLines_listRows
    · exact hs.isLines_itemRows

theorem isLine_declarationRow : s.declarationRow.IsLine := by
  have htype := hs.type.isLine isLine_qualifier
  exact Row.isLine_code (((Text.IsLine.between rfl hs.binding.isLine rfl).append htype).append
    (.fixed rfl))

theorem isLines_requiredRows : Block.IsLines s.requiredRows := by
  unfold Slot.requiredRows
  split
  · exact .code (.between rfl hs.binding.isLine rfl)
      (.cons (Row.isLine_quoted _ rfl rfl) (.fixed rfl .nil))
  · exact .nil

end Slot.Within

theorem Slot.isLines_argumentRows {slots : List Slot} (h : ∀ s ∈ slots, s.Within scope) :
    Block.IsLines (argumentRows slots) := by
  fun_induction argumentRows slots with
  | case1 => exact .nil
  | case2 s => exact .code (h s List.mem_cons_self).binding.isLine .nil
  | case3 s rest _ ih =>
    obtain ⟨hs, hrest⟩ := List.forall_mem_cons.mp h
    exact .code (hs.binding.isLine.append (.fixed rfl)) (ih hrest)

theorem ClassCodec.isLines_discriminatorRows (c : ClassCodec) :
    Block.IsLines c.discriminatorRows := by
  unfold discriminatorRows
  split
  · exact .cons (Row.isLine_quoted _ rfl rfl) (.fixed rfl .nil)
  · exact .nil

namespace ClassCodec.Within

variable {c : ClassCodec} (hc : c.Within scope)

include hc

theorem isLines_constructRows : Block.IsLines c.constructRows := by
  unfold ClassCodec.constructRows
  split
  · exact .code (scope.isLine_qualified hc.type rfl rfl) .nil
  · refine .append (.append (.fixed rfl (.code ?_ .nil)) ?_) (.fixed rfl (.fixed rfl .nil))
    · exact scope.isLine_qualified hc.type rfl rfl
    · exact Slot.isLines_argumentRows hc.slots

theorem isLines_bodyRows : Block.IsLines c.bodyRows := by
  unfold ClassCodec.bodyRows
  refine .append (.append (.append (.append (.append (.append (.append (.append ?_ ?_) ?_) ?_) ?_)
    ?_) ?_) ?_) ?_
  · exact isLines_objectGuardRows
  · exact .spaced (.map fun s hs => (hc.slots s hs).isLine_declarationRow)
  · refine .cons Row.isLine_blank (.code ?_ (.fixed rfl .nil))
    split <;> exact .fixed rfl
  · exact .flatMap fun s hs => (hc.slots s hs).isLines_caseRows
  · exact c.isLines_discriminatorRows
  · exact .fixed rfl (.fixed rfl (.fixed rfl (.fixed rfl .nil)))
  · exact .spaced (.flatMap fun s hs => (hc.slots s hs).isLines_requiredRows)
  · exact .cons Row.isLine_blank .nil
  · exact hc.isLines_constructRows

theorem isLines_emitParse (snippets : Snippets) : Block.IsLines (c.emitParse snippets).1 := by
  have hwrap : ∀ {body : Block}, body.IsLines →
      Block.IsLines (signatureRows c.stem c.type ++ body ++ [.code 0 "\x7d"]) := fun hbody =>
    .append (.append (isLines_signatureRows hc.parser hc.type) hbody) (.fixed rfl .nil)
  unfold ClassCodec.emitParse
  split
  · split
    · exact hwrap (.snippetRows 1 _)
    · exact .nil
  · exact hwrap hc.isLines_bodyRows

end ClassCodec.Within

theorem isLines_facadeRows {stem name : String} (hstem : scope.parser stem)
    (hname : scope.type name) (summary : String) :
    Block.IsLines (facadeRows stem name summary) := by
  have hfacade := (scope.isWord_facadeRoutine hstem).isLine
  refine .append (.docRows 0 _) (.code ?_ (.code ?_ ?_))
  · exact (((Text.IsLine.between rfl hfacade rfl).append isLine_qualifier).append
      (scope.isLine_of_type hname)).append (.fixed rfl)
  · exact .between rfl (scope.isWord_parseRoutine hstem).isLine rfl
  · exact .fixed rfl (.fixed rfl (.fixed rfl (.fixed rfl (.fixed rfl .nil))))

theorem TypeCodec.Within.isLines_emitRoutines {codec : TypeCodec} (h : codec.Within scope)
    (snippets : Snippets) : ∀ emitted ∈ codec.emitRoutines snippets, Block.IsLines emitted.1 := by
  cases h with
  | enumeration he =>
    exact List.forall_mem_cons.mpr ⟨he.isLines_parseRows,
      List.forall_mem_singleton.mpr (isLines_facadeRows he.parser he.type _)⟩
  | interface hi =>
    exact List.forall_mem_cons.mpr ⟨hi.isLines_parseRows,
      List.forall_mem_singleton.mpr (isLines_facadeRows hi.parser hi.type _)⟩
  | classType hc =>
    exact List.forall_mem_cons.mpr ⟨hc.isLines_emitParse snippets,
      List.forall_mem_singleton.mpr (isLines_facadeRows hc.parser hc.type _)⟩

/-! ### Tables and methods -/

namespace EnumerationCodec.Within

variable {e : EnumerationCodec} (he : e.Within scope)

include he

theorem isLine_literalName {l : String × String} (hl : l ∈ e.literals) :
    Text.IsLine (e.literalName l.2) :=
  ((isLine_qualifier.append (scope.isLine_of_type he.type)).append (.fixed rfl)).append
    (he.literals l hl).isLine

theorem isLines_fromTableRows : Block.IsLines e.fromTableRows := by
  have htype := isLine_qualifier.append (scope.isLine_of_type he.type)
  refine .append (.append (.code ?_ (.code ?_ .nil)) (.map fun l hl => ?_)) (.fixed rfl .nil)
  · exact ((Text.IsLine.between rfl he.fromTable.isLine rfl).append htype).append (.fixed rfl)
  · exact .between rfl htype rfl
  · exact Row.isLine_around (.fixed rfl) (Piece.isLine_literal l.1)
      (.between rfl (he.isLine_literalName hl) rfl)

theorem isLines_toTableRows : Block.IsLines e.toTableRows := by
  have htype := isLine_qualifier.append (scope.isLine_of_type he.type)
  refine .append (.append (.code ?_ (.code ?_ .nil)) (.map fun l hl => ?_)) (.fixed rfl .nil)
  · exact ((Text.IsLine.between rfl he.toTable.isLine rfl).append htype).append (.fixed rfl)
  · exact .between rfl htype rfl
  · exact Row.isLine_around (.between rfl (he.isLine_literalName hl) rfl)
      (Piece.isLine_literal l.1) (.fixed rfl)

theorem isLines_writeRows : Block.IsLines e.writeRows := by
  have hroutine := (scope.isWord_writeRoutine he.writer).isLine
  have htype := scope.isLine_of_type he.type
  refine .append (.docRows 0 _) (.code ?_ (.code ?_ (.fixed rfl (.code ?_ ?_))))
  · exact (((Text.IsLine.between rfl hroutine rfl).append isLine_qualifier).append htype).append
      (.fixed rfl)
  · exact .between rfl he.toTable.isLine rfl
  · exact .between rfl htype rfl
  · exact .fixed rfl (.fixed rfl (.fixed rfl .nil))

end EnumerationCodec.Within

namespace Entry.Within

variable {e : Entry} (he : e.Within scope)

include he

theorem isLine_access : Text.IsLine e.access := .append (.fixed rfl) he.field.isLine

theorem isLine_expression : Text.IsLine e.expression := by
  have haccess := he.isLine_access
  unfold Entry.expression
  split
  · split
    · next item hitem =>
      have hwritten := he.writer.isLine hitem (.fixed rfl)
      exact ((haccess.append (.fixed rfl)).append hwritten).append (.fixed rfl)
    · exact .between rfl haccess rfl
  · cases hwrite : e.writer.write? e.access with
    | none => exact haccess
    | some text => exact he.writer.isLine hwrite haccess

theorem isLines_rows : Block.IsLines e.rows := by
  have hassign : ∀ level, (e.assignRow level).IsLine := fun level =>
    Row.isLine_around (.fixed rfl) (Piece.isLine_literal e.key)
      (.between rfl he.isLine_expression rfl)
  unfold Entry.rows
  split
  · exact .code (.between rfl he.isLine_access rfl) (.cons (hassign 3) (.fixed rfl .nil))
  · exact .cons (hassign 2) .nil

end Entry.Within

theorem ClassCodec.isLines_writeDiscriminatorRows (c : ClassCodec) :
    Block.IsLines c.writeDiscriminatorRows := by
  unfold writeDiscriminatorRows
  split
  · next key value _ =>
    refine .cons (List.forall_mem_cons.mpr ⟨Text.IsLine.fixed rfl, ?_⟩) .nil
    exact List.forall_mem_cons.mpr ⟨Piece.isLine_literal key, Piece.isLine_quoted value rfl rfl⟩
  · exact .nil

theorem ClassCodec.Within.isLines_emitMethod {c : ClassCodec} (hc : c.Within scope)
    (snippets : Snippets) : Block.IsLines (c.emitMethod snippets).1 := by
  have hhead : Text.IsLine
      (c.method ++ "(that: " ++ qualifier ++ c.type ++ "): rt.JsonObject \x7b") :=
    (((hc.method.isLine.append (.fixed rfl)).append isLine_qualifier).append
      (scope.isLine_of_type hc.type)).append (.fixed rfl)
  have hwrap : ∀ {body : Block}, body.IsLines → Block.IsLines (.code 1
      (c.method ++ "(that: " ++ qualifier ++ c.type ++ "): rt.JsonObject \x7b")
        :: (body ++ [.code 1 "\x7d"])) := fun hbody =>
    .code hhead (.append hbody (.fixed rfl .nil))
  have hentries : Block.IsLines (c.entries.flatMap Entry.rows) :=
    .flatMap fun e he => (hc.entries e he).isLines_rows
  unfold ClassCodec.emitMethod
  split
  · split
    · exact hwrap (.snippetRows 2 _)
    · exact .nil
  · exact hwrap (.append (.append (.append (.fixed rfl .nil) hentries)
      c.isLines_writeDiscriminatorRows) (.fixed rfl .nil))

theorem isLines_writerRows {methods : Block} (h : methods.IsLines) :
    Block.IsLines (writerRows methods) := by
  refine .append (.append (.append (.docRows 0 _) (.fixed rfl .nil)) ?_)
    (.fixed rfl (.cons Row.isLine_blank (.fixed rfl .nil)))
  split
  · exact .cons Row.isLine_blank .nil
  · exact h

theorem isLines_toJsonableRows : Block.IsLines toJsonableRows :=
  .append (.docRows 0 _) (.fixed rfl (.fixed rfl (.fixed rfl .nil)))

theorem isLines_importRows (runtimeModule typesModule : String) :
    Block.IsLines (importRows runtimeModule typesModule) :=
  .cons (Row.isLine_quoted runtimeModule rfl rfl) (.cons (Row.isLine_quoted typesModule rfl rfl)
    .nil)

/-- **The rows of the codec module are lines.** -/
theorem CodecModule.Within.isLines_emit {m : CodecModule} (h : m.Within scope)
    (snippets : Snippets) : Block.IsLines (m.emit snippets).1 := by
  refine .joinBlocks (List.forall_mem_append.mpr ⟨List.forall_mem_append.mpr
    ⟨List.forall_mem_append.mpr ⟨List.forall_mem_append.mpr ⟨?_, ?_⟩, ?_⟩, ?_⟩, ?_⟩)
  -- the head of the file, the tables, what parses, the writer, and what writes literals
  · exact List.forall_mem_cons.mpr ⟨.bannerRows m.banner,
      List.forall_mem_singleton.mpr (isLines_importRows _ _)⟩
  · intro b hb
    obtain ⟨e, he, hb⟩ := List.mem_flatMap.mp hb
    rcases List.mem_pair.mp hb with rfl | rfl
    · exact (h.enumeration he).isLines_fromTableRows
    · exact (h.enumeration he).isLines_toTableRows
  · refine List.forall_mem_map.mpr fun emitted hemitted => ?_
    obtain ⟨codec, hmem, hemitted⟩ := List.mem_flatMap.mp hemitted
    exact (h codec hmem).isLines_emitRoutines snippets emitted hemitted
  · refine List.forall_mem_cons.mpr ⟨isLines_writerRows (.joinBlocks ?_),
      List.forall_mem_singleton.mpr isLines_toJsonableRows⟩
    exact List.forall_mem_map.mpr (List.forall_mem_map.mpr fun c hc =>
      (h.classType hc).isLines_emitMethod snippets)
  · exact List.forall_mem_map.mpr fun e he => (h.enumeration he).isLines_writeRows

end TypeScript

/-! ## Files -/

namespace Text

/-- Rows joined by line feeds. A text stands behind as many copies of the unit as its level says,
and an empty text stands alone. -/
def layOut (unit : String) (rows : List (Nat × String)) : String :=
  unlines (rows.map fun r => indentLine unit r.1 r.2)

theorem unlines_append {ls more : List String} (hls : ls ≠ []) (hmore : more ≠ []) :
    unlines (ls ++ more) = unlines ls ++ "\n" ++ unlines more :=
  String.intercalate_append_of_ne_nil hls hmore

theorem unlines_concat {ls : List String} (h : ls ≠ []) (l : String) :
    unlines (ls ++ [l]) = unlines ls ++ "\n" ++ l := by
  rw [unlines_append h (List.cons_ne_nil l []), unlines, unlines, String.intercalate_singleton]

end Text

namespace TypeScript

/-- The levels and the texts of rows. The line feed at the end of a file makes one more row, which
is empty. -/
def Block.layout (rows : Block) : List (Nat × String) :=
  (rows.map fun r => (r.level, r.text)) ++ [(0, "")]

theorem renderFile_eq_layOut (indent : String) {rows : Block} (h : rows ≠ []) :
    renderFile indent rows = layOut indent rows.layout := by
  have hne : rows.map (Row.render indent) ≠ [] := by simpa using h
  have hrows : (rows.layout.map fun r => indentLine indent r.1 r.2)
      = rows.map (Row.render indent) ++ [""] := by
    rw [Block.layout, List.map_append, List.map_map]
    rfl
  rw [layOut, hrows, unlines_concat hne, String.append_empty, renderFile]

theorem Block.IsLines.layout {rows : Block} (h : rows.IsLines) :
    ∀ row ∈ rows.layout, Text.IsLine row.2 :=
  List.forall_mem_append.mpr ⟨List.forall_mem_map.mpr fun r hr => (h r hr).text,
    List.forall_mem_singleton.mpr (.fixed rfl)⟩

end TypeScript

/-- Options that are asked for with another indentation differ in the indentation only. -/
theorem Options.eq_of_resolve_indent {settings : Settings} {o other : Options}
    (ho : Options.resolve settings = .ok o) {indent : Option String}
    (hother : Options.resolve { settings with indent := indent } = .ok other) :
    other = { o with indent := other.indent } := by
  have heq : ∀ {s : Settings} {o : Options}, resolve s = .ok o → o = ofSettings s := by
    intro s o h
    unfold resolve at h
    dsimp only at h
    split at h
    · cases h
    · exact (Except.ok.inj h).symm
  rw [heq ho, heq hother]
  rfl

open TypeScript in
/-- **The indentation is leading white space only.** If the files of a model are given out under
some options, there are rows for each file, and with any other indentation that is accepted the
model still loads and the files are given out again, laid out from the same rows. No text of a row
has a line feed, so that the rows are the lines of the file. -/
theorem Model.files_laid_out {settings : Settings} {o : Options}
    (ho : Options.resolve settings = .ok o) {value : Json} {table : Table}
    (h : compile value o = .ok table) {snippets : Snippets} {files : List File}
    (hfiles : generate table .typescript o snippets = .ok (.ok files)) :
    ∃ types codec : List (Nat × String), (∀ row ∈ types ++ codec, Text.IsLine row.2)
      ∧ ∀ (indent : Option String) (other : Options),
        Options.resolve { settings with indent := indent } = .ok other →
          compile value other = .ok table
            ∧ generate table .typescript other snippets
              = .ok (.ok [⟨"types.ts", Text.layOut other.indent types⟩,
                ⟨"jsonization.ts", Text.layOut other.indent codec⟩]) := by
  obtain ⟨plan, hplan, hgenerated⟩ := map_eq_ok_iff.mp hfiles
  have hlinked := Model.linked_of_load h
  have hplans := Codec.Plan.plans_of_eq_ok hplan
  refine ⟨((TypesModule.of plan o.banner).emit snippets).1.layout,
    ((CodecModule.of plan o).emit snippets).1.layout, ?_, ?_⟩
  · exact List.forall_mem_append.mpr
      ⟨((hlinked.typesModule_within hplans _).isLines_emit snippets).layout,
        ((hlinked.codecModule_within hplans _).isLines_emit snippets).layout⟩
  · intro indent other hother
    -- files are given out only if nothing is reported, and reports do not look at the options
    have hquiet : table.problems .typescript snippets = [] := by
      rw [Codec.Plan.generate_eq hplans] at hgenerated
      by_contra hproblems
      rw [if_neg hproblems] at hgenerated
      cases hgenerated
    rw [Options.eq_of_resolve_indent ho hother]
    refine ⟨h, ?_⟩
    rw [generate, hplan, ← renderFile_eq_layOut _ (TypesModule.emit_ne_nil _ _),
      ← renderFile_eq_layOut _ (CodecModule.emit_ne_nil _ _)]
    refine congrArg Except.ok ((Codec.Plan.generate_eq hplans .typescript _ snippets).trans ?_)
    rw [if_pos hquiet]
    rfl

/-- A model with comments, literals that have line feeds, and a handwritten class. -/
def lockers : Json :=
  .object [("name", .text "lockers"), ("types", .array [
    .object [("kind", .text "enumeration"), ("name", .text "lock"),
      ("description", .text "How it is locked."), ("literals", .array [
        .object [("name", .text "code"), ("value", .text "by\ncode")]])],
    .object [("kind", .text "concreteClass"), ("name", .text "locker"),
      ("properties", .array [
        .object [("name", .text "owner"), ("type", .text "Optional[str]"),
          ("description", .text "Who has the key.\n\nNobody knows.")]]),
      ("constructorArguments", .array [
        .object [("name", .text "owner"), ("type", .text "Optional[str]"),
          ("default", .text "no\none")]])],
    .object [("kind", .text "concreteClass"), ("name", .text "vault"),
      ("implementationSpecific", .bool true)]])]

/-- Handwritten code with an empty line in it. -/
def vaultSnippets : Snippets :=
  [("types/vault.ts", "export class Vault \x7b\n\n  door = 1;\n\x7d"),
    ("jsonization/parse/vault.ts", "// never\nreturn rt.fail('closed');"),
    ("jsonization/transform/vault.ts", "return \x7b\x7d;")]

theorem lockers_laid_out : ∃ table files, Options.resolve {} = .ok {}
    ∧ compile lockers {} = .ok table
    ∧ generate table .typescript {} vaultSnippets = .ok (.ok files)
    ∧ ∃ types codec : List (Nat × String), (∀ row ∈ types ++ codec, Text.IsLine row.2)
      ∧ ∀ (indent : Option String) (other : Options),
        Options.resolve { indent := indent } = .ok other →
          compile lockers other = .ok table
            ∧ generate table .typescript other vaultSnippets
              = .ok (.ok [⟨"types.ts", Text.layOut other.indent types⟩,
                ⟨"jsonization.ts", Text.layOut other.indent codec⟩]) := by
  have hresolve : Options.resolve {} = .ok {} := rfl
  have hgiven : ((compile lockers {}).toOption.any fun t =>
      (generate t .typescript {} vaultSnippets).toOption.any (·.toOption.isSome)) = true := by
    decide +kernel
  obtain ⟨table, files, hcompile, hfiles⟩ := exists_files hgiven
  exact ⟨table, files, hresolve, hcompile, hfiles,
    Model.files_laid_out hresolve hcompile hfiles⟩

end WireModel
