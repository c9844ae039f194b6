import WireModel.Proofs.LineFeeds
import WireModel.Proofs.Numerals
import WireModel.Proofs.Scope

/-!
# Line structure of the reference

A text with a line feed in it breaks the line that it is written on, so the sources of text have to
be gone through one by one. Names are identifiers, anchors have an alphabet of their own, numbers
are numerals, the white space of descriptions is folded when they are read, and the defaults that
are texts are quoted, which leaves no control as it is. The title, the version and the values of
literals are free text, and they are written as they are.

* **`Document.Clean.isLine_of_mem_inlines`**: the running text of descriptions has no line feed.
* **`Reference.broken_texts_build`**: the texts of the tree of a model that have a line feed are the
  title, the version and the values of literals that have one, in this order.
* **`Model.reference_lines`**: so these alone add lines to those that the shape prescribes.
-/

namespace WireModel

open Text

/-! ## Sources of text -/

/-- Quoting leaves no control as it is. -/
theorem Text.isLine_quoteWith {mark : Char} (hmark : mark ≠ '\n') (s : String) :
    IsLine (quoteWith mark s) := by
  have hescape : ∀ c, '\n' ∉ escapeChar mark c := by
    intro c hmem
    unfold escapeChar at hmem
    split_ifs at hmem with hquoted hcontrol
    · -- what is quoted is the mark or a backslash
      rcases List.mem_pair.mp hmem with hbackslash | rfl
      · exact absurd hbackslash (by decide)
      · exact hquoted.elim (fun h => hmark h.symm) (by decide)
    · -- an escape is a backslash with letters and digits
      have hall : ∀ n < 0x20, '\n' ∉ controlEscape (Char.ofNat n) := by decide
      have hchar := hall c.toNat hcontrol
      rw [Char.ofNat_toNat] at hchar
      exact hchar hmem
    · obtain rfl := List.mem_singleton.mp hmem
      exact hcontrol (by decide)
  rw [IsLine, quoteWith, String.toList_ofList]
  simp [hmark.symm, hescape]

theorem Text.isLine_quote (s : String) : IsLine (quote s) := isLine_quoteWith (by decide) s

theorem Name.IsWord.isLine {s : String} (h : Name.IsWord s) : IsLine s := h.not_mem rfl

theorem Name.isLine_of_isIdentifier {name : String} (h : Name.isIdentifier name = true) :
    IsLine name := Name.not_mem_of_isIdentifier h rfl

theorem Name.isLine_anchor (parts : List String) : IsLine (Name.anchor parts) := by
  intro hmem
  have hform := isAnchor_anchor parts '\n' hmem
  revert hform
  decide

theorem Binary64.isLine_text (x : Binary64) : IsLine x.text := by
  intro hmem
  have hnumeral := mem_text hmem
  revert hnumeral
  decide

theorem Options.isLine_discriminatorKey {settings : Settings} {o : Options}
    (h : Options.resolve settings = .ok o) : IsLine o.discriminatorKey := by
  have hcheck := check_of_resolve h
  unfold check at hcheck
  split at hcheck
  · cases hcheck
  · next hplain =>
    intro hmem
    have hchar := Name.isPlainChar_of_isPlain (by simpa using hplain) '\n' hmem
    revert hchar
    decide

/-- Every title is accepted. -/
theorem Options.resolve_title (title : Option String) :
    Options.resolve { title := title } = .ok { title := title } := by
  have hcheck : (ofSettings { title := title }).check = none := by
    show ({} : Options).check = none
    decide +kernel
  unfold resolve
  dsimp only
  rw [hcheck]
  rfl

namespace Description

/-- White space is folded before references are looked for. -/
theorem newline_not_mem_source {s : String} {ps : List Piece} (hps : ps ∈ paragraphPieces s)
    {p : Piece} (hp : p ∈ ps) : '\n' ∉ p.source := by
  obtain ⟨text, htext, rfl⟩ := List.mem_map.mp hps
  obtain ⟨part, -, rfl⟩ := List.mem_map.mp (List.mem_filter.mp htext).1
  intro hmem
  have hsource := (leftmost_iff.mpr rfl : Leftmost (fold (String.ofList part)).toList _).source_eq
  have hchar : '\n' ∈ (fold (String.ofList part)).toList := by
    rw [← hsource]
    exact List.mem_flatMap.mpr ⟨p, hp, hmem⟩
  have hspace := eq_space_of_mem_fold hchar (by decide)
  revert hspace
  decide

theorem isLine_of_resolve {s t : String} {ps : List Piece} (hps : ps ∈ paragraphPieces s)
    {p : Piece} (hp : p ∈ ps) {lookup : Lookup} (hlookup : ∀ r, lookup r ≠ some (.text t))
    (ht : p.resolve lookup = .text t) : IsLine t := by
  have hsource := newline_not_mem_source hps hp
  cases p with
  | text u =>
    cases ht
    exact hsource
  | mention r =>
    rw [Piece.resolve] at ht
    cases hfind : lookup r with
    | some inline =>
      rw [hfind] at ht
      exact absurd (hfind.trans (congrArg some ht)) (hlookup r)
    | none =>
      -- the target of a reference that is not found is part of the source
      rw [hfind] at ht
      obtain rfl : r.target = t := Inline.text.inj ht
      rw [Piece.source, toList_mention_text] at hsource
      intro hmem
      exact hsource (List.mem_append_right _ (List.mem_append_left _ hmem))

end Description

theorem Outline.lookup_ne_text (o : Outline) (within : Option String) (r : Mention) (s : String) :
    o.lookup within r ≠ some (.text s) := by
  have hproperty : ∀ owner property, o.propertyRef? owner property ≠ some (.text s) := by
    intro owner property hfind
    unfold propertyRef? at hfind
    split at hfind
    · cases hfind
    · obtain ⟨a, -, ha⟩ := Option.map_eq_some_iff.mp hfind
      cases ha
  intro hfind
  unfold lookup at hfind
  split at hfind
  · split at hfind
    · cases hfind
    · cases hfind
  · split at hfind
    · exact hproperty _ _ hfind
    · obtain ⟨owner, -, hfind⟩ := Option.bind_eq_some_iff.mp hfind
      exact hproperty _ _ hfind

/-- **The running text of descriptions has no line feed.** -/
theorem Document.Clean.isLine_of_mem_inlines {key : String} {document : Document}
    (h : document.Clean key) {s : String} (hs : .text s ∈ document.table.inlines) : IsLine s := by
  obtain ⟨description, hdescription, hs⟩ := List.mem_flatMap.mp hs
  obtain ⟨within, prose, rfl⟩ := h.exists_describe hdescription
  obtain ⟨d, hd, hs⟩ := List.mem_flatMap.mp hs
  obtain ⟨text, -, hparse⟩ := Option.bind_eq_some_iff.mp (Option.mem_toList.mp hd)
  rw [Description.paragraphs_of_parse hparse] at hs
  obtain ⟨paragraph, hparagraph, hs⟩ := List.mem_flatten.mp hs
  obtain ⟨ps, hps, rfl⟩ := List.mem_map.mp hparagraph
  obtain ⟨p, hp, hresolve⟩ := List.mem_map.mp hs
  exact Description.isLine_of_resolve hps hp
    (fun r => Outline.lookup_ne_text _ within r s) hresolve

/-- The values of the literals of a type. -/
def NamedType.values : NamedType → List String
  | .enumeration e => e.literals.map (·.value)
  | .constrained _ | .classType _ => []

/-- The free text that the reference takes over as it is: its title, the version of the model, and
the values of literals. -/
def Table.verbatim (t : Table) (title : Option String) : List String :=
  title.toList ++ t.version.toList ++ t.types.flatMap NamedType.values

namespace Reference

/-! ## Texts of the tree of a model -/

/-- A piece of running text without line feeds. -/
def Span.Flat (s : Span) : Prop := ∀ text ∈ s.texts, IsLine text

/-- A block without line feeds. -/
def Block.Flat (b : Block) : Prop := ∀ text ∈ b.texts, IsLine text

namespace Span

@[simp] theorem flat_text {s : String} : (Span.text s).Flat ↔ IsLine s := by simp [Flat, texts]

@[simp] theorem flat_code {s : String} : (Span.code s).Flat ↔ IsLine s := by simp [Flat, texts]

@[simp] theorem flat_link {s anchor : String} {isCode : Bool} :
    (Span.link s anchor isCode).Flat ↔ IsLine s ∧ IsLine anchor := by
  simp [Flat, texts]

@[simp] theorem flat_target {anchor : String} : (Span.target anchor).Flat ↔ IsLine anchor := by
  simp [Flat, texts]

end Span

namespace Block

theorem flat_iff {b : Block} :
    b.Flat ↔ (∀ text ∈ b.labels, IsLine text) ∧ ∀ s ∈ b.spans, s.Flat := by
  rw [Flat, texts, List.forall_mem_append, List.forall_mem_flatMap]
  rfl

theorem flat_heading {level : Nat} {text anchor : String} (htext : IsLine text)
    (hanchor : IsLine anchor) : (Block.heading level text anchor).Flat :=
  flat_iff.mpr ⟨by simpa [labels] using ⟨hanchor, htext⟩, nofun⟩

theorem flat_paragraph {content : Spans} (h : ∀ s ∈ content, s.Flat) :
    (Block.paragraph content).Flat :=
  flat_iff.mpr ⟨nofun, h⟩

theorem flat_list {items : List Spans} (h : ∀ item ∈ items, ∀ s ∈ item, s.Flat) :
    (Block.list items).Flat := by
  refine flat_iff.mpr ⟨nofun, fun s hs => ?_⟩
  obtain ⟨item, hitem, hs⟩ := List.mem_flatten.mp hs
  exact h item hitem s hs

theorem flat_table {header : List String} {rows : List (List Spans)}
    (hheader : ∀ text ∈ header, IsLine text)
    (h : ∀ row ∈ rows, ∀ cell ∈ row, ∀ s ∈ cell, s.Flat) : (Block.table header rows).Flat := by
  refine flat_iff.mpr ⟨hheader, fun s hs => ?_⟩
  obtain ⟨cell, hcell, hs⟩ := List.mem_flatten.mp hs
  obtain ⟨row, hrow, hcell⟩ := List.mem_flatten.mp hcell
  exact h row hrow cell hcell s hs

end Block

theorem broken_of_flat {bs : List Block} (h : ∀ b ∈ bs, b.Flat) :
    broken (bs.flatMap Block.texts) = [] := by
  rw [broken_eq_nil_iff, List.forall_mem_flatMap]
  exact h

theorem flat_titled (level : Nat) {title : String} (h : IsLine title) :
    (heading level title).Flat :=
  Block.flat_heading h (Name.isLine_anchor [title])

theorem flat_typeLink {name : String} (h : IsLine name) : (typeLink name).Flat :=
  Span.flat_link.mpr ⟨h, Name.isLine_anchor [name]⟩

theorem flat_relatives {lead : String} (hlead : IsLine lead) {names : List String}
    (h : ∀ name ∈ names, IsLine name) : ∀ b ∈ relatives lead names, b.Flat := by
  have hlinks : ∀ s ∈ typeLinks names, s.Flat := by
    intro s hs
    rcases mem_of_mem_intersperse hs with rfl | hs
    · simp only [Span.flat_text]
      decide
    · obtain ⟨name, hname, rfl⟩ := List.mem_map.mp hs
      exact flat_typeLink (h name hname)
  unfold relatives
  split
  · nofun
  · rw [List.forall_mem_singleton]
    apply Block.flat_paragraph
    simp only [List.forall_mem_append, List.forall_mem_singleton, Span.flat_text]
    exact ⟨⟨hlead, hlinks⟩, by decide⟩

theorem flat_ofField {type : FieldType Atom} (h : ∀ name ∈ type.names, IsLine name) :
    ∀ s ∈ ofField type, s.Flat := by
  have hitem : (ofAtom type.item).Flat := by
    cases hatom : type.item with
    | primitive kind =>
      show (Span.code kind.name).Flat
      rw [Span.flat_code]
      cases kind <;> decide
    | named name => exact flat_typeLink (h name (by simp [FieldType.names, hatom, Atom.names]))
  have hlist : IsLine "List[" ∧ IsLine "]" := by decide
  have hoptional : IsLine "Optional[" := by decide
  unfold ofField
  dsimp only
  split_ifs <;> simp [hitem, hlist, hoptional]

theorem flat_kindSpans (kind : ClassKind) : ∀ s ∈ kindSpans kind, s.Flat := by
  have hkind : IsLine (if kind.isConcrete then "Concrete class." else "Abstract class.") := by
    split <;> decide
  unfold kindSpans
  rw [List.forall_mem_append, List.forall_mem_singleton, Span.flat_text]
  refine ⟨hkind, ?_⟩
  split
  · rw [List.forall_mem_singleton, Span.flat_text]
    decide
  · nofun

theorem flat_discriminatorBlocks {key : String} (hkey : IsLine key) (c : Codec.ClassPlan) :
    ∀ b ∈ discriminatorBlocks key c, b.Flat := by
  have hmark : IsLine ("\"" ++ key ++ "\": " ++ Text.quote (Name.capital c.name)) :=
    IsLine.append (.append (.append (by decide) hkey) (by decide)) (isLine_quote _)
  unfold discriminatorBlocks
  split
  · rw [List.forall_mem_singleton]
    apply Block.flat_paragraph
    simp only [List.forall_mem_cons, Span.flat_text, Span.flat_code]
    exact ⟨by decide, hmark, by decide, nofun⟩
  · nofun

section Linked

variable {key : String} {t : Table} (h : t.Linked key)

include h

theorem isLine_of_find? {name : String} {s : NamedType} (hs : t.find? name = some s) :
    IsLine name := by
  have hname : s.name = name := by simpa using List.find?_some hs
  rw [← hname]
  exact Name.isLine_of_isIdentifier (h.sound.identified s (List.mem_of_find?_eq_some hs))

theorem isLine_of_hasClass {names : List String} (hnames : ∀ name ∈ names, t.HasClass name) :
    ∀ name ∈ names, IsLine name := by
  intro name hname
  obtain ⟨c, hc⟩ := hnames name hname
  exact isLine_of_find? h hc

theorem isLine_of_links {type : FieldType Atom} (htype : t.Links type) :
    ∀ name ∈ type.names, IsLine name := by
  intro name hname
  obtain ⟨s, hs⟩ := htype name hname
  exact isLine_of_find? h hs

theorem flat_argumentSpans {c : Class} (hc : c ∈ t.classes) {a : Argument}
    (ha : a ∈ c.arguments) : ∀ s ∈ argumentSpans a, s.Flat := by
  obtain ⟨hlinks, hsupplies⟩ := (h.closed.classes c hc).arguments a ha
  have hname := Name.isLine_of_isIdentifier ((h.sound.classes c hc).isIdentifier_argument ha)
  have hdefault : ∀ d, a.default = some d → (ofDefault d).Flat := by
    intro d hd
    cases d with
    | bool b =>
      cases b
      all_goals
        simp only [ofDefault, Span.flat_code]
        decide
    | number x => exact Span.flat_code.mpr x.isLine_text
    | text s => exact Span.flat_code.mpr (isLine_quote s)
    | literal enumeration literal =>
      obtain ⟨-, e, he, hliteral⟩ := hsupplies enumeration literal hd
      obtain ⟨l, hl, rfl⟩ := List.mem_map.mp hliteral
      have hl := h.literals_identified e (List.mem_of_find?_eq_some he) l hl
      apply Span.flat_link.mpr
      exact ⟨IsLine.append (.append (isLine_of_find? h he) (by decide))
        (Name.isLine_of_isIdentifier hl), Name.isLine_anchor [enumeration]⟩
  unfold argumentSpans
  rw [List.forall_mem_append, List.forall_mem_append]
  refine ⟨⟨?_, flat_ofField (isLine_of_links h hlinks)⟩, ?_⟩
  · simp only [List.forall_mem_cons, Span.flat_code, Span.flat_text]
    exact ⟨hname, by decide, nofun⟩
  · split
    · next d hd =>
      simp only [List.forall_mem_cons, Span.flat_text]
      exact ⟨by decide, hdefault d hd, nofun⟩
    · nofun

theorem flat_constructorBlocks {c : Class} (hc : c ∈ t.classes) :
    ∀ b ∈ constructorBlocks c, b.Flat := by
  have hpart : IsLine (sectionAnchor c.name "constructor") :=
    IsLine.append (.append (Name.isLine_anchor [c.name]) (by decide)) (by decide)
  unfold constructorBlocks
  split
  · nofun
  · rw [List.forall_mem_cons, List.forall_mem_singleton]
    refine ⟨Block.flat_heading (by decide) hpart, Block.flat_list ?_⟩
    rw [List.forall_mem_map]
    exact fun a ha => flat_argumentSpans h hc ha

variable (hprose : ∀ s, .text s ∈ t.inlines → IsLine s)

include hprose

theorem flat_ofInline {inline : Inline} (hinline : inline ∈ t.inlines) :
    (ofInline inline).Flat := by
  cases h.closed.inlines inline hinline with
  | text s => exact Span.flat_text.mpr (hprose s hinline)
  | typeRef hs => exact flat_typeLink (isLine_of_find? h hs)
  | @propertyRef owner c p hc hp =>
    have hclass : c ∈ t.classes := Table.mem_classes.mpr (List.mem_of_find?_eq_some hc)
    have hname := (h.sound.classes c hclass).properties_identified p hp
    exact Span.flat_link.mpr
      ⟨Name.isLine_of_isIdentifier hname, Name.isLine_anchor [p.declaredBy, p.name]⟩

theorem flat_of_mem_paragraphs {d : Description} (hd : some d ∈ t.descriptions) {p : Paragraph}
    (hp : p ∈ d.paragraphs) : ∀ s ∈ p.map ofInline, s.Flat := by
  rw [List.forall_mem_map]
  intro inline hinline
  apply flat_ofInline h hprose
  exact List.mem_flatMap.mpr ⟨some d, hd, by simpa using ⟨p, hp, hinline⟩⟩

theorem flat_descriptionBlocks {description : Option Description}
    (hd : description ∈ t.descriptions) : ∀ b ∈ descriptionBlocks description, b.Flat := by
  cases description with
  | none => nofun
  | some d =>
    rw [descriptionBlocks, List.forall_mem_map]
    exact fun p hp => Block.flat_paragraph (flat_of_mem_paragraphs h hprose hd hp)

theorem flat_summaryOf {description : Option Description} (hd : description ∈ t.descriptions) :
    ∀ s ∈ summaryOf description, s.Flat := by
  cases description with
  | none => nofun
  | some d => exact flat_of_mem_paragraphs h hprose hd List.mem_cons_self

theorem flat_constrainedBlocks {c : Constrained} (hc : .constrained c ∈ t.types) :
    ∀ b ∈ constrainedBlocks c, b.Flat := by
  have hdescription : c.description ∈ t.descriptions := Table.mem_descriptions hc List.mem_cons_self
  have hname : IsLine c.name := Name.isLine_of_isIdentifier (h.sound.identified (.constrained c) hc)
  have hkind : IsLine c.constrainee.name := by cases c.constrainee <;> decide
  unfold constrainedBlocks
  rw [List.forall_mem_append, List.forall_mem_cons, List.forall_mem_singleton]
  refine ⟨⟨flat_titled 3 hname, Block.flat_paragraph ?_⟩,
    flat_descriptionBlocks h hprose hdescription⟩
  simp only [List.forall_mem_cons, Span.flat_text, Span.flat_code]
  exact ⟨by decide, hkind, by decide, nofun⟩

theorem flat_propertyRow {c : Class} (hc : c ∈ t.classes) (className : String) {m : Codec.Member}
    {p : Property} (hp : p ∈ c.properties) (hm : m.Plans t p) :
    ∀ cell ∈ propertyRow className m, ∀ s ∈ cell, s.Flat := by
  obtain rfl := hm.property_eq
  have hclosed := h.closed.classes c hc
  obtain ⟨a, ha, -⟩ := hclosed.declared m.property hp
  have hidentified := (h.sound.classes c hc).properties_identified m.property hp
  have hline := Name.isLine_of_isIdentifier hidentified
  have hdescription : m.property.description ∈ t.descriptions :=
    Table.mem_descriptions (Table.mem_classes.mp hc)
      (List.mem_cons_of_mem _ (List.mem_map_of_mem hp))
  have hname : ∀ s ∈ (if m.property.declaredBy = className then
      [.target (propertyAnchor m.property.declaredBy m.property.name), .code m.property.name]
      else [.code m.property.name, .text " (from ", typeLink m.property.declaredBy, .text ")"]),
      s.Flat := by
    split
    · simp only [List.forall_mem_cons, Span.flat_target, Span.flat_code]
      exact ⟨Name.isLine_anchor _, hline, nofun⟩
    · simp only [List.forall_mem_cons, Span.flat_code, Span.flat_text]
      exact ⟨hline, by decide, flat_typeLink (isLine_of_find? h ha), by decide, nofun⟩
  have hwire : IsLine m.wire := by
    rw [hm.wire_eq]
    exact (Name.isWord_camel hidentified).isLine
  unfold propertyRow
  dsimp only
  simp only [List.forall_mem_cons]
  exact ⟨hname, ⟨Span.flat_code.mpr hwire, nofun⟩,
    flat_ofField (isLine_of_links h (hclosed.properties m.property hp)),
    flat_summaryOf h hprose hdescription, nofun⟩

theorem flat_propertyBlocks {c : Class} (hc : c ∈ t.classes) {p : Codec.ClassPlan}
    (hp : p.Plans t c) : ∀ b ∈ propertyBlocks p, b.Flat := by
  have hpart : IsLine (sectionAnchor p.name "properties") :=
    IsLine.append (.append (Name.isLine_anchor [p.name]) (by decide)) (by decide)
  unfold propertyBlocks
  split
  · nofun
  · rw [List.forall_mem_cons, List.forall_mem_singleton]
    refine ⟨Block.flat_heading (by decide) hpart, Block.flat_table (by decide) ?_⟩
    rw [List.forall_mem_map]
    intro m hm
    obtain ⟨q, hq, hplans⟩ := exists_of_mem_forall₂ hp.members.flip hm
    exact flat_propertyRow h hprose hc p.name hq hplans

theorem flat_classBlocks {discriminator : String} (hkey : IsLine discriminator) {c : Class}
    (hc : c ∈ t.classes) {p : Codec.ClassPlan} (hp : p.Plans t c) :
    ∀ b ∈ classBlocks discriminator p, b.Flat := by
  obtain rfl := hp.type_eq
  have hclosed := h.closed.classes p.type hc
  have hdescription : p.type.description ∈ t.descriptions :=
    Table.mem_descriptions (Table.mem_classes.mp hc) List.mem_cons_self
  have hname : IsLine p.name := Name.isLine_of_isIdentifier (h.sound.isIdentifier_of_mem_classes hc)
  unfold classBlocks
  simp only [List.forall_mem_append, List.forall_mem_cons]
  exact ⟨⟨⟨⟨⟨⟨⟨flat_titled 3 hname, Block.flat_paragraph (flat_kindSpans p.type.kind), nofun⟩,
    flat_relatives (by decide) (isLine_of_hasClass h hclosed.parents)⟩,
    flat_relatives (by decide) (isLine_of_hasClass h hclosed.descendants)⟩,
    flat_discriminatorBlocks hkey p⟩, flat_descriptionBlocks h hprose hdescription⟩,
    flat_propertyBlocks h hprose hc hp⟩, flat_constructorBlocks h hc⟩

/-- Of the row of a literal, the value is taken over as it is. -/
theorem broken_texts_literal {e : Enumeration} (he : .enumeration e ∈ t.types) {l : Literal}
    (hl : l ∈ e.literals) :
    broken ([[.code l.name], [.code l.value], summaryOf l.description].flatten.flatMap Span.texts)
      = broken [l.value] := by
  have hname : IsLine l.name := Name.isLine_of_isIdentifier (h.literals_identified e he l hl)
  have hdescription : l.description ∈ t.descriptions :=
    Table.mem_descriptions he (List.mem_cons_of_mem _ (List.mem_map_of_mem hl))
  have hsummary : broken ((summaryOf l.description).flatMap Span.texts) = [] := by
    rw [broken_eq_nil_iff, List.forall_mem_flatMap]
    exact flat_summaryOf h hprose hdescription
  show broken ([l.name] ++ ([l.value] ++ (summaryOf l.description ++ []).flatMap Span.texts)) = _
  rw [List.append_nil, broken_append, broken_append, broken_singleton hname, hsummary,
    List.nil_append, List.append_nil]

/-- Of an enumeration, the values of the literals are taken over as they are. -/
theorem broken_texts_enumerationBlocks {e : Enumeration} (he : .enumeration e ∈ t.types) :
    broken ((enumerationBlocks e).flatMap Block.texts) = broken (e.literals.map (·.value)) := by
  have hdescription : e.description ∈ t.descriptions := Table.mem_descriptions he List.mem_cons_self
  have hname : IsLine e.name := Name.isLine_of_isIdentifier (h.sound.identified (.enumeration e) he)
  have hblocks : ∀ b ∈ [heading 3 e.name] ++ descriptionBlocks e.description, b.Flat := by
    rw [List.forall_mem_append, List.forall_mem_singleton]
    exact ⟨flat_titled 3 hname, flat_descriptionBlocks h hprose hdescription⟩
  have hheader : broken ["Literal", "Value", "Description"] = [] := by decide
  rw [enumerationBlocks, List.flatMap_append, broken_append, broken_of_flat hblocks,
    List.flatMap_singleton, Block.texts, broken_append, Block.labels, hheader, Block.spans,
    List.flatten_eq_flatMap, List.flatten_eq_flatMap, List.flatMap_assoc, List.flatMap_assoc,
    List.flatMap_map, broken_flatMap, List.map_eq_flatMap, broken_flatMap]
  -- what is left are the rows on one side and the values on the other
  apply List.flatMap_congr
  intro l hl
  rw [← broken_texts_literal h hprose he hl, List.flatten_eq_flatMap, List.flatMap_assoc]
  rfl

variable {plan : Codec.Plan} (hplan : plan.Plans t)

include hplan

theorem broken_texts_enumerationsOf :
    broken ((enumerationsOf plan).flatMap Block.texts)
      = broken (t.types.flatMap NamedType.values) := by
  have htypes := (List.forall₂_and_left _ _).mpr ⟨fun s (hs : s ∈ t.types) => hs, hplan.types⟩
  rw [enumerationsOf, List.flatMap_assoc, broken_flatMap, broken_flatMap]
  apply flatMap_eq_of_forall₂ htypes
  intro s type hboth
  obtain ⟨hs, hplans⟩ := hboth
  cases hplans with
  | enumeration e => exact broken_texts_enumerationBlocks h hprose hs
  | constrained | classType => rfl

theorem flat_constrainedOf : ∀ b ∈ constrainedOf plan, b.Flat := by
  rw [constrainedOf, List.forall_mem_flatMap]
  intro type htype
  obtain ⟨s, hs, hplans⟩ := exists_of_mem_forall₂ hplan.types.flip htype
  cases hplans with
  | constrained c => exact flat_constrainedBlocks h hprose hs
  | enumeration | classType => exact List.forall_mem_nil _

theorem flat_classesOf {discriminator : String} (hkey : IsLine discriminator) :
    ∀ b ∈ classesOf plan discriminator, b.Flat := by
  rw [classesOf, List.forall_mem_flatMap]
  intro type htype
  obtain ⟨s, hs, hplans⟩ := exists_of_mem_forall₂ hplan.types.flip htype
  cases hplans with
  | classType hp => exact flat_classBlocks h hprose hkey (Table.mem_classes.mpr hs) hp
  | enumeration | constrained => exact List.forall_mem_nil _

end Linked

theorem broken_texts_sectionBlocks {title : String} (h : IsLine title) (content : List Block) :
    broken ((sectionBlocks title content).flatMap Block.texts)
      = broken (content.flatMap Block.texts) := by
  unfold sectionBlocks
  split
  · next hempty => rw [List.isEmpty_iff.mp hempty]
  · have hheading := broken_of_flat (List.forall_mem_singleton.mpr (flat_titled 2 h))
    rw [← List.singleton_append, List.flatMap_append, broken_append, hheading, List.nil_append]

/-- **The texts with a line feed** are the title, the version and the values of literals that have
one, in this order. -/
theorem broken_texts_build {key : String} {t : Table} (h : t.Linked key)
    (hprose : ∀ s, .text s ∈ t.inlines → IsLine s) (hname : IsLine t.name) {plan : Codec.Plan}
    (hplan : plan.Plans t) {discriminator : String} (hkey : IsLine discriminator)
    (title : Option String) :
    broken (build plan discriminator title).texts = broken (t.verbatim title) := by
  have htitle : broken ([heading 1 (title.getD t.name)].flatMap Block.texts)
      = broken title.toList := by
    have hanchor : broken [Name.anchor [title.getD t.name]] = [] :=
      broken_singleton (Name.isLine_anchor _)
    show broken ([Name.anchor [title.getD t.name]] ++ [title.getD t.name]) = _
    rw [broken_append, hanchor, List.nil_append]
    cases title with
    | none => exact broken_singleton hname
    | some title => rfl
  have hversion : ∀ v, broken (Block.paragraph [.text "Version ", .code v]).texts = broken [v] := by
    intro v
    have hlead : broken ["Version "] = [] := by decide
    show broken (["Version "] ++ [v]) = broken [v]
    rw [broken_append, hlead, List.nil_append]
  have hdescription := broken_of_flat
    (flat_descriptionBlocks h hprose (List.mem_cons_self (a := t.description)))
  unfold Tree.texts build Table.verbatim
  rw [hplan.table_eq]
  dsimp only
  simp only [List.flatMap_append, broken_append]
  rw [htitle, hdescription, broken_texts_sectionBlocks (by decide),
    broken_texts_sectionBlocks (by decide), broken_texts_sectionBlocks (by decide),
    broken_texts_enumerationsOf h hprose hplan, broken_of_flat (flat_constrainedOf h hprose hplan),
    broken_of_flat (flat_classesOf h hprose hplan hkey)]
  cases t.version with
  | none => simp
  | some v => simp [hversion v]

theorem height_build_pos (plan : Codec.Plan) (key : String) (title : Option String) :
    0 < (build plan key title).height := by
  have hheading : heading 1 (title.getD plan.table.name) ∈ (build plan key title).blocks := by
    simp [build]
  have hsum : 0 < ((build plan key title).blocks.map Block.height).sum :=
    List.sum_pos_iff_exists_pos_nat.mpr ⟨2, List.mem_map.mpr ⟨_, hheading, rfl⟩, by decide⟩
  exact Nat.lt_of_lt_of_le hsum (Nat.le_add_right _ _)

end Reference

/-- **Lines of the reference.** The title, the version and the values of literals are written as
they are, and each line feed in one of them adds a line to those that the shape of the tree
prescribes. Nothing else does: where these texts are on one line each, the lines of the reference
are those that the blocks are written as, so each row of a table is one line. -/
theorem Model.reference_lines {key : String} {value : Json} {table : Table}
    (h : Model.load key value = .ok table) {settings : Settings} {o : Options}
    (ho : Options.resolve settings = .ok o) :
    ∃ plan, Codec.Plan.of table = .ok plan ∧ ∃ tree,
      Reference.build plan o.discriminatorKey o.title = tree
        ∧ tree.lines.length = tree.height
        ∧ (Text.lines (Reference.Markdown.render tree)).length
          = tree.height + totalFeeds (table.verbatim o.title)
        ∧ (Text.lines (Reference.Markdown.render tree) = tree.lines
          ↔ ∀ s ∈ table.verbatim o.title, IsLine s) := by
  obtain ⟨document, -, hclean, hid, rfl⟩ := Model.clean_of_load h
  have hlinked := hclean.linked_table hid
  obtain ⟨plan, hplan⟩ := hlinked.sound.exists_plan
  have hbroken := Reference.broken_texts_build hlinked (fun _ hs => hclean.isLine_of_mem_inlines hs)
    (Name.isLine_of_isIdentifier hid.1) (Codec.Plan.plans_of_eq_ok hplan)
    (Options.isLine_discriminatorKey ho) o.title
  have hheight := Reference.height_build_pos plan o.discriminatorKey o.title
  refine ⟨plan, hplan, _, rfl, Reference.Markdown.length_lines _, ?_, ?_⟩
  · rw [Reference.Markdown.length_lines_render hheight, ← totalFeeds_broken, hbroken,
      totalFeeds_broken]
  · rw [Reference.Markdown.lines_render_iff hheight, ← broken_eq_nil_iff, hbroken,
      broken_eq_nil_iff]

/-- A version and a value of a literal that have two lines. -/
def captions : Json :=
  .object [("name", .text "captions"), ("version", .text "1\n2"), ("types", .array [
    .object [("kind", .text "enumeration"), ("name", .text "caption"), ("literals", .array [
      .object [("name", .text "plain"), ("value", .text "first")],
      .object [("name", .text "broken"), ("value", .text "first\nsecond")]])]])]

/-- Under a title that has two lines, too. -/
theorem captions_lines : ∃ table plan tree, Model.load "modelType" captions = .ok table
    ∧ Options.resolve { title := some "Captions\nof signs" }
      = .ok { title := some "Captions\nof signs" }
    ∧ Codec.Plan.of table = .ok plan
    ∧ Reference.build plan "modelType" (some "Captions\nof signs") = tree
    ∧ tree.height = 15 ∧ (Text.lines (Reference.Markdown.render tree)).length = 18
    ∧ Text.lines (Reference.Markdown.render tree) ≠ tree.lines := by
  have hresolve := Options.resolve_title (some "Captions\nof signs")
  have hfacts : (Model.load "modelType" captions).toOption.bind (fun t =>
      (Codec.Plan.of t).toOption.map fun plan =>
        decide ((Reference.build plan "modelType" (some "Captions\nof signs")).height = 15
          ∧ totalFeeds (plan.table.verbatim (some "Captions\nof signs")) = 3)) = some true := by
    decide +kernel
  obtain ⟨table, plan, hload, hplan, hfacts⟩ := Model.exists_plan_of_eq_some hfacts
  obtain ⟨other, hother, tree, rfl, -, hlength, hlines⟩ := Model.reference_lines hload hresolve
  cases hplan.symm.trans hother
  rw [(Codec.Plan.plans_of_eq_ok hplan).table_eq] at hfacts
  obtain ⟨hheight, hfeeds⟩ := of_decide_eq_true hfacts
  rw [hheight, hfeeds] at hlength
  refine ⟨table, plan, _, hload, hresolve, hplan, rfl, hheight, hlength, ?_⟩
  rw [Ne, hlines, ← totalFeeds_eq_zero_iff, hfeeds]
  decide

/-- The value that has two lines breaks the row of its literal, so that the row is no line of the
reference. -/
theorem captions_row_broken : ∃ table plan tree, Model.load "modelType" captions = .ok table
    ∧ Options.resolve {} = .ok {} ∧ Codec.Plan.of table = .ok plan
    ∧ Reference.build plan "modelType" none = tree
    ∧ (Text.lines (Reference.Markdown.render tree)).length ≠ tree.height
    ∧ "| `broken` | `first\nsecond` | — |" ∈ tree.lines
    ∧ "| `broken` | `first\nsecond` | — |" ∉ Text.lines (Reference.Markdown.render tree) := by
  have hfacts : (Model.load "modelType" captions).toOption.bind (fun t =>
      (Codec.Plan.of t).toOption.map fun plan =>
        let tree := Reference.build plan "modelType" none
        decide (totalFeeds tree.texts = 2 ∧ "| `broken` | `first\nsecond` | — |" ∈ tree.lines))
      = some true := by
    decide +kernel
  obtain ⟨table, plan, hload, hplan, hfacts⟩ := Model.exists_plan_of_eq_some hfacts
  obtain ⟨hfeeds, hrow⟩ := of_decide_eq_true hfacts
  refine ⟨table, plan, _, hload, Options.resolve_title none, hplan, rfl, ?_, hrow, ?_⟩
  · rw [Reference.Markdown.length_lines_render (Reference.height_build_pos _ _ _), hfeeds]
    omega
  · intro hline
    exact not_mem_of_mem_lines hline (by decide)

end WireModel
