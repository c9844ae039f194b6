import WireModel.Emission.Target
import WireModel.Proofs.Closure
import WireModel.Proofs.Planning

/-!
# Links of the reference

The reference of a model is a tree of blocks, in which links lead to anchors: those of headings,
and those of targets in the rows of properties. Links are made wherever a name is met, and anchors
where the type or the property of that name is described.

* **`Name.isAnchor_anchor`**: an anchor holds letters from `a` to `z`, digits and hyphens, whatever
  text it is made from.
* **`Reference.sound_of_mem_build`**: every link of the tree leads to a type or a property of the
  table, because the table is closed.
* **`Reference.mem_anchors_build`**: the anchor of every type and of every property is set.
* **`Model.reference_linked`**: so every link leads to an anchor of the same tree.
-/

namespace WireModel

/-! ## Anchors -/

namespace Name

/-- A text of letters from `a` to `z`, digits and hyphens. -/
def IsAnchor (s : String) : Prop :=
  ∀ c ∈ s.toList, ('a' ≤ c ∧ c ≤ 'z') ∨ ('0' ≤ c ∧ c ≤ '9') ∨ c = '-'

theorem isAnchor_iff {s : String} : IsAnchor s ↔ s.toList.all isAnchorChar = true := by
  simp [IsAnchor, isAnchorChar, Text.isLower, Text.isDigit, or_assoc]

theorem isAnchorChar_of_mem_hyphenate {inRun : Bool} {cs : List Char} {c : Char}
    (h : c ∈ hyphenate inRun cs) : isAnchorChar c = true := by
  fun_induction hyphenate inRun cs with
  | case1 => cases h
  | case2 inRun d rest hd ih =>
    rcases List.mem_cons.mp h with rfl | h
    · exact hd
    · exact ih h
  | case3 d rest hd ih => exact ih h
  | case4 inRun d rest hd hrun ih =>
    rcases List.mem_cons.mp h with rfl | h
    · rfl
    · exact ih h

theorem stripHyphens_subset (cs : List Char) : stripHyphens cs ⊆ cs := by
  intro c hc
  have hback := (List.dropWhile_sublist _).subset (List.mem_reverse.mp hc)
  exact (List.dropWhile_sublist _).subset (List.mem_reverse.mp hback)

/-- **What a name becomes as an anchor.** -/
theorem isAnchor_anchor (parts : List String) : IsAnchor (anchor parts) := by
  rw [isAnchor_iff, anchor, String.toList_ofList, List.all_eq_true]
  intro c hc
  exact isAnchorChar_of_mem_hyphenate (stripHyphens_subset _ hc)

theorem IsAnchor.append {s t : String} (hs : IsAnchor s) (ht : IsAnchor t) : IsAnchor (s ++ t) := by
  intro c hc
  rw [String.toList_append] at hc
  exact (List.mem_append.mp hc).elim (hs c) (ht c)

end Name

/-- The descriptions of a table and of its entries. -/
def Table.descriptions (t : Table) : List (Option Description) :=
  t.description :: t.types.flatMap NamedType.descriptions

theorem Table.mem_descriptions {t : Table} {s : NamedType} (hs : s ∈ t.types)
    {d : Option Description} (hd : d ∈ s.descriptions) : d ∈ t.descriptions :=
  List.mem_cons_of_mem _ (List.mem_flatMap.mpr ⟨s, hs, hd⟩)

namespace Reference

/-- Nothing in an anchor has a meaning in running text. -/
theorem Markdown.escape_of_isAnchor {s : String} (h : Name.IsAnchor s) : Markdown.escape s = s := by
  have hplain : ∀ c, Name.isAnchorChar c = true → isSpecial c = false := by
    intro c hc
    rw [Name.isAnchorChar, Bool.or_eq_true, beq_iff_eq] at hc
    rcases hc with hword | rfl
    · have halpha : Text.isAlphanumeric c = true := by
        rw [Text.isAlphanumeric, Text.isLetter]
        grind
      exact Text.of_forall_ascii (P := fun c => isSpecial c = false) (by decide) halpha
    · decide
  have hkept : (s.toList.flatMap fun c => if isSpecial c then ['\\', c] else [c])
      = s.toList.flatMap fun c => [c] := by
    refine List.flatMap_congr fun c hc => ?_
    rw [hplain c (List.all_eq_true.mp (Name.isAnchor_iff.mp h) c hc)]
    rfl
  rw [escape, hkept, List.flatMap_singleton', String.ofList_toList]

/-! ## Links and anchors of a tree -/

/-- The anchor that a piece of text leads to. -/
def Span.link? : Span → Option String
  | .link _ anchor _ => some anchor
  | _ => none

/-- The anchor that a piece of text sets. -/
def Span.target? : Span → Option String
  | .target anchor => some anchor
  | _ => none

namespace Block

/-- The running text of a block: of a paragraph, of the items of a list, or of the cells of a
table. -/
def spans : Block → Spans
  | .heading _ _ _ => []
  | .paragraph content => content
  | .list items => items.flatten
  | .table _ rows => rows.flatten.flatten

/-- The anchor of a heading. -/
def heading? : Block → Option String
  | .heading _ _ anchor => some anchor
  | _ => none

end Block

namespace Tree

/-- The anchors that the links of a tree lead to. -/
def links (tree : Tree) : List String :=
  tree.blocks.flatMap fun b => b.spans.filterMap Span.link?

/-- The anchors of the headings and of the targets of a tree. -/
def anchors (tree : Tree) : List String :=
  tree.blocks.flatMap fun b => b.heading?.toList ++ b.spans.filterMap Span.target?

end Tree

/-- The anchors of the types of a table and of the properties that their classes declare. -/
inductive Anchored (t : Table) : String → Prop where
  | type {name : String} {s : NamedType} (h : t.find? name = some s) :
      Anchored t (Name.anchor [name])
  | property {c : Class} {p : Property} (h : t.find? p.declaredBy = some (.classType c))
      (hp : p ∈ c.properties) : Anchored t (propertyAnchor p.declaredBy p.name)

/-- A link leads to a type or a property, and a target is well formed. -/
def Span.Sound (t : Table) : Span → Prop
  | .link _ anchor _ => Anchored t anchor
  | .target anchor => Name.IsAnchor anchor
  | .text _ | .code _ => True

structure Block.Sound (t : Table) (b : Block) : Prop where
  heading : ∀ anchor ∈ b.heading?, Name.IsAnchor anchor
  spans : ∀ s ∈ b.spans, s.Sound t

/-! ## Links lead to the table -/

namespace Block

variable {t : Table}

theorem sound_heading {level : Nat} {text anchor : String} (h : Name.IsAnchor anchor) :
    (Block.heading level text anchor).Sound t :=
  ⟨by rintro _ ⟨⟩; exact h, nofun⟩

theorem sound_paragraph {content : Spans} (h : ∀ s ∈ content, s.Sound t) :
    (Block.paragraph content).Sound t :=
  ⟨nofun, h⟩

theorem sound_list {items : List Spans} (h : ∀ item ∈ items, ∀ s ∈ item, s.Sound t) :
    (Block.list items).Sound t := by
  refine ⟨nofun, fun s hs => ?_⟩
  obtain ⟨item, hitem, hs⟩ := List.mem_flatten.mp hs
  exact h item hitem s hs

theorem sound_table {header : List String} {rows : List (List Spans)}
    (h : ∀ row ∈ rows, ∀ cell ∈ row, ∀ s ∈ cell, s.Sound t) :
    (Block.table header rows).Sound t := by
  refine ⟨nofun, fun s hs => ?_⟩
  obtain ⟨cell, hcell, hs⟩ := List.mem_flatten.mp hs
  obtain ⟨row, hrow, hcell⟩ := List.mem_flatten.mp hcell
  exact h row hrow cell hcell s hs

end Block

theorem isAnchor_sectionAnchor (className : String) {part : String} (h : Name.IsAnchor part) :
    Name.IsAnchor (sectionAnchor className part) := by
  have hmark : Name.IsAnchor "--" := Name.isAnchor_iff.mpr (by decide)
  exact ((Name.isAnchor_anchor [className]).append hmark).append h

theorem sound_titled {t : Table} (level : Nat) (title : String) : (heading level title).Sound t :=
  Block.sound_heading (Name.isAnchor_anchor [title])

section Pieces

variable {t : Table}

theorem sound_typeLinks {names : List String} (h : ∀ name ∈ names, t.HasClass name) :
    ∀ s ∈ typeLinks names, s.Sound t := by
  have hlinks : ∀ s ∈ names.map typeLink, s.Sound t := by
    rw [List.forall_mem_map]
    intro name hname
    obtain ⟨c, hc⟩ := h name hname
    exact .type hc
  intro s hs
  rcases mem_of_mem_intersperse hs with rfl | hs
  · trivial
  · exact hlinks s hs

theorem sound_relatives (lead : String) {names : List String}
    (h : ∀ name ∈ names, t.HasClass name) : ∀ b ∈ relatives lead names, b.Sound t := by
  unfold relatives
  split
  · nofun
  · rw [List.forall_mem_singleton]
    refine Block.sound_paragraph ?_
    simp only [List.forall_mem_append, List.forall_mem_singleton]
    exact ⟨⟨trivial, sound_typeLinks h⟩, trivial⟩

theorem sound_ofField {type : FieldType Atom} (h : t.Links type) :
    ∀ s ∈ ofField type, s.Sound t := by
  have hitem : (ofAtom type.item).Sound t := by
    cases hatom : type.item with
    | primitive kind => trivial
    | named name =>
      obtain ⟨s, hs⟩ := h name (by simp [FieldType.names, hatom, Atom.names])
      exact .type hs
  have hbody : ∀ s ∈ (if type.isList then [.text "List["] ++ [ofAtom type.item] ++ [.text "]"]
      else [ofAtom type.item]), s.Sound t := by
    split
    · simpa [Span.Sound] using hitem
    · simpa using hitem
  unfold ofField
  dsimp only
  split
  · rw [List.forall_mem_append, List.forall_mem_append]
    exact ⟨⟨by simp [Span.Sound], hbody⟩, by simp [Span.Sound]⟩
  · exact hbody

theorem sound_argumentSpans {a : Argument} (hlinks : t.Links a.type) (hsupplies : t.Supplies a) :
    ∀ s ∈ argumentSpans a, s.Sound t := by
  have hdefault : ∀ d, a.default = some d → (ofDefault d).Sound t := by
    intro d hd
    cases d with
    | bool | number | text => trivial
    | literal enumeration literal =>
      obtain ⟨-, e, he, -⟩ := hsupplies enumeration literal hd
      exact .type he
  unfold argumentSpans
  rw [List.forall_mem_append, List.forall_mem_append]
  refine ⟨⟨by simp [Span.Sound], sound_ofField hlinks⟩, ?_⟩
  split
  · next d hd => simpa [Span.Sound] using hdefault d hd
  · nofun

theorem sound_constructorBlocks {c : Class}
    (h : ∀ a ∈ c.arguments, t.Links a.type ∧ t.Supplies a) :
    ∀ b ∈ constructorBlocks c, b.Sound t := by
  have hpart : Name.IsAnchor "constructor" := Name.isAnchor_iff.mpr (by decide)
  unfold constructorBlocks
  split
  · nofun
  · rw [List.forall_mem_cons, List.forall_mem_singleton]
    refine ⟨Block.sound_heading (isAnchor_sectionAnchor c.name hpart), Block.sound_list ?_⟩
    rw [List.forall_mem_map]
    exact fun a ha => sound_argumentSpans (h a ha).1 (h a ha).2

theorem sound_discriminatorBlocks (key : String) (c : Codec.ClassPlan) :
    ∀ b ∈ discriminatorBlocks key c, b.Sound t := by
  unfold discriminatorBlocks
  split
  · rw [List.forall_mem_singleton]
    exact Block.sound_paragraph (by simp [Span.Sound])
  · nofun

theorem sound_kindSpans (kind : ClassKind) : ∀ s ∈ kindSpans kind, s.Sound t := by
  unfold kindSpans
  split <;> simp [Span.Sound]

end Pieces

section Closed

variable {t : Table} (h : t.Closed)
include h

theorem sound_ofInline {inline : Inline} (hinline : t.Refers inline) :
    (ofInline inline).Sound t := by
  cases hinline with
  | text s => trivial
  | typeRef hs => exact .type hs
  | @propertyRef owner c p hc hp =>
    -- the link leads to the class that declares the property, which may be an ancestor
    have hmem : c ∈ t.classes := Table.mem_classes.mpr (List.mem_of_find?_eq_some hc)
    obtain ⟨a, ha, hpa⟩ := (h.classes c hmem).declared p hp
    exact .property ha hpa

theorem sound_of_mem_paragraphs {d : Description}
    (hd : some d ∈ t.descriptions) {p : Paragraph}
    (hp : p ∈ d.paragraphs) : ∀ s ∈ p.map ofInline, s.Sound t := by
  rw [List.forall_mem_map]
  intro inline hinline
  refine sound_ofInline h (h.inlines inline (List.mem_flatMap.mpr ⟨some d, hd, ?_⟩))
  simpa using ⟨p, hp, hinline⟩

theorem sound_descriptionBlocks {description : Option Description}
    (hd : description ∈ t.descriptions) :
    ∀ b ∈ descriptionBlocks description, b.Sound t := by
  cases description with
  | none => nofun
  | some d =>
    rw [descriptionBlocks, List.forall_mem_map]
    exact fun p hp => Block.sound_paragraph (sound_of_mem_paragraphs h hd hp)

theorem sound_summaryOf {description : Option Description}
    (hd : description ∈ t.descriptions) :
    ∀ s ∈ summaryOf description, s.Sound t := by
  cases description with
  | none => nofun
  | some d => exact sound_of_mem_paragraphs h hd List.mem_cons_self

theorem sound_enumerationBlocks {e : Enumeration} (he : .enumeration e ∈ t.types) :
    ∀ b ∈ enumerationBlocks e, b.Sound t := by
  have hdescription : e.description ∈ t.descriptions := Table.mem_descriptions he List.mem_cons_self
  unfold enumerationBlocks
  simp only [List.forall_mem_append, List.forall_mem_singleton]
  refine ⟨⟨sound_titled 3 e.name, sound_descriptionBlocks h hdescription⟩, Block.sound_table ?_⟩
  rw [List.forall_mem_map]
  intro l hl
  have hliteral : l.description ∈ t.descriptions :=
    Table.mem_descriptions he (List.mem_cons_of_mem _ (List.mem_map_of_mem hl))
  simpa [Span.Sound] using sound_summaryOf h hliteral

theorem sound_constrainedBlocks {c : Constrained} (hc : .constrained c ∈ t.types) :
    ∀ b ∈ constrainedBlocks c, b.Sound t := by
  have hdescription : c.description ∈ t.descriptions := Table.mem_descriptions hc List.mem_cons_self
  unfold constrainedBlocks
  rw [List.forall_mem_append, List.forall_mem_cons, List.forall_mem_singleton]
  exact ⟨⟨sound_titled 3 c.name, Block.sound_paragraph (by simp [Span.Sound])⟩,
    sound_descriptionBlocks h hdescription⟩

theorem sound_propertyRow {c : Class} (hc : c ∈ t.classes) (className : String) {m : Codec.Member}
    (hm : m.property ∈ c.properties) :
    ∀ cell ∈ propertyRow className m, ∀ s ∈ cell, s.Sound t := by
  have hclosed := h.classes c hc
  obtain ⟨a, ha, -⟩ := hclosed.declared m.property hm
  have hdescription : m.property.description ∈ t.descriptions :=
    Table.mem_descriptions (Table.mem_classes.mp hc)
      (List.mem_cons_of_mem _ (List.mem_map_of_mem hm))
  have hname : ∀ s ∈ (if m.property.declaredBy = className then
      [.target (propertyAnchor m.property.declaredBy m.property.name), .code m.property.name]
      else [.code m.property.name, .text " (from ", typeLink m.property.declaredBy, .text ")"]),
      s.Sound t := by
    -- a property of the class itself sets an anchor, an inherited one leads to its class
    split
    · simpa [Span.Sound, propertyAnchor] using
        Name.isAnchor_anchor [m.property.declaredBy, m.property.name]
    · simpa [Span.Sound, typeLink] using Anchored.type ha
  unfold propertyRow
  dsimp only
  simp only [List.forall_mem_cons]
  exact ⟨hname, by simp [Span.Sound], sound_ofField (hclosed.properties m.property hm),
    sound_summaryOf h hdescription, nofun⟩

theorem sound_propertyBlocks {c : Class} (hc : c ∈ t.classes) {p : Codec.ClassPlan}
    (hp : p.Plans t c) : ∀ b ∈ propertyBlocks p, b.Sound t := by
  have hpart : Name.IsAnchor "properties" := Name.isAnchor_iff.mpr (by decide)
  unfold propertyBlocks
  split
  · nofun
  · rw [List.forall_mem_cons, List.forall_mem_singleton]
    refine ⟨Block.sound_heading (isAnchor_sectionAnchor p.name hpart), Block.sound_table ?_⟩
    rw [List.forall_mem_map]
    intro m hm
    obtain ⟨q, hq, hplans⟩ := exists_of_mem_forall₂ hp.members.flip hm
    exact sound_propertyRow h hc p.name (hplans.property_eq ▸ hq)

theorem sound_classBlocks (key : String) {c : Class} (hc : c ∈ t.classes) {p : Codec.ClassPlan}
    (hp : p.Plans t c) : ∀ b ∈ classBlocks key p, b.Sound t := by
  have hclosed := h.classes c hc
  have hdescription : c.description ∈ t.descriptions :=
    Table.mem_descriptions (Table.mem_classes.mp hc) List.mem_cons_self
  unfold classBlocks
  simp only [List.forall_mem_append, List.forall_mem_cons, hp.type_eq]
  exact ⟨⟨⟨⟨⟨⟨⟨sound_titled 3 p.name, Block.sound_paragraph (sound_kindSpans c.kind), nofun⟩,
    sound_relatives _ hclosed.parents⟩, sound_relatives _ hclosed.descendants⟩,
    sound_discriminatorBlocks key p⟩, sound_descriptionBlocks h hdescription⟩,
    sound_propertyBlocks h hc hp⟩, sound_constructorBlocks hclosed.arguments⟩

end Closed

/-! ## The whole tree -/

/-- The blocks of a type. -/
def typeBlocks (key : String) : Codec.TypePlan → List Block
  | .enumeration e => enumerationBlocks e.type
  | .constrained c => constrainedBlocks c
  | .classType c => classBlocks key c

section Build

variable {plan : Codec.Plan} {key : String} {title : Option String}

theorem mem_sectionBlocks {heading : String} {content : List Block} {b : Block}
    (h : b ∈ content) : b ∈ sectionBlocks heading content := by
  rw [sectionBlocks, if_neg (by simpa using List.ne_nil_of_mem h)]
  exact List.mem_cons_of_mem _ h

/-- The blocks of every type are in the tree. -/
theorem mem_build {type : Codec.TypePlan} (htype : type ∈ plan.types) {b : Block}
    (hb : b ∈ typeBlocks key type) : b ∈ (build plan key title).blocks := by
  cases type with
  | enumeration e =>
    have hsection : b ∈ enumerationsOf plan := List.mem_flatMap.mpr ⟨_, htype, hb⟩
    simp [build, mem_sectionBlocks hsection]
  | constrained c =>
    have hsection : b ∈ constrainedOf plan := List.mem_flatMap.mpr ⟨_, htype, hb⟩
    simp [build, mem_sectionBlocks hsection]
  | classType c =>
    have hsection : b ∈ classesOf plan key := List.mem_flatMap.mpr ⟨_, htype, hb⟩
    simp [build, mem_sectionBlocks hsection]

theorem sound_sectionBlocks {t : Table} {heading : String} {content : List Block}
    (h : ∀ b ∈ content, b.Sound t) : ∀ b ∈ sectionBlocks heading content, b.Sound t := by
  unfold sectionBlocks
  split
  · nofun
  · rw [List.forall_mem_cons]
    exact ⟨sound_titled 2 heading, h⟩

theorem sound_typeBlocks {t : Table} (h : t.Closed) {s : NamedType} (hs : s ∈ t.types)
    {type : Codec.TypePlan} (htype : type.Plans t s) : ∀ b ∈ typeBlocks key type, b.Sound t := by
  cases htype with
  | enumeration e => exact sound_enumerationBlocks h hs
  | constrained c => exact sound_constrainedBlocks h hs
  | classType hp => exact sound_classBlocks h key (Table.mem_classes.mpr hs) hp

/-- **Every block of the tree is sound.** -/
theorem sound_of_mem_build {t : Table} (h : t.Closed) (hplan : plan.Plans t) :
    ∀ b ∈ (build plan key title).blocks, b.Sound t := by
  have htypes : ∀ type ∈ plan.types, ∀ b ∈ typeBlocks key type, b.Sound t := by
    intro type htype
    obtain ⟨s, hs, hplans⟩ := exists_of_mem_forall₂ hplan.types.flip htype
    exact sound_typeBlocks h hs hplans
  have henumerations : ∀ b ∈ enumerationsOf plan, b.Sound t := by
    rw [enumerationsOf, List.forall_mem_flatMap]
    intro type htype
    cases type with
    | enumeration e => exact htypes _ htype
    | constrained | classType => nofun
  have hconstrained : ∀ b ∈ constrainedOf plan, b.Sound t := by
    rw [constrainedOf, List.forall_mem_flatMap]
    intro type htype
    cases type with
    | constrained c => exact htypes _ htype
    | enumeration | classType => nofun
  have hclasses : ∀ b ∈ classesOf plan key, b.Sound t := by
    rw [classesOf, List.forall_mem_flatMap]
    intro type htype
    cases type with
    | classType c => exact htypes _ htype
    | enumeration | constrained => nofun
  have hdescription : plan.table.description ∈ t.descriptions := by
    rw [hplan.table_eq]
    exact List.mem_cons_self
  unfold build
  dsimp only
  simp only [List.forall_mem_append, List.forall_mem_singleton]
  refine ⟨⟨⟨⟨⟨sound_titled 1 _, ?_⟩, sound_descriptionBlocks h hdescription⟩,
    sound_sectionBlocks henumerations⟩, sound_sectionBlocks hconstrained⟩,
    sound_sectionBlocks hclasses⟩
  split
  · rw [List.forall_mem_singleton]
    exact Block.sound_paragraph (by simp [Span.Sound])
  · nofun

theorem heading_mem_typeBlocks {t : Table} {s : NamedType} {type : Codec.TypePlan}
    (h : type.Plans t s) : heading 3 s.name ∈ typeBlocks key type := by
  cases h with
  | enumeration e => simp [typeBlocks, enumerationBlocks, NamedType.name]
  | constrained c => simp [typeBlocks, constrainedBlocks, NamedType.name]
  | classType hp =>
    simp [typeBlocks, classBlocks, NamedType.name, Codec.ClassPlan.name, hp.type_eq]

/-- The row of a property in the class that declares it sets the anchor of the property. -/
theorem exists_target {t : Table} {c : Class} {q : Codec.ClassPlan} (hq : q.Plans t c)
    {p : Property} (hp : p ∈ c.properties) (hname : p.declaredBy = c.name) :
    ∃ b ∈ classBlocks key q, .target (propertyAnchor p.declaredBy p.name) ∈ b.spans := by
  obtain ⟨m, hm, hplans⟩ := exists_of_mem_forall₂ hq.members hp
  have hown : m.property.declaredBy = q.name := by
    rw [hplans.property_eq, hname, Codec.ClassPlan.name, hq.type_eq]
  have hmembers : q.members.isEmpty = false := by simpa using List.ne_nil_of_mem hm
  refine ⟨.table ["Property", "JSON", "Type", "Description"] (q.members.map (propertyRow q.name)),
    ?_, ?_⟩
  · simp [classBlocks, propertyBlocks, hmembers]
  · refine List.mem_flatten.mpr ⟨_, List.mem_flatten.mpr ⟨propertyRow q.name m,
      List.mem_map_of_mem hm, List.mem_cons_self⟩, ?_⟩
    rw [if_pos hown, hplans.property_eq]
    exact List.mem_cons_self

/-- **The anchor of every type and of every property is set.** -/
theorem mem_anchors_build {t : Table} (hplan : plan.Plans t) {anchor : String}
    (h : Anchored t anchor) : anchor ∈ (build plan key title).anchors := by
  cases h with
  | @type name s hs =>
    obtain ⟨type, htype, hplans⟩ := exists_of_mem_forall₂ hplan.types (List.mem_of_find?_eq_some hs)
    have hname : s.name = name := by simpa using List.find?_some hs
    refine List.mem_flatMap.mpr ⟨_, mem_build htype (heading_mem_typeBlocks hplans), ?_⟩
    simp [heading, Block.heading?, hname]
  | @property c p hc hp =>
    obtain ⟨type, htype, hplans⟩ := exists_of_mem_forall₂ hplan.types (List.mem_of_find?_eq_some hc)
    -- the class was found under the name of the declaring one, so its row is the one that sets it
    have hname : c.name = p.declaredBy := by simpa [NamedType.name] using List.find?_some hc
    cases hplans with
    | classType hq =>
      obtain ⟨b, hb, htarget⟩ := exists_target hq hp hname.symm
      refine List.mem_flatMap.mpr ⟨b, mem_build htype hb, ?_⟩
      exact List.mem_append_right _ (List.mem_filterMap.mpr ⟨_, htarget, rfl⟩)

end Build

end Reference

/-- The anchors of sound blocks are well formed. -/
theorem Reference.isAnchor_of_sound {t : Table} {tree : Tree} (h : ∀ b ∈ tree.blocks, b.Sound t)
    {anchor : String} (hanchor : anchor ∈ tree.anchors) : Name.IsAnchor anchor := by
  obtain ⟨b, hb, hmem⟩ := List.mem_flatMap.mp hanchor
  rcases List.mem_append.mp hmem with hheading | htarget
  · exact (h b hb).heading anchor (Option.mem_toList.mp hheading)
  · obtain ⟨s, hs, htarget⟩ := List.mem_filterMap.mp htarget
    have hsound := (h b hb).spans s hs
    cases s with
    | target other =>
      cases htarget
      exact hsound
    | text | code | link => cases htarget

theorem Reference.anchored_of_sound {t : Table} {tree : Tree} (h : ∀ b ∈ tree.blocks, b.Sound t)
    {anchor : String} (hlink : anchor ∈ tree.links) : Anchored t anchor := by
  obtain ⟨b, hb, hmem⟩ := List.mem_flatMap.mp hlink
  obtain ⟨s, hs, hlink⟩ := List.mem_filterMap.mp hmem
  have hsound := (h b hb).spans s hs
  cases s with
  | link text other isCode =>
    cases hlink
    exact hsound
  | text | code | target => cases hlink

/-- **Every link of the reference resolves**: its anchor is that of a heading or of a target of the
same tree. And every anchor, whatever the title is, holds letters from `a` to `z`, digits and
hyphens only, so that it can be written as it is. -/
theorem Model.reference_linked {key : String} {value : Json} {table : Table}
    (h : Model.load key value = .ok table) :
    ∃ plan, Codec.Plan.of table = .ok plan ∧ ∀ (discriminator : String) (title : Option String),
      (Reference.build plan discriminator title).links
          ⊆ (Reference.build plan discriminator title).anchors
        ∧ ∀ anchor ∈ (Reference.build plan discriminator title).links
            ++ (Reference.build plan discriminator title).anchors,
          Name.IsAnchor anchor ∧ Reference.Markdown.escape anchor = anchor := by
  obtain ⟨document, -, hclean, -, rfl⟩ := Model.clean_of_load h
  obtain ⟨plan, hplan⟩ := (Model.sound_of_load h).exists_plan
  have hplans := Codec.Plan.plans_of_eq_ok hplan
  refine ⟨plan, hplan, fun discriminator title => ?_⟩
  have hsound : ∀ b ∈ (Reference.build plan discriminator title).blocks, b.Sound document.table :=
    Reference.sound_of_mem_build hclean.closed_table hplans
  have hlinked : (Reference.build plan discriminator title).links
      ⊆ (Reference.build plan discriminator title).anchors := fun anchor hanchor =>
    Reference.mem_anchors_build hplans (Reference.anchored_of_sound hsound hanchor)
  refine ⟨hlinked, fun anchor hanchor => ?_⟩
  have hset : anchor ∈ (Reference.build plan discriminator title).anchors :=
    (List.mem_append.mp hanchor).elim (fun hlink => hlinked hlink) id
  have hform := Reference.isAnchor_of_sound hsound hset
  exact ⟨hform, Reference.Markdown.escape_of_isAnchor hform⟩

/-- The reference of the shelves, under a title that has little in common with an anchor. The link
to the label of an item is in the description of the books, and its target among the items. -/
theorem shelves_linked : ∃ table plan tree, Model.load "modelType" shelves = .ok table
    ∧ Codec.Plan.of table = .ok plan
    ∧ Reference.build plan "modelType" (some "**Shelves** <& Books>") = tree
    ∧ "item-label" ∈ tree.links ∧ tree.links ⊆ tree.anchors ∧ "shelves-books" ∈ tree.anchors := by
  have hfacts : (Model.load "modelType" shelves).toOption.bind (fun t =>
      (Codec.Plan.of t).toOption.map fun plan =>
        let tree := Reference.build plan "modelType" (some "**Shelves** <& Books>")
        tree.links.contains "item-label" && tree.anchors.contains "shelves-books") = some true := by
    decide +kernel
  obtain ⟨table, plan, hload, hplan, hfacts⟩ := Model.exists_plan_of_eq_some hfacts
  obtain ⟨other, hother, hlinked⟩ := Model.reference_linked hload
  cases hplan.symm.trans hother
  simp only [Bool.and_eq_true, List.contains_iff_mem] at hfacts
  exact ⟨table, plan, _, hload, hplan, rfl, hfacts.1, (hlinked _ _).1, hfacts.2⟩

end WireModel
