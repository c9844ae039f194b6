import WireModel.Proofs.TypeTexts

/-!
# Types by their names

A field has a type of the model if its text is the name of the type, as such or within `List[...]`
or `Optional[...]`. Three places decide what a name means there, and each has its own list of names
that are special: the identifiers that types may have, the names that types may not have, and the
words of the syntax. A type may have a name that is a word of the syntax; no field can have that
type then.

* `Document.Writes` ties a field of the table to the text that the document has for it: that of
  the declaration that a property goes back to, that of an argument, or that of the property which
  an argument is made from.
* **`Model.names_read`**: of the declared types, exactly those can be referred to whose name is no
  word of the syntax. A text with the name of another one is read as a primitive, without a
  problem, or it is refused.
-/

namespace WireModel

/-! ## Names in texts -/

theorem Name.isPlain_of_isIdentifier {name : String} (h : isIdentifier name = true) :
    isPlain name = true := by
  obtain ⟨first, rest, hname⟩ := List.exists_cons_of_ne_nil (show name.toList ≠ [] by
    intro hnil
    simp [isIdentifier, hnil] at h)
  have hchars : ∀ c ∈ first :: rest, isPlainChar c = true := fun c hc =>
    isPlainChar_of_isIdentifier h (hname ▸ hc)
  refine isPlain_iff.mpr ⟨first, rest, hname, ?_, (List.forall_mem_cons.mp hchars).2⟩
  have hletter : Text.isLetter first = true := by
    simp only [isIdentifier, hname, Bool.and_eq_true] at h
    exact h.1
  rw [isPlainStart, hletter, Bool.true_or]

namespace FieldType

theorem heads_inj {a b : FieldType Atom} (h : a.heads = b.heads) :
    a.isOptional = b.isOptional ∧ a.isList = b.isList ∧ a.item.text = b.item.text := by
  obtain ⟨isOptional, isList, item⟩ := a
  obtain ⟨isOptional', isList', item'⟩ := b
  -- the names before the item tell the four kinds of types apart
  cases isOptional <;> cases isList <;> cases isOptional' <;> cases isList' <;> simp_all [heads]

/-- A text that consists of the tokens of a type is read as a type with the same marks and an item
of the same name, if it is read at all. -/
theorem marks_eq_of_parse {text : String} {a b : FieldType Atom} (h : parse text = .ok a)
    (hplain : Name.isPlain b.item.text = true) (hb : Term.Spaced b.tokens text.toList) :
    a.isOptional = b.isOptional ∧ a.isList = b.isList ∧ a.item.text = b.item.text := by
  obtain ⟨hproper, ha⟩ := parse_eq_ok_iff.mp h
  obtain ⟨t, hterm, hnames⟩ := exists_term_iff.mpr ⟨hproper.isPlain_text, ha⟩
  obtain ⟨t', hterm', hnames'⟩ := exists_term_iff.mpr ⟨hplain, hb⟩
  -- a text is read as one term
  obtain rfl := Except.ok.inj (hterm.symm.trans hterm')
  exact heads_inj (hnames.symm.trans hnames')

/-- What a text with the name of a declared type is read as, if it is read at all. -/
theorem eq_of_spells_name {types : List TypeDecl} {text name : String} {type : FieldType Atom}
    (h : Spells types text type) (hname : Name.isPlain name = true) {isOptional isList : Bool}
    (hspaced : Term.Spaced (mk isOptional isList (Atom.named name)).tokens text.toList) :
    (type = ⟨isOptional, isList, .named name⟩ ↔ ∀ kind : Primitive, kind.name ≠ name)
      ∧ ∀ kind : Primitive, kind.name = name → type = ⟨isOptional, isList, .primitive kind⟩ := by
  obtain ⟨hoptional, hlist, htext⟩ :=
    marks_eq_of_parse (b := ⟨isOptional, isList, .named name⟩) h.1 hname hspaced
  obtain ⟨hproper, -⟩ := parse_eq_ok_iff.mp h.1
  obtain ⟨_, _, item⟩ := type
  obtain rfl : _ = isOptional := hoptional
  obtain rfl : _ = isList := hlist
  cases item with
  | primitive kind =>
    obtain rfl : kind.name = name := htext
    refine ⟨⟨nofun, fun hall => absurd rfl (hall kind)⟩, fun other hother => ?_⟩
    have hkind := Primitive.ofName?_eq_some_iff.mpr hother
    rw [Primitive.ofName?_name] at hkind
    rw [Option.some.inj hkind]
  | named other =>
    obtain rfl : other = name := htext
    have hfree := hproper.2.2.2
    exact ⟨⟨fun _ => hfree, fun _ => rfl⟩, fun kind hkind => absurd hkind (hfree kind)⟩

/-- A declared type is what a text with its name is read as iff its name can be written. -/
theorem resolve_name_iff {types : List TypeDecl} {name : String} (hmem : name ∈ types.map (·.name))
    {isOptional isList : Bool} {text : String}
    (hspaced : Term.Spaced (mk isOptional isList (Atom.named name)).tokens text.toList)
    (subject : Subject) :
    resolve types subject text = (⟨isOptional, isList, .named name⟩, []) ↔
      (Atom.named name).Proper := by
  constructor
  · intro h
    obtain ⟨type, hspells⟩ := resolve_silent_iff.mp (congrArg (·.2) h)
    rw [resolve_of_spells hspells] at h
    rw [(Prod.mk.inj h).1] at hspells
    exact (parse_eq_ok_iff.mp hspells.1).1
  · intro hproper
    refine resolve_of_spells ⟨parse_eq_ok_iff.mpr ⟨hproper, hspaced⟩, fun other hother => ?_⟩
    rwa [← Atom.named.inj hother]

end FieldType

/-! ## Texts of a document -/

namespace Document

/-- A class of the document declares the property with a type of this text. -/
def DeclaresAs (document : Document) (q : Property) (text : String) : Prop :=
  ∃ c ∈ Outline.classesOf document.types, ∃ d ∈ c.properties,
    q.name = d.name ∧ q.declaredBy = c.name ∧ d.type = text

/-- The document writes the type of a field of its table as this text. -/
inductive Writes (document : Document) : String → FieldType Atom → Prop where
  | property {c : Class} (hc : c ∈ document.table.classes) {q : Property} (hq : q ∈ c.properties)
      {text : String} (h : document.DeclaresAs q text) : Writes document text q.type
  | argument {c : Class} (hc : c ∈ document.table.classes) {a : Argument} (ha : a ∈ c.arguments)
      {decl : ClassDecl} (hdecl : decl ∈ Outline.classesOf document.types)
      (hclass : decl.name = c.name) {decls : List ArgumentDecl}
      (hdecls : decl.arguments = some decls) {d : ArgumentDecl} (hd : d ∈ decls)
      (hname : a.name = d.name) : Writes document d.type a.type
  /-- An argument that is not listed has the type of its property. -/
  | implicit {c : Class} (hc : c ∈ document.table.classes) {a : Argument} (ha : a ∈ c.arguments)
      {decl : ClassDecl} (hdecl : decl ∈ Outline.classesOf document.types)
      (hclass : decl.name = c.name) (hdecls : decl.arguments = none) {q : Property}
      (hq : q ∈ c.properties) (hname : a.name = q.name) {text : String}
      (h : document.DeclaresAs q text) : Writes document text a.type

namespace Clean

variable {key : String} {document : Document} (h : document.Clean key)

include h

theorem exists_classOf {c : Class} (hc : c ∈ document.table.classes) :
    ∃ decl ∈ Outline.classesOf document.types,
      c = (Outline.ofTypes document.types).classOf decl := by
  rw [h.classes_table] at hc
  obtain ⟨decl, hdecl, rfl⟩ := List.mem_map.mp hc
  exact ⟨decl, hdecl, rfl⟩

theorem spells_of_declaresAs {decl : ClassDecl} (hdecl : decl ∈ Outline.classesOf document.types)
    {q : Property} (hq : q ∈ ((Outline.ofTypes document.types).classOf decl).properties)
    {text : String} (hdeclares : document.DeclaresAs q text) :
    FieldType.Spells document.types text q.type := by
  obtain ⟨owner, howner, d, hd, hname, hby, htype⟩ := h.exists_declared_of_mem_properties hdecl hq
  obtain ⟨owner', howner', d', hd', hname', hby', rfl⟩ := hdeclares
  -- both are declarations of one class under one name
  obtain rfl := Outline.class_eq_of_name_eq h.names_nodup howner howner' (hby.symm.trans hby')
  obtain rfl := List.inj_on_of_nodup_map (h.accepted.properties_distinct owner howner).1 hd hd'
    (hname.symm.trans hname')
  exact htype

theorem exists_declaresAs {decl : ClassDecl} (hdecl : decl ∈ Outline.classesOf document.types)
    {q : Property} (hq : q ∈ ((Outline.ofTypes document.types).classOf decl).properties) :
    ∃ text, document.DeclaresAs q text := by
  obtain ⟨owner, howner, d, hd, hname, hby, -⟩ := h.exists_declared_of_mem_properties hdecl hq
  exact ⟨d.type, owner, howner, d, hd, hname, hby, rfl⟩

/-- An argument that is made from a property has its type. -/
theorem type_eq_of_implicit {decl : ClassDecl} (hdecl : decl ∈ Outline.classesOf document.types)
    (hnone : decl.arguments = none) {a : Argument}
    (ha : a ∈ ((Outline.ofTypes document.types).classOf decl).arguments) {q : Property}
    (hq : q ∈ ((Outline.ofTypes document.types).classOf decl).properties)
    (hname : a.name = q.name) : a.type = q.type := by
  rw [Outline.arguments_classOf_of_none _ _ hnone] at ha
  obtain ⟨entry, hentry, rfl⟩ := List.mem_map.mp ha
  obtain ⟨other, hother, rfl⟩ := List.mem_map.mp hq
  rw [List.inj_on_of_nodup_map (Outline.names_attributesOf_nodup h.names_nodup decl hdecl) hentry
    hother hname]
  rfl

theorem spells_of_writes {text : String} {type : FieldType Atom}
    (hwrites : document.Writes text type) : FieldType.Spells document.types text type := by
  cases hwrites with
  | property hc hq hdeclares =>
    obtain ⟨decl, hdecl, rfl⟩ := h.exists_classOf hc
    exact h.spells_of_declaresAs hdecl hq hdeclares
  | @argument c hc a ha decl hdecl hclass decls hdecls d hd hname =>
    obtain ⟨decl', hdecl', rfl⟩ := h.exists_classOf hc
    obtain rfl := Outline.class_eq_of_name_eq h.names_nodup hdecl hdecl' hclass
    rw [h.arguments_eq hdecl hdecls] at ha
    obtain ⟨d', hd', rfl⟩ := List.mem_map.mp ha
    obtain rfl := List.inj_on_of_nodup_map
      (h.accepted.arguments_distinct decl hdecl decls hdecls) hd' hd hname
    obtain ⟨type, htype, -⟩ := h.accepted.arguments_typed decl hdecl decls hdecls d' hd'
    rw [show (Argument.ofDecl document.types decl.name d').type = type by
      rw [Argument.ofDecl, FieldType.resolve_of_spells htype]]
    exact htype
  | @implicit c hc a ha decl hdecl hclass hdecls q hq hname text hdeclares =>
    obtain ⟨decl', hdecl', rfl⟩ := h.exists_classOf hc
    obtain rfl := Outline.class_eq_of_name_eq h.names_nodup hdecl hdecl' hclass
    rw [h.type_eq_of_implicit hdecl hdecls ha hq hname]
    exact h.spells_of_declaresAs hdecl hq hdeclares

/-- Every field has a text. -/
theorem exists_writes {type : FieldType Atom} (htype : type ∈ document.table.fieldTypes) :
    ∃ text, document.Writes text type := by
  obtain ⟨c, hc, hmem⟩ := List.mem_flatMap.mp htype
  obtain ⟨decl, hdecl, rfl⟩ := h.exists_classOf hc
  rcases List.mem_append.mp hmem with hmem | hmem
  · obtain ⟨q, hq, rfl⟩ := List.mem_map.mp hmem
    obtain ⟨text, hdeclares⟩ := h.exists_declaresAs hdecl hq
    exact ⟨text, .property hc hq hdeclares⟩
  obtain ⟨a, ha, rfl⟩ := List.mem_map.mp hmem
  cases hdecls : decl.arguments with
  | none =>
    obtain ⟨q, hq, hname⟩ :=
      List.mem_map.mp (((h.names_arguments hdecl).2 a.name).mp (List.mem_map_of_mem ha))
    obtain ⟨text, hdeclares⟩ := h.exists_declaresAs hdecl hq
    exact ⟨text, .implicit hc ha hdecl rfl hdecls hq hname.symm hdeclares⟩
  | some decls =>
    have hlisted := ha
    rw [h.arguments_eq hdecl hdecls] at hlisted
    obtain ⟨d, hd, hname⟩ := List.mem_map.mp hlisted
    exact ⟨d.type, .argument hc ha hdecl rfl hdecls hd (by rw [← hname]; rfl)⟩

end Clean
end Document

/-- What texts with the name of a declared type lead to, and what fields with such texts have. -/
structure Document.ReadsName (document : Document) (s : NamedType) : Prop where
  found : document.table.find? s.name = some s
  resolves_iff : ∀ (isOptional isList : Bool) (text : String) (subject : Subject),
    Term.Spaced (FieldType.mk isOptional isList (Atom.named s.name)).tokens text.toList →
      (FieldType.resolve document.types subject text = (⟨isOptional, isList, .named s.name⟩, []) ↔
        (Atom.named s.name).Proper)
  named_iff : ∀ (isOptional isList : Bool) (text : String) (type : FieldType Atom),
    Term.Spaced (FieldType.mk isOptional isList (Atom.named s.name)).tokens text.toList →
      document.Writes text type →
        (type = ⟨isOptional, isList, .named s.name⟩ ↔ ∀ kind : Primitive, kind.name ≠ s.name)
  primitive : ∀ (isOptional isList : Bool) (text : String) (type : FieldType Atom),
    Term.Spaced (FieldType.mk isOptional isList (Atom.named s.name)).tokens text.toList →
      document.Writes text type →
        ∀ kind : Primitive, kind.name = s.name → type = ⟨isOptional, isList, .primitive kind⟩

theorem Document.Clean.readsName {key : String} {document : Document} (h : document.Clean key)
    {s : NamedType} (hs : s ∈ document.table.types) (hname : Name.isPlain s.name = true) :
    document.ReadsName s := by
  constructor
  case found => exact h.find?_table_iff.mpr ⟨hs, rfl⟩
  case resolves_iff =>
    intro isOptional isList text subject hspaced
    have hmem : s.name ∈ document.types.map (·.name) := by
      rw [← h.names_types_table]
      exact List.mem_map_of_mem hs
    exact FieldType.resolve_name_iff hmem hspaced subject
  case named_iff =>
    intro isOptional isList text type hspaced hwrites
    exact (FieldType.eq_of_spells_name (h.spells_of_writes hwrites) hname hspaced).1
  case primitive =>
    intro isOptional isList text type hspaced hwrites
    exact (FieldType.eq_of_spells_name (h.spells_of_writes hwrites) hname hspaced).2

/-- **A declared type can be referred to iff its name is no word of the syntax.** A text with its
name leads to the type in exactly this case, and a field with such a text has that type iff no
primitive has the name; otherwise it has the primitive. -/
theorem Model.names_read {key : String} {value : Json} {table : Table}
    (h : Model.load key value = .ok table) :
    ∃ document, Document.decode? value = some document ∧ document.table = table
      ∧ (∀ type ∈ table.fieldTypes, ∃ text, document.Writes text type)
      ∧ ∀ s ∈ table.types, document.ReadsName s := by
  have hsound := Model.sound_of_load h
  obtain ⟨document, hdecode, hclean, -, rfl⟩ := Model.clean_of_load h
  refine ⟨document, hdecode, rfl, fun type htype => hclean.exists_writes htype, fun s hs => ?_⟩
  exact hclean.readsName hs (Name.isPlain_of_isIdentifier (hsound.identified s hs))

/-- A type that is named like a primitive, one that is named like a list, and one that is not. -/
def tickets : Json :=
  .object [("name", .text "tickets"), ("types", .array [
    .object [("kind", .text "enumeration"), ("name", .text "int"), ("literals", .array [
      .object [("name", .text "domestic"), ("value", .text "d")]])],
    .object [("kind", .text "concreteClass"), ("name", .text "List")],
    .object [("kind", .text "constrainedPrimitive"), ("name", .text "zone"),
      ("constrainee", .text "int")],
    .object [("kind", .text "concreteClass"), ("name", .text "ticket"), ("properties", .array [
      .object [("name", .text "tariff"), ("type", .text "int")],
      .object [("name", .text "zones"), ("type", .text "Optional[List[ zone ]]")]])]])]

theorem tickets_names_read : ∃ table, Model.load "modelType" tickets = .ok table
    ∧ ∃ document, Document.decode? tickets = some document ∧ document.table = table
      ∧ (∀ type ∈ table.fieldTypes, ∃ text, document.Writes text type)
      ∧ ∀ s ∈ table.types, document.ReadsName s := by
  have hloads : (Model.load "modelType" tickets).toOption.isSome = true := by decide +kernel
  obtain ⟨table, hload⟩ := Model.exists_table hloads
  exact ⟨table, hload, Model.names_read hload⟩

/-- The tariff of a ticket is written with the name of the enumeration, and is a number. -/
theorem tickets_misread : ∃ table document, Model.load "modelType" tickets = .ok table
    ∧ Document.decode? tickets = some document ∧ document.table = table
    ∧ ¬ ∀ s ∈ table.types, ∀ type, document.Writes s.name type →
      type = ⟨false, false, .named s.name⟩ := by
  have hloads : (Model.load "modelType" tickets).toOption.isSome = true := by decide +kernel
  have hreads : (Document.decode? tickets).map (fun document => decide
      ((∃ s ∈ document.table.types, s.name = "int")
        ∧ ∃ c ∈ document.table.classes, ∃ q ∈ c.properties,
          q.type = ⟨false, false, .primitive .int⟩
            ∧ ∃ owner ∈ Outline.classesOf document.types, ∃ d ∈ owner.properties,
              q.name = d.name ∧ q.declaredBy = owner.name ∧ d.type = "int")) = some true := by
    decide +kernel
  obtain ⟨table, hload⟩ := Model.exists_table hloads
  obtain ⟨document, hdecode, -, -, rfl⟩ := Model.clean_of_load hload
  rw [hdecode] at hreads
  obtain ⟨⟨s, hs, hname⟩, c, hc, q, hq, htype, hdeclares⟩ :=
    of_decide_eq_true (Option.some.inj hreads)
  refine ⟨_, document, hload, hdecode, rfl, fun hall => ?_⟩
  have hnamed := hall s hs q.type (hname ▸ .property hc hq hdeclares)
  rw [htype] at hnamed
  cases hnamed

end WireModel
