import WireModel.Proofs.Tables

/-!
# Tables are closed

A table is a flat list of entries that mention each other by name: a class its parents and its
descendants, a field its type, a default its literal, a description whatever it refers to. The
links are made in separate passes over declarations, and nothing in a table says that the entry
behind a name is there.

* **`Document.Clean.closed_table`**: it is there, for every kind of link, and it is of the kind
  that the link is for. `Table.Closed` lists the kinds.
* **`Model.table_closed`**: a table that is loaded is closed, and it is complete: it has one entry
  for each declaration of the document, in the same order, and a search by name finds exactly the
  entry of that name.

Descriptions need no rule to be closed. A reference becomes a link only if it was found, and what
is found is an entry of the table (`Document.Clean.refers_of_lookup`).
-/

namespace WireModel

/-! ## Links -/

namespace Table

/-- The name is that of a class. -/
def HasClass (t : Table) (name : String) : Prop := ∃ c, t.find? name = some (.classType c)

/-- Every name that the type of a field mentions is that of an entry. -/
def Links (t : Table) (type : FieldType Atom) : Prop :=
  ∀ name ∈ type.names, ∃ s, t.find? name = some s

/-- A piece of a description that is a reference refers to an entry, or to a property of the class
that it names as the owner. -/
inductive Refers (t : Table) : Inline → Prop where
  | text (s : String) : Refers t (.text s)
  | typeRef {name : String} {s : NamedType} (h : t.find? name = some s) : Refers t (.typeRef name)
  | propertyRef {owner : String} {c : Class} {p : Property}
      (h : t.find? owner = some (.classType c)) (hp : p ∈ c.properties) :
      Refers t (.propertyRef owner p.name p.declaredBy)

/-- A default that names a literal is for a field of the enumeration that has it. -/
def Supplies (t : Table) (a : Argument) : Prop :=
  ∀ enumeration literal, a.default = some (.literal enumeration literal) →
    a.type.item = .named enumeration
      ∧ ∃ e, t.find? enumeration = some (.enumeration e) ∧ literal ∈ e.literals.map (·.name)

end Table

/-- The descriptions of an entry and of what it consists of. -/
def NamedType.descriptions : NamedType → List (Option Description)
  | .enumeration e => e.description :: e.literals.map (·.description)
  | .constrained c => [c.description]
  | .classType c => c.description :: c.properties.map (·.description)

/-- The pieces of all descriptions of a table. -/
def Table.inlines (t : Table) : List Inline :=
  (t.description :: t.types.flatMap NamedType.descriptions).flatMap fun description =>
    description.toList.flatMap fun d => d.paragraphs.flatten

structure Class.Closed (t : Table) (c : Class) : Prop where
  parents : ∀ name ∈ c.parents, t.HasClass name
  descendants : ∀ name ∈ c.descendants, t.HasClass name
  /-- The declaring class of a property has that very property. -/
  declared : ∀ p ∈ c.properties, ∃ a, t.find? p.declaredBy = some (.classType a) ∧ p ∈ a.properties
  properties : ∀ p ∈ c.properties, t.Links p.type
  arguments : ∀ a ∈ c.arguments, t.Links a.type ∧ t.Supplies a

/-- Every link of a table leads to an entry. -/
structure Table.Closed (t : Table) : Prop where
  classes : ∀ c ∈ t.classes, c.Closed t
  bases : ∀ i ∈ t.interfaces, t.HasClass i.name
  implementers : ∀ i ∈ t.interfaces, ∀ name ∈ i.implementers,
    ∃ c, t.find? name = some (.classType c) ∧ c.isConcrete = true
  inlines : ∀ inline ∈ t.inlines, t.Refers inline

/-! ## Links of a document without problems -/

namespace Default

theorem eq_literal_of_ofLiteral? {e : EnumerationDecl} {value : Constant} {d : Default}
    (h : ofLiteral? e value = some d) : ∃ l ∈ e.literals, d = .literal e.name l.name := by
  cases value with
  | text s =>
    rw [ofLiteral?] at h
    split at h
    · next hany =>
      obtain ⟨l, hl, hname⟩ := List.any_eq_true.mp hany
      obtain rfl := eq_of_beq hname
      exact ⟨l, hl, (Option.some.inj h).symm⟩
    · cases h
  | null | bool | number => cases h

theorem ofConstant?_ne_literal {kind : Primitive} {value : Constant}
    (enumeration literal : String) :
    ofConstant? kind value ≠ some (.literal enumeration literal) := by
  unfold ofConstant?
  split
  · simp
  · split <;> simp
  · simp
  · simp
  · simp

/-- A default is a literal of the enumeration that the type mentions, or a constant of the
primitive behind it. -/
theorem resolve_eq_some {types : List TypeDecl} (hnames : (types.map (·.name)).Nodup)
    {subject : Subject} {type : FieldType Atom} {value : Constant} {d : Default}
    (h : (resolve types subject type value).1 = some d) :
    type.isList = false
      ∧ ((∃ e, .enumeration e ∈ types ∧ type.item = .named e.name
          ∧ ∃ l ∈ e.literals, d = .literal e.name l.name)
        ∨ ∃ kind, type.item.Carries types kind ∧ ofConstant? kind value = some d) := by
  unfold resolve at h
  split at h
  · cases h
  split at h
  · cases h
  next hlist =>
  refine ⟨by simpa using hlist, ?_⟩
  split at h
  · next e hfind =>
    obtain ⟨he, hitem⟩ := (enumerationOf?_eq_some_iff hnames).mp hfind
    split at h
    · next hliteral =>
      obtain rfl := Option.some.inj h
      exact .inl ⟨e, he, hitem, eq_literal_of_ofLiteral? hliteral⟩
    · cases h
  · split at h
    · next hconstant =>
      obtain rfl := Option.some.inj h
      obtain ⟨kind, hkind, hvalue⟩ := Option.bind_eq_some_iff.mp hconstant
      exact .inr ⟨kind, (primitiveOf?_eq_some_iff hnames).mp hkind, hvalue⟩
    · cases h

/-- A default that is a literal is one of the enumeration that the type mentions. -/
theorem eq_literal_of_resolve {types : List TypeDecl} (hnames : (types.map (·.name)).Nodup)
    {subject : Subject} {type : FieldType Atom} {value : Constant} {enumeration literal : String}
    (h : (resolve types subject type value).1 = some (.literal enumeration literal)) :
    type.item = .named enumeration ∧ ∃ e, .enumeration e ∈ types ∧ e.name = enumeration
      ∧ literal ∈ e.literals.map (·.name) := by
  obtain ⟨-, ⟨e, he, hitem, l, hl, heq⟩ | ⟨kind, -, hkind⟩⟩ := resolve_eq_some hnames h
  · obtain ⟨rfl, rfl⟩ := Default.literal.inj heq
    exact ⟨hitem, e, he, rfl, List.mem_map_of_mem hl⟩
  · exact absurd hkind (ofConstant?_ne_literal enumeration literal)

end Default

namespace Document.Clean

variable {key : String} {document : Document} (h : document.Clean key)

include h

/-- **A search by name finds the entry of that name.** -/
theorem find?_table_iff {name : String} {s : NamedType} :
    document.table.find? name = some s ↔ s ∈ document.table.types ∧ s.name = name := by
  have hnames : (document.table.types.map (·.name)).Nodup := by
    rw [h.names_types_table]
    exact h.names_nodup
  exact find?_key_eq_some_iff hnames

theorem find?_typeOf {d : TypeDecl} (hd : d ∈ document.types) :
    document.table.find? d.name = some ((Outline.ofTypes document.types).typeOf d) := by
  refine h.find?_table_iff.mpr ⟨?_, Outline.name_typeOf _ d⟩
  rw [h.types_table]
  exact List.mem_map_of_mem hd

theorem find?_classOf {c : ClassDecl} (hc : c ∈ Outline.classesOf document.types) :
    document.table.find? c.name
      = some (.classType ((Outline.ofTypes document.types).classOf c)) :=
  h.find?_typeOf (Outline.mem_classesOf.mp hc)

theorem hasClass_of_mem {name : String}
    (hname : name ∈ (Outline.classesOf document.types).map (·.name)) :
    document.table.HasClass name := by
  obtain ⟨c, hc, rfl⟩ := List.mem_map.mp hname
  exact ⟨_, h.find?_classOf hc⟩

theorem links_of_knows {type : FieldType Atom} (hknows : document.table.Knows type) :
    document.table.Links type := by
  intro name hname
  have hitem : type.item = .named name := by
    unfold FieldType.names at hname
    cases hitem : type.item with
    | primitive kind =>
      rw [hitem] at hname
      cases hname
    | named other =>
      rw [hitem] at hname
      rw [List.mem_singleton.mp hname]
  obtain ⟨s, hs, rfl⟩ := List.mem_map.mp (hknows name hitem).1
  exact ⟨s, h.find?_table_iff.mpr ⟨hs, rfl⟩⟩

/-! ### Descriptions -/

theorem refers_of_propertyRef? {owner property : String} {inline : Inline}
    (hfind : (Outline.ofTypes document.types).propertyRef? owner property = some inline) :
    document.table.Refers inline := by
  rw [Outline.propertyRef?, show (Outline.ofTypes document.types).class? owner
    = Outline.classOf? document.types owner from rfl] at hfind
  cases hclass : Outline.classOf? document.types owner with
  | none =>
    rw [hclass] at hfind
    simp at hfind
  | some c =>
    obtain ⟨hc, rfl⟩ := (Outline.classOf?_eq_some_iff h.names_nodup).mp hclass
    rw [hclass, if_neg (by simp)] at hfind
    obtain ⟨a, ha, rfl⟩ := Option.map_eq_some_iff.mp hfind
    have hproperty : (Outline.ofTypes document.types).propertyOf a
        ∈ ((Outline.ofTypes document.types).classOf c).properties :=
      List.mem_map_of_mem (List.mem_of_find?_eq_some ha)
    exact .propertyRef (h.find?_classOf hc) hproperty

/-- What a lookup finds is in the table. -/
theorem refers_of_lookup {within : Option String} {r : Mention} {inline : Inline}
    (hfind : (Outline.ofTypes document.types).lookup within r = some inline) :
    document.table.Refers inline := by
  obtain ⟨role, target⟩ := r
  cases role with
  | type =>
    simp only [Outline.lookup] at hfind
    split at hfind
    · next hany =>
      obtain ⟨d, hd, hname⟩ := List.any_eq_true.mp hany
      obtain rfl := eq_of_beq hname
      cases hfind
      exact .typeRef (h.find?_typeOf hd)
    · cases hfind
  | property =>
    simp only [Outline.lookup] at hfind
    split at hfind
    · exact h.refers_of_propertyRef? hfind
    · obtain ⟨owner, -, hfind⟩ := Option.bind_eq_some_iff.mp hfind
      exact h.refers_of_propertyRef? hfind

/-- A reference that is not found stays plain text, so every description is closed. -/
theorem refers_of_describe {within prose : Option String} {d : Description}
    (hd : (Outline.ofTypes document.types).describe within prose = some d) {inline : Inline}
    (hinline : inline ∈ d.paragraphs.flatten) : document.table.Refers inline := by
  obtain ⟨s, -, hparse⟩ := Option.bind_eq_some_iff.mp hd
  unfold Description.parse at hparse
  split at hparse
  · next summary remarks heq =>
    cases hparse
    rw [show (Description.mk summary remarks).paragraphs = summary :: remarks from rfl,
      ← heq] at hinline
    obtain ⟨paragraph, hparagraph, hinline⟩ := List.mem_flatten.mp hinline
    obtain ⟨pieces, -, rfl⟩ := List.mem_map.mp hparagraph
    obtain ⟨piece, -, rfl⟩ := List.mem_map.mp hinline
    cases piece with
    | text s => exact .text s
    | mention r =>
      rw [Description.Piece.resolve]
      cases hfind : (Outline.ofTypes document.types).lookup within r with
      | none => exact .text r.target
      | some inline => exact h.refers_of_lookup hfind
  · cases hparse

/-- Every description of the table is that of a text of the document. -/
theorem exists_describe {description : Option Description}
    (hmem : description ∈ document.table.description
      :: document.table.types.flatMap NamedType.descriptions) :
    ∃ within prose, description = (Outline.ofTypes document.types).describe within prose := by
  rcases List.mem_cons.mp hmem with rfl | hmem
  · refine ⟨none, document.description, ?_⟩
    rw [← h.outline_eq]
    rfl
  · rw [h.types_table] at hmem
    obtain ⟨s, hs, hmem⟩ := List.mem_flatMap.mp hmem
    obtain ⟨d, -, rfl⟩ := List.mem_map.mp hs
    cases d with
    | enumeration e =>
      rcases List.mem_cons.mp hmem with rfl | hmem
      · exact ⟨_, _, rfl⟩
      · obtain ⟨l, hl, rfl⟩ := List.mem_map.mp hmem
        obtain ⟨raw, -, rfl⟩ := List.mem_map.mp hl
        exact ⟨_, _, rfl⟩
    | constrained c =>
      obtain rfl := List.mem_singleton.mp hmem
      exact ⟨_, _, rfl⟩
    | classType c =>
      rcases List.mem_cons.mp hmem with rfl | hmem
      · exact ⟨_, _, rfl⟩
      · obtain ⟨p, hp, rfl⟩ := List.mem_map.mp hmem
        obtain ⟨entry, -, rfl⟩ := List.mem_map.mp hp
        exact ⟨_, _, rfl⟩

/-! ### Classes -/

theorem supplies {c : ClassDecl} (hc : c ∈ Outline.classesOf document.types) :
    ∀ a ∈ ((Outline.ofTypes document.types).classOf c).arguments, document.table.Supplies a := by
  intro a ha enumeration literal hdefault
  cases harguments : c.arguments with
  | none =>
    rw [Outline.arguments_classOf_of_none _ _ harguments] at ha
    obtain ⟨entry, -, rfl⟩ := List.mem_map.mp ha
    cases hdefault
  | some decls =>
    rw [h.arguments_eq hc harguments] at ha
    obtain ⟨d, -, rfl⟩ := List.mem_map.mp ha
    obtain ⟨value, -, hresolve⟩ := Option.bind_eq_some_iff.mp hdefault
    obtain ⟨hitem, e, he, rfl, hliteral⟩ :=
      Default.eq_literal_of_resolve h.names_nodup hresolve
    refine ⟨hitem, _, h.find?_typeOf he, ?_⟩
    rw [List.map_map]
    exact hliteral

theorem declared {c : ClassDecl} (hc : c ∈ Outline.classesOf document.types) {p : Property}
    (hp : p ∈ ((Outline.ofTypes document.types).classOf c).properties) :
    ∃ a, document.table.find? p.declaredBy = some (.classType a) ∧ p ∈ a.properties := by
  obtain ⟨entry, hentry, rfl⟩ := List.mem_map.mp hp
  obtain ⟨a, d, ⟨ha, -, hd⟩, rfl⟩ :=
    (mem_attributesOf_iff h.names_nodup h.keeps_eq h.properties hc).mp hentry
  -- the declaring class lists its own declarations among its properties
  have hown := (mem_attributesOf_iff h.names_nodup h.keeps_eq h.properties ha).mpr
    ⟨a, d, ⟨ha, .refl, hd⟩, rfl⟩
  exact ⟨_, h.find?_classOf ha, List.mem_map_of_mem hown⟩

theorem closed_classOf {c : ClassDecl} (hc : c ∈ Outline.classesOf document.types) :
    ((Outline.ofTypes document.types).classOf c).Closed document.table := by
  constructor
  case parents =>
    exact fun name hname => h.hasClass_of_mem (Outline.parentsOf_known h.names_nodup hname)
  case descendants =>
    intro name hname
    obtain ⟨a, ha, rfl⟩ := Outline.exists_of_mem_descendantsOf hname
    exact h.hasClass_of_mem (List.mem_map_of_mem ha)
  case declared => exact fun p hp => h.declared hc hp
  case properties =>
    intro p hp
    obtain ⟨-, -, d, -, -, htype⟩ := h.exists_decl_of_mem_properties hc hp
    exact h.links_of_knows (h.knows_of_spells htype)
  case arguments =>
    exact fun a ha => ⟨h.links_of_knows (h.arguments_known hc a ha), h.supplies hc a ha⟩

/-- **The table of a document without problems is closed.** -/
theorem closed_table : document.table.Closed := by
  have hinterfaces : ∀ i ∈ document.table.interfaces, ∃ c ∈ Outline.classesOf document.types,
      i = ⟨c.name, (Outline.ofTypes document.types).implementersOf c.name⟩ := by
    intro i hi
    rw [h.interfaces_table] at hi
    obtain ⟨c, hc, -, rfl⟩ := Outline.mem_interfaces.mp hi
    exact ⟨c, hc, rfl⟩
  constructor
  case classes => exact h.forall_classes fun c hc => h.closed_classOf hc
  case bases =>
    intro i hi
    obtain ⟨c, hc, rfl⟩ := hinterfaces i hi
    exact h.hasClass_of_mem (List.mem_map_of_mem hc)
  case implementers =>
    intro i hi name hname
    obtain ⟨c, -, rfl⟩ := hinterfaces i hi
    obtain ⟨x, hx, rfl, hconcrete, -⟩ := Outline.mem_implementersOf.mp hname
    exact ⟨_, h.find?_classOf hx, hconcrete⟩
  case inlines =>
    intro inline hinline
    obtain ⟨description, hdescription, hinline⟩ := List.mem_flatMap.mp hinline
    obtain ⟨within, prose, rfl⟩ := h.exists_describe hdescription
    obtain ⟨d, hd, hinline⟩ := List.mem_flatMap.mp hinline
    exact h.refers_of_describe (Option.mem_toList.mp hd) hinline

end Document.Clean

/-! ## Entries -/

/-- An entry stands for a declaration: it is of the same kind and has the same name. -/
inductive TypeDecl.Becomes : TypeDecl → NamedType → Prop where
  | enumeration {d : EnumerationDecl} {e : Enumeration} (h : e.name = d.name) :
      Becomes (.enumeration d) (.enumeration e)
  | constrained {d : ConstrainedDecl} {c : Constrained} (h : c.name = d.name) :
      Becomes (.constrained d) (.constrained c)
  | classType {d : ClassDecl} {c : Class} (h : c.name = d.name) (hkind : c.kind = d.kind) :
      Becomes (.classType d) (.classType c)

/-- A table has the declarations of a document as its entries, and can be searched for them. -/
structure Document.Complete (document : Document) (t : Table) : Prop where
  entries : List.Forall₂ TypeDecl.Becomes document.types t.types
  find?_iff : ∀ name s, t.find? name = some s ↔ s ∈ t.types ∧ s.name = name

theorem Document.Clean.complete {key : String} {document : Document} (h : document.Clean key) :
    document.Complete document.table where
  entries := by
    rw [h.types_table, List.forall₂_map_right_iff, List.forall₂_same]
    intro d _
    cases d with
    | enumeration e => exact .enumeration rfl
    | constrained c => exact .constrained rfl
    | classType c => exact .classType rfl rfl
  find?_iff _ _ := h.find?_table_iff

/-- A table that is loaded is that of a document without problems. -/
theorem Model.clean_of_load {key : String} {value : Json} {table : Table}
    (h : Model.load key value = .ok table) :
    ∃ document, Document.decode? value = some document ∧ document.Clean key
      ∧ document.Identified ∧ document.table = table := by
  obtain ⟨document, hconforms, hd, hnone, rfl⟩ := Model.load_eq_ok_iff.mp h
  obtain ⟨identified, hd', hid⟩ := Document.decode?_of_conforms hconforms
  obtain rfl := Option.some.inj (hd.symm.trans hd')
  exact ⟨document, hd, Document.problems_eq_nil_iff.mp hnone, hid, rfl⟩

/-- **A table that is loaded is complete and closed.** -/
theorem Model.table_closed {key : String} {value : Json} {table : Table}
    (h : Model.load key value = .ok table) :
    ∃ document, Document.decode? value = some document ∧ document.Complete table
      ∧ table.Closed := by
  obtain ⟨document, hd, hclean, -, rfl⟩ := Model.clean_of_load h
  exact ⟨document, hd, hclean.complete, hclean.closed_table⟩

/-- A model with every kind of link, some of them to declarations further below. -/
def shelves : Json :=
  .object [("name", .text "shelves"), ("description", .text "What a :class:`shelf` holds."),
    ("types", .array [
      .object [("kind", .text "concreteClass"), ("name", .text "book"),
        ("description", .text "An :class:`item` whose :attr:`label` is its title."),
        ("inheritances", Json.texts ["item"]),
        ("properties", .array [
          .object [("name", .text "state"), ("type", .text "state"),
            ("description", .text "Given like :attr:`shelf.items`.")]]),
        ("constructorArguments", .array [
          .object [("name", .text "state"), ("type", .text "Optional[state]"),
            ("default", .text "lent")],
          .object [("name", .text "label"), ("type", .text "title")]])],
      .object [("kind", .text "abstractClass"), ("name", .text "item"),
        ("properties", .array [.object [("name", .text "label"), ("type", .text "title")]])],
      .object [("kind", .text "concreteClass"), ("name", .text "shelf"),
        ("properties", .array [.object [("name", .text "items"), ("type", .text "List[item]")]])],
      .object [("kind", .text "constrainedPrimitive"), ("name", .text "title"),
        ("constrainee", .text "str"), ("description", .text "Of a :class:`book`.")],
      .object [("kind", .text "enumeration"), ("name", .text "state"), ("literals", .array [
        .object [("name", .text "lent"), ("value", .text "l"),
          ("description", .text "See :attr:`book.state`.")]])]])]

theorem shelves_closed : ∃ table, Model.load "modelType" shelves = .ok table
    ∧ ∃ document, Document.decode? shelves = some document ∧ document.Complete table
      ∧ table.Closed := by
  have hloads : (Model.load "modelType" shelves).toOption.isSome = true := by decide +kernel
  obtain ⟨table, hload⟩ := Model.exists_table hloads
  exact ⟨table, hload, Model.table_closed hload⟩

end WireModel
