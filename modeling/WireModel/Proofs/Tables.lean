import WireModel.Proofs.Acceptance

/-!
# What generation can rely on

A document that loads keeps many rules, and its table is the result of many passes. Generators see
neither: they go through the table. `Table.Sound` collects what they can rely on, in the words of
the table alone, so that nothing about generated code has to go back to documents:

* names are identifiers, and their capital forms tell types apart, also from interfaces;
* a class has a constructor argument for each of its properties, all of them with wire names of
  their own, and every field has a type that the table knows;
* an abstract class has an interface, under which its objects can travel.

**`Model.sound_of_load`** says that every table that is loaded is sound.
-/

namespace WireModel

/-! ## Items that are read

A name that is spelled like a primitive is read as that primitive, so that the text of a type
tells a primitive from a named type. -/

theorem Atom.ofName?_of_ofTerm {head name : String} {arguments : List String}
    (h : Atom.ofTerm head arguments = .ok (.named name)) : Primitive.ofName? name = none := by
  unfold Atom.ofTerm at h
  split at h
  · cases h
  split at h
  · cases h
  split at h
  · cases h
  · next hnone =>
    cases h
    exact hnone

namespace FieldType

theorem ofName?_of_requiredOfTerm {head name : String} {arguments : List String}
    {type : FieldType Atom} (h : requiredOfTerm head arguments = .ok type)
    (hitem : type.item = .named name) : Primitive.ofName? name = none := by
  -- whether it is a list or not, the item comes from a term that is a single name
  have hmap : ∀ {read : Except FieldTypeError Atom} {isList : Bool},
      read.map (fun item => (⟨false, isList, item⟩ : FieldType Atom)) = .ok type →
      read = .ok (.named name) := by
    intro read isList hread
    cases read with
    | error e => cases hread
    | ok item =>
      cases hread
      exact congrArg Except.ok hitem
  unfold requiredOfTerm at h
  split at h
  · have hread := hmap h
    cases arguments with
    | nil => cases hread
    | cons first rest => exact Atom.ofName?_of_ofTerm hread
  · exact Atom.ofName?_of_ofTerm (hmap h)

theorem ofName?_of_parse {text name : String} {type : FieldType Atom}
    (h : parse text = .ok type) (hitem : type.item = .named name) :
    Primitive.ofName? name = none := by
  cases hterm : Term.parse text with
  | error e =>
    have hparse : parse text = .error e := by rw [parse, hterm]; rfl
    rw [hparse] at h
    cases h
  | ok term =>
    have hparse : parse text = ofTerm term := by rw [parse, hterm]; rfl
    rw [hparse, ofTerm] at h
    split at h
    · split at h
      · cases h
      · next head arguments _ =>
        cases hread : requiredOfTerm head arguments with
        | error e => rw [hread] at h; cases h
        | ok required =>
          rw [hread] at h
          cases h
          exact ofName?_of_requiredOfTerm hread hitem
    · exact ofName?_of_requiredOfTerm h hitem

end FieldType

/-! ## Sound tables -/

/-- A field has a primitive or a type of the table, which is not spelled like a primitive. -/
def Table.Knows (t : Table) (type : FieldType Atom) : Prop :=
  ∀ name, type.item = .named name →
    name ∈ t.types.map (·.name) ∧ Primitive.ofName? name = none

/-- The fields of a class of the table `t` can be read and written under the discriminator `key`. -/
structure Class.Sound (key : String) (t : Table) (c : Class) : Prop where
  properties_identified : ∀ p ∈ c.properties, Name.isIdentifier p.name = true
  properties_known : ∀ p ∈ c.properties, t.Knows p.type
  wires_distinct : (c.properties.map fun p => Name.camel p.name).Nodup
  wires_free : ∀ p ∈ c.properties, Name.camel p.name ≠ key
  arguments_distinct : (c.arguments.map (·.name)).Nodup
  arguments_match : ∀ name, name ∈ c.arguments.map (·.name) ↔ name ∈ c.properties.map (·.name)
  arguments_known : ∀ a ∈ c.arguments, t.Knows a.type
  interface_iff : (t.interface? c.name).isSome = true ↔ c.descendants ≠ []
  interface_of_abstract : c.isConcrete = false → (t.interface? c.name).isSome = true

structure Table.Sound (key : String) (t : Table) : Prop where
  identified : ∀ s ∈ t.types, Name.isIdentifier s.name = true
  capitals_distinct : (t.types.map fun s => Name.capital s.name).Nodup
  capitals_free : ∀ s ∈ t.types, Name.capital s.name ∉ reservedTypeNames
  interfaces_distinct : (t.interfaces.map (·.name)).Nodup
  interfaces_declared : ∀ i ∈ t.interfaces, ∃ c ∈ t.classes, c.name = i.name
  interfaces_free : ∀ i ∈ t.interfaces, ∀ s ∈ t.types,
    Name.capital s.name ≠ "I" ++ Name.capital i.name
  implementers_declared : ∀ i ∈ t.interfaces, ∀ name ∈ i.implementers,
    ∃ c ∈ t.classes, c.name = name
  classes : ∀ c ∈ t.classes, c.Sound key t

/-- Names with different forms are different. -/
theorem names_nodup_of_forms {α : Type} {items : List α} {name : α → String}
    {form : String → String} (h : (items.map fun a => form (name a)).Nodup) :
    (items.map name).Nodup := by
  have hcomp : (items.map fun a => form (name a)) = (items.map name).map form := by
    rw [List.map_map]
    rfl
  rw [hcomp] at h
  exact h.of_map

theorem Class.Sound.names_nodup {key : String} {t : Table} {c : Class} (h : c.Sound key t) :
    (c.properties.map (·.name)).Nodup :=
  names_nodup_of_forms h.wires_distinct

/-- An argument has the name of a property. -/
theorem Class.Sound.isIdentifier_argument {key : String} {t : Table} {c : Class}
    (h : c.Sound key t) {a : Argument} (ha : a ∈ c.arguments) :
    Name.isIdentifier a.name = true := by
  obtain ⟨p, hp, hname⟩ := List.mem_map.mp
    ((h.arguments_match a.name).mp (List.mem_map_of_mem ha))
  rw [← hname]
  exact h.properties_identified p hp

theorem Table.Sound.names_nodup {key : String} {t : Table} (h : t.Sound key) :
    (t.types.map (·.name)).Nodup :=
  names_nodup_of_forms h.capitals_distinct

theorem Table.Sound.types_nodup {key : String} {t : Table} (h : t.Sound key) : t.types.Nodup :=
  h.names_nodup.of_map

/-! ## Tables of documents -/

/-- The arguments that a class lists become arguments one by one. -/
theorem Argument.ofClass_of_silent {types : List TypeDecl} (hnames : (types.map (·.name)).Nodup)
    {c : ClassDecl} {attributes : List Attribute} {decls : List ArgumentDecl}
    (hdecls : c.arguments = some decls) (h : (ofClass types c attributes).2 = []) :
    (ofClass types c attributes).1 = decls.map (ofDecl types c.name) := by
  rw [ofClass, hdecls] at h ⊢
  obtain ⟨hsilent, -⟩ := List.append_eq_nil_iff.mp h
  have hresult := (sieve hnames c.name).result_of_silent hsilent
  rwa [List.nil_append] at hresult

@[simp] theorem Outline.name_typeOf (o : Outline) (d : TypeDecl) : (o.typeOf d).name = d.name := by
  cases d <;> rfl

namespace Outline

variable (o : Outline) (c : ClassDecl)

theorem names_properties_classOf :
    (o.classOf c).properties.map (·.name) = (o.attributesOf c.name).map (·.name) :=
  List.map_map

theorem arguments_classOf_of_none (hnone : c.arguments = none) :
    (o.classOf c).arguments = (o.attributesOf c.name).map fun a => ⟨a.name, a.type, none⟩ := by
  show (Argument.ofClass o.types c _).1 = _
  rw [Argument.ofClass, hnone]

end Outline

namespace Document.Clean

variable {key : String} {document : Document}

theorem types_table (h : document.Clean key) :
    document.table.types = document.types.map (Outline.ofTypes document.types).typeOf := by
  rw [table, TypeDecl.declareAll_of_silent h.types]
  rfl

theorem names_types_table (h : document.Clean key) :
    document.table.types.map (·.name) = document.types.map (·.name) := by
  rw [h.types_table, List.map_map]
  exact List.map_congr_left fun d _ => Outline.name_typeOf _ d

/-- A type that a text of the document spells is known to the table. -/
theorem knows_of_spells (h : document.Clean key) {text : String} {type : FieldType Atom}
    (htype : FieldType.Spells document.types text type) : document.table.Knows type := by
  intro name hitem
  refine ⟨?_, FieldType.ofName?_of_parse htype.1 hitem⟩
  rw [h.names_types_table]
  exact htype.2 name hitem

section Class

variable (h : document.Clean key) (hid : document.Identified) {c : ClassDecl}
  (hc : c ∈ Outline.classesOf document.types)

include h hc

/-- Every property stands for a declaration of the class or of an ancestor, and says of which. -/
theorem exists_declared_of_mem_properties {p : Property}
    (hp : p ∈ ((Outline.ofTypes document.types).classOf c).properties) :
    ∃ a ∈ Outline.classesOf document.types, ∃ d ∈ a.properties, p.name = d.name
      ∧ p.declaredBy = a.name ∧ FieldType.Spells document.types d.type p.type := by
  obtain ⟨entry, hentry, rfl⟩ := List.mem_map.mp hp
  obtain ⟨a, d, ⟨ha, -, hd⟩, rfl⟩ :=
    (mem_attributesOf_iff h.names_nodup h.keeps_eq h.properties hc).mp hentry
  obtain ⟨type, htype⟩ := h.accepted.properties_typed a ha d hd
  refine ⟨a, ha, d, hd, rfl, rfl, ?_⟩
  rw [show ((Outline.ofTypes document.types).propertyOf
    (Attribute.ofDecl document.types a.name d)).type = type by
      rw [Outline.propertyOf, Attribute.ofDecl, FieldType.resolve_of_spells htype]]
  exact htype

theorem exists_decl_of_mem_properties {p : Property}
    (hp : p ∈ ((Outline.ofTypes document.types).classOf c).properties) :
    ∃ a ∈ Outline.classesOf document.types, ∃ d ∈ a.properties, p.name = d.name
      ∧ FieldType.Spells document.types d.type p.type := by
  obtain ⟨a, ha, d, hd, hname, -, htype⟩ := h.exists_declared_of_mem_properties hc hp
  exact ⟨a, ha, d, hd, hname, htype⟩

theorem arguments_eq {decls : List ArgumentDecl} (hdecls : c.arguments = some decls) :
    ((Outline.ofTypes document.types).classOf c).arguments
      = decls.map (Argument.ofDecl document.types c.name) :=
  Argument.ofClass_of_silent h.names_nodup hdecls
    (List.flatMap_eq_nil_iff.mp h.constructors c hc)

/-- Explicit arguments are named like the properties, and the others are made from them. -/
theorem names_arguments :
    (((Outline.ofTypes document.types).classOf c).arguments.map (·.name)).Nodup
      ∧ ∀ name, name ∈ ((Outline.ofTypes document.types).classOf c).arguments.map (·.name) ↔
        name ∈ ((Outline.ofTypes document.types).classOf c).properties.map (·.name) := by
  rw [Outline.names_properties_classOf]
  cases harguments : c.arguments with
  | none =>
    rw [Outline.arguments_classOf_of_none _ _ harguments, List.map_map]
    exact ⟨Outline.names_attributesOf_nodup h.names_nodup c hc, fun name => Iff.rfl⟩
  | some decls =>
    have hrules := (Outline.constructorProblems_eq_nil_iff h.names_nodup).mp h.constructors c hc
      decls harguments
    rw [h.arguments_eq hc harguments, List.map_map]
    exact ⟨hrules.1, hrules.2.2⟩

/-- The type of every argument is spelled somewhere in the document. -/
theorem arguments_spelled :
    ∀ a ∈ ((Outline.ofTypes document.types).classOf c).arguments,
      ∃ text, FieldType.Spells document.types text a.type := by
  intro a ha
  cases harguments : c.arguments with
  | none =>
    rw [Outline.arguments_classOf_of_none _ _ harguments] at ha
    obtain ⟨entry, hentry, rfl⟩ := List.mem_map.mp ha
    obtain ⟨-, -, d, -, -, htype⟩ := h.exists_decl_of_mem_properties hc
      (List.mem_map_of_mem (f := (Outline.ofTypes document.types).propertyOf) hentry)
    exact ⟨d.type, htype⟩
  | some decls =>
    rw [h.arguments_eq hc harguments] at ha
    obtain ⟨d, hd, rfl⟩ := List.mem_map.mp ha
    obtain ⟨type, htype, -⟩ := h.accepted.arguments_typed c hc decls harguments d hd
    rw [show (Argument.ofDecl document.types c.name d).type = type by
      rw [Argument.ofDecl, FieldType.resolve_of_spells htype]]
    exact ⟨d.type, htype⟩

theorem arguments_known :
    ∀ a ∈ ((Outline.ofTypes document.types).classOf c).arguments, document.table.Knows a.type := by
  intro a ha
  obtain ⟨text, htype⟩ := h.arguments_spelled hc a ha
  exact h.knows_of_spells htype

theorem wires_distinct :
    (((Outline.ofTypes document.types).classOf c).properties.map
      fun p => Name.camel p.name).Nodup := by
  have hrules := (Outline.wireNameProblems_eq_nil_iff h.names_nodup).mp h.wireNames c hc
  have hnames := Outline.names_attributesOf_nodup h.names_nodup c hc
  rw [show ((Outline.ofTypes document.types).classOf c).properties.map
      (fun p => Name.camel p.name)
    = ((Outline.ofTypes document.types).attributesOf c.name).map fun a => Name.camel a.name from
      List.map_map]
  refine (List.nodup_map_iff_inj_on (List.Nodup.of_map _ hnames)).mpr fun a ha b hb heq => ?_
  exact List.inj_on_of_nodup_map hnames ha hb (hrules.2 a ha b hb heq)

include hid in
theorem sound_classOf :
    ((Outline.ofTypes document.types).classOf c).Sound key document.table := by
  have hinterface := h.interface?_table hc
  constructor
  case properties_identified =>
    intro p hp
    obtain ⟨a, ha, d, hd, hname, -⟩ := h.exists_decl_of_mem_properties hc hp
    have hidentified : a.Identified := hid.2 _ (Outline.mem_classesOf.mp ha)
    rw [hname]
    exact hidentified.properties d hd
  case properties_known =>
    intro p hp
    obtain ⟨a, ha, d, hd, -, htype⟩ := h.exists_decl_of_mem_properties hc hp
    exact h.knows_of_spells htype
  case wires_distinct => exact h.wires_distinct hc
  case wires_free =>
    have hrules := (Outline.wireNameProblems_eq_nil_iff h.names_nodup).mp h.wireNames c hc
    exact List.forall_mem_map.mpr fun a ha => hrules.1 a ha
  case arguments_distinct => exact (h.names_arguments hc).1
  case arguments_match => exact (h.names_arguments hc).2
  case arguments_known => exact h.arguments_known hc
  case interface_iff =>
    show (document.table.interface? c.name).isSome = true ↔
      (Outline.ofTypes document.types).descendantsOf c.name ≠ []
    rw [hinterface]
    split
    · next hnone => simp [hnone]
    · next hne => simp [hne]
  case interface_of_abstract =>
    intro habstract
    show (document.table.interface? c.name).isSome = true
    -- an abstract class has an implementer, which is not the class itself
    obtain ⟨x, hx, -, hdescends⟩ := h.accepted.implemented c hc habstract
    have hne := (descendants_ne_nil_iff h.names_nodup h.keeps_eq).mpr ⟨x, hx, hdescends⟩
    rw [hinterface, if_neg hne]
    rfl

end Class

/-- **The table of a document without problems is sound.** -/
theorem sound_table (h : document.Clean key) (hid : document.Identified) :
    document.table.Sound key := by
  have haccepted := h.accepted
  have hmem : ∀ {P : String → Prop}, (∀ d ∈ document.types, P d.name) →
      ∀ s ∈ document.table.types, P s.name := by
    intro P hP
    rw [h.types_table]
    refine List.forall_mem_map.mpr fun d hd => ?_
    rw [Outline.name_typeOf]
    exact hP d hd
  have hinterfaces : ∀ i ∈ document.table.interfaces, ∃ c ∈ Outline.classesOf document.types,
      (Outline.ofTypes document.types).descendantsOf c.name ≠ []
        ∧ i = ⟨c.name, (Outline.ofTypes document.types).implementersOf c.name⟩ := by
    rw [h.interfaces_table]
    exact fun i hi => Outline.mem_interfaces.mp hi
  have hclass : ∀ c ∈ Outline.classesOf document.types, ∃ d ∈ document.table.classes,
      d.name = c.name := by
    intro c hc
    rw [h.classes_table]
    exact ⟨_, List.mem_map_of_mem hc, rfl⟩
  constructor
  case identified =>
    exact hmem (P := fun name => Name.isIdentifier name = true) fun d hd => (hid.2 d hd).name
  case capitals_distinct =>
    rw [show document.table.types.map (fun s => Name.capital s.name)
      = (document.table.types.map (·.name)).map Name.capital by rw [List.map_map]; rfl,
      h.names_types_table, List.map_map]
    exact haccepted.types_distinct
  case capitals_free =>
    exact hmem (P := fun name => Name.capital name ∉ reservedTypeNames) haccepted.types_free
  case interfaces_distinct =>
    rw [h.names_interfaces_table]
    refine List.Nodup.sublist (List.filter_sublist.map _) ?_
    rw [h.names_classes_table]
    exact Outline.classesOf_names_nodup h.names_nodup
  case interfaces_declared =>
    intro i hi
    obtain ⟨c, hc, -, rfl⟩ := hinterfaces i hi
    exact hclass c hc
  case interfaces_free =>
    intro i hi
    obtain ⟨c, hc, hne, rfl⟩ := hinterfaces i hi
    obtain ⟨x, hx, hdescends⟩ := (descendants_ne_nil_iff h.names_nodup h.keeps_eq).mp hne
    exact hmem (P := fun name => Name.capital name ≠ "I" ++ Name.capital c.name)
      (haccepted.interfaces_free c hc x hx hdescends)
  case implementers_declared =>
    intro i hi name hname
    obtain ⟨c, hc, -, rfl⟩ := hinterfaces i hi
    obtain ⟨x, hx, rfl, -⟩ := Outline.mem_implementersOf.mp hname
    exact hclass x hx
  case classes => exact h.forall_classes fun c hc => h.sound_classOf hid hc

end Document.Clean

/-- **Every table that is loaded is sound.** -/
theorem Model.sound_of_load {key : String} {value : Json} {table : Table}
    (h : Model.load key value = .ok table) : table.Sound key := by
  obtain ⟨document, hconforms, hd, hnone, rfl⟩ := Model.load_eq_ok_iff.mp h
  obtain ⟨identified, hd', hid⟩ := Document.decode?_of_conforms hconforms
  obtain rfl := Option.some.inj (hd.symm.trans hd')
  exact (Document.problems_eq_nil_iff.mp hnone).sound_table hid

end WireModel
