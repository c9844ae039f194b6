import WireModel.Proofs.Properties

/-!
# The properties of a class are its linearization

In a table every class carries the properties of its ancestors and its own in one list. The order
is that of the depth-first listing of the ancestors, parents in the order of the document and
each class at its first visit only; and every property stands in all those lists as the same
entry. `Document.Linearizes` says all that about one class, and **`Model.properties_linearized`**
says it about every class of every model that loads.
-/

namespace WireModel

/-- The property `p` is what the class `owner` declares by `d`. -/
structure Document.Declares (document : Document) (owner : String) (d : PropertyDecl)
    (p : Property) : Prop where
  name : p.name = d.name
  type : FieldType.parse d.type = .ok p.type
  declaredBy : p.declaredBy = owner
  description : p.description = document.outline.describe (some owner) d.description

/-- The class `c` of a table has the properties that its ancestors and itself declare, in the
order of the listing `listed`; `own` are the properties that each class declares. -/
structure Document.Linearizes (document : Document) (table : Table) (own : String → List Property)
    (c : Class) (listed : List String) : Prop where
  listing : ∀ names, Hierarchy.Visits document.parentsOf [] [c.name] names ↔ names = listed
  ancestors : ∀ a, a ∈ listed ↔ Relation.ReflTransGen document.Inherits c.name a
  nodup : listed.Nodup
  last : listed.getLast? = some c.name
  properties : c.properties = listed.flatMap own
  names : (c.properties.map (·.name)).Nodup
  shared : ∀ p ∈ c.properties, p.declaredBy ∈ listed ∧ p ∈ own p.declaredBy
    ∧ ∃ a ∈ table.classes, a.name = p.declaredBy ∧ p ∈ a.properties
  arguments : ∀ d, .classType d ∈ document.types → d.name = c.name → d.arguments = none →
    c.arguments = c.properties.map fun p => ⟨p.name, p.type, none⟩

/-- The properties that the class `name` declares. -/
def Document.ownProperties (document : Document) (name : String) : List Property :=
  (Outline.ownOf document.types name).map (Outline.ofTypes document.types).propertyOf

namespace Document.Clean

variable {key : String} {document : Document}

theorem declares (h : document.Clean key) {a : ClassDecl} (ha : .classType a ∈ document.types) :
    List.Forall₂ (document.Declares a.name) a.properties (document.ownProperties a.name) := by
  have ha := Outline.mem_classesOf.mpr ha
  have hsound := ((Outline.propertyProblems_eq_nil_iff h.names_nodup).mp h.properties).1 a ha
  rw [ownProperties, Outline.ownOf_eq h.names_nodup ha, List.forall₂_map_right_iff,
    List.forall₂_map_right_iff, List.forall₂_same]
  intro d hd
  obtain ⟨type, htype⟩ := (hsound.2 d hd).2
  refine ⟨rfl, ?_, rfl, ?_⟩
  · rw [htype.1, Outline.propertyOf, Attribute.ofDecl, FieldType.resolve_of_spells htype]
  · rw [h.outline_eq]
    rfl

theorem exists_listing (h : document.Clean key) {c : ClassDecl}
    (hc : c ∈ Outline.classesOf document.types) :
    ∃ listed, Hierarchy.Visits document.parentsOf [] [c.name] listed
      ∧ ((Outline.ofTypes document.types).classOf c).properties
        = listed.flatMap document.ownProperties := by
  obtain ⟨listed, hvisits, heq⟩ := Outline.exists_listing h.names_nodup h.properties c hc
  rw [h.parentsOf_eq] at hvisits
  refine ⟨listed, hvisits, ?_⟩
  show ((Outline.ofTypes document.types).attributesOf c.name).map _ = _
  rw [heq, List.map_flatMap]
  rfl

/-- A class has the properties that it declares. -/
theorem ownProperties_subset (h : document.Clean key) {c : ClassDecl}
    (hc : c ∈ Outline.classesOf document.types) :
    document.ownProperties c.name ⊆ ((Outline.ofTypes document.types).classOf c).properties := by
  obtain ⟨listed, hvisits, hproperties⟩ := h.exists_listing hc
  intro p hp
  rw [hproperties, List.mem_flatMap]
  exact ⟨c.name, hvisits.mem_iff.mpr .refl, hp⟩

theorem linearizes (h : document.Clean key) {c : ClassDecl}
    (hc : c ∈ Outline.classesOf document.types) :
    ∃ listed, document.Linearizes document.table document.ownProperties
      ((Outline.ofTypes document.types).classOf c) listed := by
  obtain ⟨listed, hvisits, hproperties⟩ := h.exists_listing hc
  refine ⟨listed, ?_⟩
  constructor
  case listing => exact fun names => ⟨hvisits.unique, fun heq => heq ▸ hvisits⟩
  case ancestors => exact fun a => hvisits.mem_iff
  case nodup => exact hvisits.nodup h.acyclic .nil
  case last => exact hvisits.getLast?_eq
  case properties => exact hproperties
  case names =>
    have hnodup := Outline.names_attributesOf_nodup h.names_nodup c hc
    rwa [show ((Outline.ofTypes document.types).classOf c).properties.map (·.name)
      = ((Outline.ofTypes document.types).attributesOf c.name).map (·.name) from
        List.map_map]
  case shared =>
    intro p hp
    rw [hproperties] at hp
    obtain ⟨name, hname, hown⟩ := List.mem_flatMap.mp hp
    obtain ⟨entry, hentry, rfl⟩ := List.mem_map.mp hown
    obtain ⟨a, ha, rfl, hby⟩ := Outline.exists_of_mem_ownOf h.names_nodup hentry
    rw [show ((Outline.ofTypes document.types).propertyOf entry).declaredBy = a.name from hby]
    refine ⟨hname, hown, (Outline.ofTypes document.types).classOf a, ?_, rfl,
      h.ownProperties_subset ha hown⟩
    rw [h.classes_table]
    exact List.mem_map_of_mem ha
  case arguments =>
    intro d hd hname harguments
    obtain rfl := Outline.class_eq_of_name_eq h.names_nodup (Outline.mem_classesOf.mpr hd) hc hname
    show (Argument.ofClass _ d _).1 = (List.map _ _).map _
    rw [Argument.ofClass, harguments, List.map_map]
    rfl

end Document.Clean

/-- **Effective properties are the linearization of the hierarchy.** -/
theorem Model.properties_linearized {key : String} {value : Json} {table : Table}
    (h : Model.load key value = .ok table) :
    ∃ document own, Document.decode? value = some document
      ∧ table.classes.map (·.name) = (Outline.classesOf document.types).map (·.name)
      ∧ (∀ a, .classType a ∈ document.types →
          List.Forall₂ (document.Declares a.name) a.properties (own a.name))
      ∧ ∀ c ∈ table.classes, ∃ listed, document.Linearizes table own c listed := by
  obtain ⟨document, -, hd, hnone, rfl⟩ := Model.load_eq_ok_iff.mp h
  have hclean := Document.problems_eq_nil_iff.mp hnone
  exact ⟨document, document.ownProperties, hd, hclean.names_classes_table,
    fun a ha => hclean.declares ha, hclean.forall_classes fun c hc => hclean.linearizes hc⟩

/-- A class that inherits from another along two ways, and stands before all its ancestors. -/
def diamond : Json :=
  .object [("name", .text "shapes"), ("types", .array [
    .object [("kind", .text "concreteClass"), ("name", .text "bottom"),
      ("inheritances", Json.texts ["left", "right"]),
      ("properties", .array [.object [("name", .text "own"), ("type", .text "int")]])],
    .object [("kind", .text "abstractClass"), ("name", .text "left"),
      ("inheritances", Json.texts ["top"]),
      ("properties", .array [.object [("name", .text "west"), ("type", .text "Optional[top]")]])],
    .object [("kind", .text "abstractClass"), ("name", .text "right"),
      ("inheritances", Json.texts ["top"]),
      ("properties", .array [.object [("name", .text "east"), ("type", .text "str")]])],
    .object [("kind", .text "abstractClass"), ("name", .text "top"),
      ("properties", .array [.object [("name", .text "id"), ("type", .text "str")]])]])]

theorem diamond_linearized : ∃ table, Model.load "modelType" diamond = .ok table
    ∧ ∃ document own, Document.decode? diamond = some document
      ∧ table.classes.map (·.name) = (Outline.classesOf document.types).map (·.name)
      ∧ (∀ a, .classType a ∈ document.types →
          List.Forall₂ (document.Declares a.name) a.properties (own a.name))
      ∧ ∀ c ∈ table.classes, ∃ listed, document.Linearizes table own c listed := by
  have hloads : (Model.load "modelType" diamond).toOption.isSome = true := by decide +kernel
  obtain ⟨table, hload⟩ := Model.exists_table hloads
  exact ⟨table, hload, Model.properties_linearized hload⟩

end WireModel
